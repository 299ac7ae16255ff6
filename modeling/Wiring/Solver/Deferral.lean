import Wiring.BackEdges
import Wiring.Dag.Replace
import Wiring.Solver.Tree

/-!
# Deferred dependencies

When the tree of a root stands, the deferred nodes in it are expanded, in the order in which they
were put off. A child that leads back to the node being expanded closes a cycle and is kept beside
the graph; every other child becomes an edge, and the node is replaced in the graph.
-/

namespace Wiring

structure Pass where
  root : Graph
  backEdges : BackEdges
  expanded : List (Graph × List Resolved) := []

namespace Pass

def children? (p : Pass) (node : Graph) : Option (List Resolved) :=
  (p.expanded.find? fun e => e.1 == node).map (·.2)

def replace (p : Pass) (old new : Graph) : Work Pass := do
  let order ← Work.order
  let (root, memo) ← Work.build (Dag.replaceNode old new p.root .empty)
  return { p with root, backEdges := p.backEdges.rekey order memo }

end Pass

namespace Settings

/-- Adds one child to the node `current` that `parent` has become: as a back-edge if the child
leads to `parent`, else as an edge. -/
def addChild (parent current : Graph) (dep : Dependency) (child : Graph) (p : Pass) :
    Work (Graph × Pass) := do
  if child.reaches parent then
    Work.report [.backEdge current.label child.label]
    return (current, { p with backEdges := p.backEdges.append current [⟨current, child, dep⟩] })
  else
    let replacement ← Work.build (current.copy.addEdge dep child).build
    return (replacement, ← p.replace current replacement)

def expandChildren (s : Settings) (parent : Graph) (context : Context) :
    List Desire → Graph → Pass → Work (List Resolved × Pass)
  | [], _, p => return ([], p)
  | d :: ds, current, p => do
    let (dep, tree) ← s.resolveFully d context
    let child ← Work.merge tree
    let (current, p) ← addChild parent current dep child p
    let (children, p) ← s.expandChildren parent context ds current p
    return ((dep, child) :: children, p)

/-- Looks at one deferral. A node that has back-edges or is not in the graph needs nothing; one
that was expanded before in this pass lies below its own expansion and gets the same children. -/
def processDeferral (s : Settings) (p : Pass) (d : Deferral) : Work Pass := do
  let parent := d.node
  if p.backEdges.contains parent || !p.root.reaches parent then return p
  match p.children? parent with
  | some children =>
    return { p with backEdges := p.backEdges.set parent (children.map fun e => ⟨parent, e.2, e.1⟩) }
  | none =>
    let desires := parent.label.satisfaction.dependencies s.catalog
    let (children, p) ← s.expandChildren parent d.context desires parent p
    return { p with expanded := p.expanded ++ [(parent, children)] }

/-- Looks at all deferrals, generation by generation: those in the queue, then those that were put
off meanwhile, for at most `generations` of them. -/
def processGenerations (s : Settings) : Nat → Pass → Work Pass
  | 0, p => return p
  | generations + 1, p => do
    let batch ← Work.takeQueue
    if batch.isEmpty then return p
    s.processGenerations generations (← batch.foldlM s.processDeferral p)

/-- Looks at all deferrals. Those put off while one is expanded have deeper contexts than it has, so
there are no more generations than depths. -/
def processDeferrals (s : Settings) (root : Graph) (backEdges : BackEdges) :
    Work (Graph × BackEdges) := do
  let p ← s.processGenerations (s.maxDepth + 2) { root, backEdges }
  return (p.root, p.backEdges)

end Settings

end Wiring
