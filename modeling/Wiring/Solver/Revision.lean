import Wiring.Dag.Transform
import Wiring.Solver

/-!
# Revising a graph

A revision walks a graph from its root. An edge that is not fixed and on whose initial desire a
trigger has an opinion is resolved again, in the context of the walk; below all other edges the
walk goes on. Parts that did not change are shared with the graph that was given.
-/

namespace Wiring

structure Revision where
  backEdges : BackEdges
  replacements : List (GraphEdge × GraphEdge) := []
  /-- Where the walk has been: nodes with the contexts they were met in. -/
  visited : List (Graph × Context) := []

namespace Revision

def replacement? (r : Revision) (e : GraphEdge) : Option GraphEdge :=
  (r.replacements.find? fun p => p.1 == e).map (·.2)

def wasAt (r : Revision) (g : Graph) (context : Context) : Bool :=
  r.visited.any fun v => v.1 == g && v.2 == context

end Revision

namespace Settings

/-- Whether one of the triggers offers to bind the first desire of a chain. -/
def anyOffer (s : Settings) (context : Context) (chain : DesireChain) :
    List BindingFunction → Work Bool
  | [] => return false
  | f :: fs => do
    let b := Binder.ofFunction f
    Work.report (b.notes context chain)
    match ← b.offer s.catalog (← Work.newTurn) context chain with
    | some _ => return true
    | none => s.anyOffer context chain fs

def isTriggered (s : Settings) (context : Context) (d : Desire) : Work Bool :=
  s.anyOffer context (.singleton d) s.triggers

def replaceEdge (s : Settings) (e : GraphEdge) (context : Context) (r : Revision) :
    Work Revision := do
  modify fun w => { w with queue := [] }
  let (dep, tree) ← s.resolveFully e.label.initial context
  let merged ← Work.merge tree
  let (tail, backEdges) ← s.processDeferrals merged r.backEdges
  return { r with backEdges, replacements := r.replacements ++ [(e, ⟨e.head, tail, dep⟩)] }

def across (e : GraphEdge) (context : Context) : Context :=
  context.extend e.tail.label.satisfaction e.label.chain.current.qualifier

mutual

/-- Walks from a node, unless the walk has been there in the same context. -/
def reviseNode (s : Settings) : Graph → Context → Revision → Work Revision
  | g@(.node _ _ _ es), context, r =>
    if r.wasAt g context then return r
    else s.reviseEdges g es context { r with visited := (g, context) :: r.visited }

def reviseEdges (s : Settings) (head : Graph) :
    List (Dependency × Graph) → Context → Revision → Work Revision
  | [], _, r => return r
  | (dep, tail) :: rest, context, r => do
    let e : GraphEdge := ⟨head, tail, dep⟩
    if (r.replacement? e).isSome then s.reviseEdges head rest context r
    else if ← (if dep.fixed then pure false else s.isTriggered context dep.initial) then
      s.reviseEdges head rest context (← s.replaceEdge e context r)
    else
      s.reviseEdges head rest context (← s.reviseNode tail (across e context) r)

end

end Settings

namespace Solver

/-- The revised graph, merged over the graph that was given, and the back-edges. -/
def reviseWork (s : Solver) (g : Graph) : Work (Graph × BackEdges) := do
  let r ← s.settings.reviseNode g .initial { backEdges := s.backEdges }
  let staged ← Work.build (Dag.transform r.replacement? g)
  let (_, pool) ← Work.build (Dag.Pool.empty.merge g)
  let (revised, _) ← Work.build (pool.merge staged)
  return (revised, r.backEdges)

/-- Revises a graph whose first node is a root node. The solver's graph stays as it is; its
back-edges are those of the revised graph. -/
def revise (s : Solver) (g : Graph) : Dag.Fresh (Called Graph) := do
  if g.label.isRoot then
    let called ← s.perform (s.reviseWork g)
    match called.result with
    | .ok (graph, backEdges) => return ⟨.ok graph, { called.solver with backEdges }, called.events⟩
    | .error e => return ⟨.error e, called.solver, called.events⟩
  else return ⟨.error (.invalidGraph (.notRoot g.label.text)), s, []⟩

end Solver

end Wiring
