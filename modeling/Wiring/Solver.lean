import Wiring.Solver.Deferral

/-!
# The solver

A solver gathers the graphs of all roots it is asked for below one root node. What a call reports
is returned with its result.
-/

namespace Wiring

structure Solver where
  settings : Settings
  graph : Graph
  backEdges : BackEdges
  pool : GraphPool
  /-- The orders in which back-edges come, one for each time that they are gone through. -/
  orders : Nat → BackEdges.Order

structure Called (α : Type) where
  result : Attempt α
  solver : Solver
  events : List Event

namespace Solver

def ofSettings (s : Settings) (orders : Nat → BackEdges.Order := fun _ => .added) :
    Dag.Fresh Solver :=
  return ⟨s, ← Dag.singleton .root, .empty, .empty, orders⟩

def rootNode? (s : Solver) (d : Desire) : Option Graph := s.graph.resolved? d

def workspace (s : Solver) (nextTag : Nat) : Workspace :=
  { nextTag, pool := s.pool, orders := s.orders }

/-- Does some work in the solver's workspace. The pool keeps what the work added to it. -/
def perform {α : Type} (s : Solver) (work : Work α) : Dag.Fresh (Called α) :=
  modifyGet fun nextTag =>
    let (result, w) := work.run.run (s.workspace nextTag)
    (⟨result, { s with pool := w.pool }, w.events⟩, w.nextTag)

/-- Resolves a root desire and links it below the root node: the graph and the back-edges with it,
and the component it was resolved to. -/
def resolveRoot (s : Solver) (d : Desire) : Work (Graph × BackEdges × Component) := do
  let (dep, tree) ← s.settings.resolveFully d .initial
  let node ← Work.merge tree
  let linked ← Work.build (s.graph.copy.addEdge dep node).build
  let (graph, backEdges) ← s.settings.processDeferrals linked s.backEdges
  return (graph, backEdges, node.label)

/-- Resolves a root desire. If that fails, the graph and the back-edges stay as they are. -/
def resolve (s : Solver) (d : Desire) : Dag.Fresh (Called Unit) := do
  let called ← s.perform (s.resolveRoot d)
  match called.result with
  | .ok (graph, backEdges, component) =>
    return ⟨.ok (), { called.solver with graph, backEdges },
      .resolving d :: called.events ++ [.resolved d component]⟩
  | .error e => return ⟨.error e, called.solver, .resolving d :: called.events ++ [.failed d e]⟩

def outline (s : Solver) : String :=
  Text.recordOutline "DependencySolver"
    [("functions", Text.listOutline (s.settings.functions.map (·.outline))),
     ("triggers", Text.listOutline (s.settings.triggers.map (·.outline))),
     ("default_policy", s.settings.defaultPolicy.outline),
     ("max_depth", toString s.settings.maxDepth),
     ("roots", toString s.graph.edges.length),
     ("back_edges", toString s.backEdges.size)]

end Solver

end Wiring
