import Wiring.BackEdges
import Wiring.Config
import Wiring.Dag.Pool
import Wiring.Solver.Rounds

/-!
# The solver's workspace

Settings do not change while a solver works. The workspace does: the pool of canonical nodes, the
deferrals waiting in their queue, the events reported so far. It is kept when resolving fails.
-/

namespace Wiring

structure Settings where
  catalog : Catalog
  functions : List BindingFunction
  triggers : List BindingFunction := []
  defaultPolicy : CachePolicy := .noPreference
  /-- The deepest context in which desires are resolved. -/
  maxDepth : Nat := 100

def Settings.ofConfig (catalog : Catalog) (given : List ScopedRule) (config : Config) :
    Settings where
  catalog := catalog
  functions := BindingFunction.standard catalog given
  defaultPolicy := config.defaultPolicy
  maxDepth := config.maxDepth

/-- A node whose dependencies are still to be resolved, and the context to do it in. -/
structure Deferral where
  node : Graph
  context : Context

abbrev GraphPool := Dag.Pool Component Dependency

structure Workspace where
  /-- The next tag or turn. -/
  nextTag : Nat
  pool : GraphPool
  /-- The orders in which back-edges come, one for each time that they are gone through. -/
  orders : Nat → BackEdges.Order
  queue : List Deferral := []
  events : List Event := []

/-- Work that may fail; what it did to the workspace stays. -/
abbrev Work := ExceptT WiringError (StateM Workspace)

namespace Work

def report (es : List Event) : Work Unit := modify fun w => { w with events := w.events ++ es }

def putOff (d : Deferral) : Work Unit := modify fun w => { w with queue := w.queue ++ [d] }

def takeQueue : Work (List Deferral) := modifyGet fun w => (w.queue, { w with queue := [] })

def order : Work BackEdges.Order := return (← get).orders (← get).nextTag

def build {α : Type} (m : Dag.Fresh α) : Work α :=
  modifyGet fun w => let (a, tag) := m.run w.nextTag; (a, { w with nextTag := tag })

def newTurn : Work Nat := modifyGet fun w => (w.nextTag, { w with nextTag := w.nextTag + 1 })

def merge (g : Graph) : Work Graph := do
  let (found, pool) ← build ((← get).pool.merge g)
  modify fun w => { w with pool }
  return found

end Work

end Wiring
