import Wiring.Journal.Listener
import Wiring.Journal.Metrics
import Wiring.Solver

/-!
# Observed solvers

A solver whose reports are counted and listened to.
-/

namespace Wiring

structure Observed where
  solver : Solver
  listener : Listener
  metrics : Metrics := {}

def Observed.after {α : Type} (o : Observed) (called : Called α) : Observed :=
  { o with solver := called.solver, metrics := o.metrics.addAll called.events }

end Wiring
