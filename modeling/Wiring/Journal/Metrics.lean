import Wiring.Journal

/-!
# Metrics

Counts of what a solver reported. Times are counted in nanoseconds, in words of 64 bits that wrap.
-/

namespace Wiring

structure Metrics where
  resolutions : UInt64 := 0
  failures : UInt64 := 0
  totalTime : UInt64 := 0
  bindings : UInt64 := 0
  backtracks : UInt64 := 0
  backEdges : UInt64 := 0
deriving DecidableEq

namespace Metrics

def addResolution (m : Metrics) (nanoseconds : Nat) : Metrics :=
  { m with resolutions := m.resolutions + 1, totalTime := m.totalTime + nanoseconds.toUInt64 }

def addFailure (m : Metrics) : Metrics := { m with failures := m.failures + 1 }

def addBinding (m : Metrics) : Metrics := { m with bindings := m.bindings + 1 }

def addBacktrack (m : Metrics) : Metrics := { m with backtracks := m.backtracks + 1 }

def addBackEdge (m : Metrics) : Metrics := { m with backEdges := m.backEdges + 1 }

/-- Counts an event. Resolved roots take no time here. -/
def add (m : Metrics) : Event → Metrics
  | .resolved .. => m.addResolution 0
  | .failed .. => m.addFailure
  | .bound .. => m.addBinding
  | .backtracked .. => m.addBacktrack
  | .backEdge .. => m.addBackEdge
  | .asked .. | .resolving _ | .deferred _ => m

def addAll (m : Metrics) (events : List Event) : Metrics := events.foldl add m

def averageTime? (m : Metrics) : Option UInt64 :=
  if m.resolutions = 0 then none else some (m.totalTime / m.resolutions)

end Metrics

end Wiring
