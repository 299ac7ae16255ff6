import Wiring.Journal.Record

/-!
# Listeners

What is wanted of the events a solver reports: lines, records for a log, or both.
-/

namespace Wiring

structure Listener where
  /-- Whether every event is wanted as a line; else only the notes of scripted functions are. -/
  everything : Bool := false
  /-- The name of the log that wants records, if one does. -/
  log : Option String := none

namespace Listener

/-- A log that has an empty name is given the usual one. -/
def named (name : String) : String := if name.isEmpty then defaultLogName else name

def lines (l : Listener) (events : List Event) : List String :=
  (events.filter fun e => l.everything || e.isNote).map (·.line)

def records (l : Listener) (events : List Event) : List LogRecord :=
  l.log.toList.flatMap fun name => events.filterMap (·.record? name)

end Listener

end Wiring
