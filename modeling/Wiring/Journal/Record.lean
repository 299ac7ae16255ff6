import Wiring.Journal

/-!
# Log records

Events as records for a log, with a level, a message and named fields.
-/

namespace Wiring

inductive LogLevel where
  | info
  | warn
  | debug
deriving DecidableEq

def LogLevel.text : LogLevel → String
  | info => "INFO"
  | warn => "WARN"
  | debug => "DEBUG"

structure LogRecord where
  level : LogLevel
  message : String
  fields : List (String × String)

/-- The record of an event, under the name of the log. Notes of scripted functions have none. -/
def Event.record? (log : String) : Event → Option LogRecord
  | asked .. => none
  | resolving d => some ⟨.info, "resolving", [("prefix", log), ("desire", d.text)]⟩
  | resolved d c =>
    some ⟨.info, "resolved", [("prefix", log), ("desire", d.text), ("node", c.text)]⟩
  | failed d e =>
    some ⟨.warn, "resolution failed", [("prefix", log), ("desire", d.text), ("error", e.message)]⟩
  | bound chain c =>
    some ⟨.debug, "binding applied",
      [("prefix", log), ("desire", chain.current.text), ("context", c.text)]⟩
  | deferred c => some ⟨.debug, "dependencies deferred", [("prefix", log), ("node", c.text)]⟩
  | backtracked a b =>
    some ⟨.debug, "backtracked",
      [("prefix", log), ("abandoned", a.current.text), ("restored", b.current.text)]⟩
  | backEdge a b =>
    some ⟨.debug, "back edge", [("prefix", log), ("from", a.text), ("to", b.text)]⟩

def defaultLogName : String := "ferrous-resolver"

end Wiring
