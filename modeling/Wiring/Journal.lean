import Wiring.Component
import Wiring.Context
import Wiring.Error

/-!
# The journal

What a solver reports while it works, in order.
-/

namespace Wiring

inductive Event where
  | asked (desire : Desire) (context : Context)
  | resolving (desire : Desire)
  | resolved (desire : Desire) (component : Component)
  | failed (desire : Desire) (error : WiringError)
  | bound (chain : DesireChain) (context : Context)
  | deferred (component : Component)
  | backtracked (abandoned restored : DesireChain)
  | backEdge (head tail : Component)

def Event.line : Event → String
  | asked d c => "ask " ++ d.text ++ " in " ++ c.text
  | resolving d => "resolving " ++ d.text
  | resolved d c => "resolved " ++ d.text ++ " as " ++ c.text
  | failed d e => "failed " ++ d.text ++ " with " ++ e.kind
  | bound chain c => "bound " ++ chain.text ++ " in " ++ c.text
  | deferred c => "deferred " ++ c.text
  | backtracked a b => "backtracked " ++ a.text ++ " to " ++ b.text
  | backEdge a b => "back edge " ++ a.text ++ " to " ++ b.text

def Event.isNote : Event → Bool
  | asked .. => true
  | _ => false

end Wiring
