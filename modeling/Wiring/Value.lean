import Wiring.Digest

/-!
# Values and providers

Instances that nothing has to build: they exist before any wiring starts, or a script brings them
along. A value or provider is the same as another only if it is the very same object, so each
carries an identity next to its content.
-/

namespace Wiring

/-- When a script is asked: the turn, which is one run of binding, and the round within it. -/
structure Occasion where
  turn : Nat
  round : Nat
deriving DecidableEq

inductive Identity where
  | supplied (number : Nat)
  | made (number : Nat)
  /-- The one that stands in a place of a script on an occasion. -/
  | offered (place : Nat) (occasion : Occasion)
deriving DecidableEq

namespace Identity

instance : Hashable Identity where
  hash
    | supplied n => Digest.mix 1 n.toUInt64
    | made n => Digest.mix 2 n.toUInt64
    | offered place o =>
      Digest.mix (Digest.mix 3 place.toUInt64) (Digest.mix o.turn.toUInt64 o.round.toUInt64)

def inScript (place : Nat) : Identity := offered place ⟨0, 0⟩

/-- The object on an occasion: another one each time in a script, elsewhere the same. -/
def renew (o : Occasion) : Identity → Identity
  | offered place _ => offered place o
  | i => i

end Identity

inductive Datum where
  | number (n : UInt64)
  | text (s : String)
  | object (name : String)
deriving DecidableEq

def Datum.summary : Datum → String
  | number n => "u64:" ++ toString n
  | text s => "str:" ++ s
  | object name => "obj:" ++ name

structure Value where
  identity : Identity
  datum : Datum
deriving DecidableEq

instance : Hashable Value := ⟨fun v => hash v.identity⟩

inductive Supply where
  /-- The numbers from `start` on, wrapping at the end of the range. -/
  | counter (start : UInt64)
  | constant (value : Value)
  /-- A new object every time, named `name` and a serial number. -/
  | fresh (name : String)
  | failing (message : String)
deriving DecidableEq

structure Provider where
  identity : Identity
  supply : Supply
deriving DecidableEq

instance : Hashable Provider := ⟨fun p => hash p.identity⟩

end Wiring
