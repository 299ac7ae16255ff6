import Wiring.Digest

/-!
# Type keys

A key names a type that can be wired: a class or an interface by its name, the provider of another
type, or the type of the synthetic root.
-/

namespace Wiring

inductive TypeKey where
  | named (name : String)
  | provider (provided : TypeKey)
  | root
deriving DecidableEq, Inhabited

namespace TypeKey

def digest : TypeKey → UInt64
  | named n => Digest.ofText n
  | provider t => Digest.mix 2 t.digest
  | root => 3

instance : Hashable TypeKey := ⟨digest⟩

def provided? : TypeKey → Option TypeKey
  | provider t => some t
  | _ => none

def isProvider (k : TypeKey) : Bool := k.provided?.isSome

def text : TypeKey → String
  | named n => n
  | provider t => "Provider<" ++ t.text ++ ">"
  | root => "()"

/-- Names come first, in the order of their code points, then providers by what they provide, then
the root. -/
def order : TypeKey → TypeKey → Ordering
  | named a, named b => compare a b
  | named _, _ => .lt
  | provider _, named _ => .gt
  | provider a, provider b => order a b
  | provider _, root => .lt
  | root, root => .eq
  | root, _ => .gt

instance : Ord TypeKey := ⟨order⟩

end TypeKey

end Wiring
