import Wiring.Text.Blank

/-!
# Cache policies

Whether the instances of a component are shared. Policies are ordered by strength: where several
bindings give one, the strongest holds.
-/

namespace Wiring

inductive CachePolicy where
  | noPreference
  | memoize
  | newInstance
deriving DecidableEq, Inhabited

namespace CachePolicy

def strength : CachePolicy → Nat
  | noPreference => 0
  | memoize => 1
  | newInstance => 2

instance : Ord CachePolicy := ⟨fun a b => compare a.strength b.strength⟩

instance : Hashable CachePolicy := ⟨fun p => p.strength.toUInt64⟩

def max (a b : CachePolicy) : CachePolicy := if a.strength < b.strength then b else a

def or (p fallback : CachePolicy) : CachePolicy := if p = noPreference then fallback else p

def text : CachePolicy → String
  | noPreference => "no_preference"
  | memoize => "memoize"
  | newInstance => "new_instance"

def outline : CachePolicy → String
  | noPreference => "NoPreference"
  | memoize => "Memoize"
  | newInstance => "NewInstance"

/-- A policy behind what it applies to; no preference is not written. -/
def trail (p : CachePolicy) : String := if p = noPreference then "" else " [" ++ p.text ++ "]"

/-- Blanks around the word, the case of ASCII letters and the choice of hyphen or underscore do not
matter. -/
def normalizedWord (s : String) : String :=
  String.ofList ((Text.trimChars s.toList).map fun c => if c = '-' then '_' else c.toLower)

/-- Each policy has two words. A word that is none of them is given back as it was understood. -/
def ofWord (s : String) : Except String CachePolicy :=
  match normalizedWord s with
  | "no_preference" | "none" => .ok noPreference
  | "memoize" | "singleton" => .ok memoize
  | "new_instance" | "transient" => .ok newInstance
  | other => .error other

end CachePolicy

end Wiring
