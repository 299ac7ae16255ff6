import Wiring.Error
import Wiring.Text.Blank
import Wiring.Text.Upper

/-!
# Settings

How deep contexts may grow and which cache policies hold where none is given. Settings are looked
up by key; a key that is not set keeps its default.
-/

namespace Wiring

structure Config where
  maxDepth : Nat := 100
  /-- The policy a solver gives to components without one. -/
  defaultPolicy : CachePolicy := .noPreference
  /-- The policy a container applies to components that still have none. -/
  containerPolicy : CachePolicy := .noPreference
deriving DecidableEq

namespace Config

def text (c : Config) : String :=
  "max_depth=" ++ toString c.maxDepth ++ " default_policy=" ++ c.defaultPolicy.text ++
    " container_policy=" ++ c.containerPolicy.text

def override (c : Config) (maxDepth : Option Nat)
    (defaultPolicy containerPolicy : Option CachePolicy) :
    Config :=
  ⟨maxDepth.getD c.maxDepth, defaultPolicy.getD c.defaultPolicy,
    containerPolicy.getD c.containerPolicy⟩

/-! ## Reading single settings -/

def digitsValue? (cs : List Char) : Option Nat :=
  if cs.isEmpty || !cs.all Char.isDigit then none
  else some (cs.foldl (fun n c => 10 * n + (c.toNat - '0'.toNat)) 0)

/-- A number of 64 bits, which may have a plus sign. -/
def wordValue? (cs : List Char) : Option Nat :=
  let digits := match cs with
    | '+' :: rest => rest
    | _ => cs
  (digitsValue? digits).filter (· < UInt64.size)

/-- Blanks around the number do not matter, but zero is no depth. -/
def readDepth (raw : String) : Except ConfigFault Nat :=
  match wordValue? (Text.trimChars raw.toList) with
  | none => .error (.depthNotNumber raw)
  | some 0 => .error .depthZero
  | some n => .ok n

def readPolicy (raw : String) : Except ConfigFault CachePolicy :=
  (CachePolicy.ofWord raw).mapError .unknownPolicy

def readOr {α : Type} (read : String → Except ConfigFault α) (default : α) :
    Option String → Except ConfigFault α
  | some raw => read raw
  | none => .ok default

/-- Looks up all settings. The first one that cannot be read is the error. -/
def load (lookup : String → Option String) : Except ConfigFault Config := do
  let maxDepth ← readOr readDepth 100 (lookup "max_depth")
  let defaultPolicy ← readOr readPolicy .noPreference (lookup "default_policy")
  let containerPolicy ← readOr readPolicy .noPreference (lookup "container_policy")
  return { maxDepth, defaultPolicy, containerPolicy }

/-! ## Environment variables -/

/-- The variable that holds a setting: the key in upper case, behind the lead in upper case. -/
def variableName (lead : Option String) (key : String) : String :=
  match lead with
  | some l => Text.upper l ++ "_" ++ Text.upper key
  | none => Text.upper key

def fromVariables (environment : String → Option String) (lead : Option String) :
    String → Option String :=
  fun key => environment (variableName lead key)

def standardLead : String := "FERROUS_RESOLVER"

end Config

end Wiring
