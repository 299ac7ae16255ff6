import Wiring.Error
import Wiring.Catalog.Hierarchy

/-!
# Drafts of rules

A rule is drafted step by step and then built. Naming a target sets whether the rule is terminal,
so the last of the two steps decides. A rule whose target cannot stand in for what it binds is
refused.
-/

namespace Wiring

structure RuleDraft where
  dependType : TypeKey
  matcher : QualifierMatcher := .default
  target : Option BindTarget := none
  policy : CachePolicy := .noPreference
  flags : BindFlags := {}

namespace RuleDraft

def bind (t : TypeKey) : RuleDraft := { dependType := t }

def matching (r : RuleDraft) (m : QualifierMatcher) : RuleDraft := { r with matcher := m }

def qualified (r : RuleDraft) (q : Qualifier) : RuleDraft := r.matching (.exactly q)

/-- Binds to a type, which may be bound further. -/
def toType (r : RuleDraft) (t : TypeKey) : RuleDraft :=
  { r with target := some (.type t), flags := { r.flags with terminal := false } }

/-- Binds to a satisfaction, where binding ends. -/
def toSatisfaction (r : RuleDraft) (s : Satisfaction) : RuleDraft :=
  { r with target := some (.satisfaction s), flags := { r.flags with terminal := true } }

def toInstance (r : RuleDraft) (v : Value) : RuleDraft :=
  r.toSatisfaction (.existing r.dependType v)

def toProviderClass (r : RuleDraft) (p : TypeKey) : RuleDraft :=
  r.toSatisfaction (.viaClass p r.dependType)

def toProvider (r : RuleDraft) (p : Provider) : RuleDraft :=
  r.toSatisfaction (.viaProvider r.dependType p)

def toNull (r : RuleDraft) : RuleDraft := r.toSatisfaction (.null r.dependType)

def withPolicy (r : RuleDraft) (p : CachePolicy) : RuleDraft := { r with policy := p }

def fixed (r : RuleDraft) : RuleDraft := { r with flags := { r.flags with fixed := true } }

def setTerminal (r : RuleDraft) (terminal : Bool) : RuleDraft :=
  { r with flags := { r.flags with terminal := terminal } }

def deferred (r : RuleDraft) : RuleDraft := { r with flags := { r.flags with deferred := true } }

def skippable (r : RuleDraft) : RuleDraft := { r with flags := { r.flags with skippable := true } }

/-- The rule drafted, if it has a target that can stand in for the type it binds. -/
def build (r : RuleDraft) (c : Catalog) : Attempt Rule :=
  match r.target with
  | none => .error (.invalidBinding (.noTarget r.dependType))
  | some target =>
    if c.isAssignable target.key r.dependType then
      .ok ⟨r.dependType, r.matcher, target, r.policy, r.flags⟩
    else .error (.invalidBinding (.notAssignable target.key r.dependType))

end RuleDraft

end Wiring
