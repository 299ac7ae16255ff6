import Wiring.Qualifier

/-!
# Qualifier matchers

A matcher accepts some qualifiers, and perhaps the absence of one. Of two matchers that both
accept, the one with the lower priority is the more specific.
-/

namespace Wiring

inductive QualifierMatcher where
  | exactly (qualifier : Qualifier)
  | ofKind (kind : String)
  | any
  /-- No qualifier, or one that allows bindings without a qualifier. -/
  | default
  /-- Only the absence of a qualifier. -/
  | absent
deriving DecidableEq

namespace QualifierMatcher

def accepts : QualifierMatcher → Option Qualifier → Bool
  | exactly q, p => p == some q
  | ofKind k, p => p.any (·.kind == k)
  | any, _ => true
  | default, p => p.all (·.lenient)
  | absent, p => p.isNone

def priority : QualifierMatcher → Nat
  | exactly _ | absent => 0
  | ofKind _ => 1
  | any => 2
  | default => 3

def text : QualifierMatcher → String
  | exactly q => q.text
  | ofKind k => "@" ++ k ++ "(*)"
  | any => "<any>"
  | default => "<default>"
  | absent => "<none>"

def lead (m : QualifierMatcher) : String := if m = default then "" else m.text ++ " "

end QualifierMatcher

end Wiring
