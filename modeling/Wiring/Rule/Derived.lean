import Wiring.Rule
import Wiring.Context.Pattern

/-!
# Derived rules

From the rules that were given, two more sets are derived: the same bindings for the types between
target and dependency, and for the supertypes of the dependency. Within a set, rules under one
pattern form a group.
-/

namespace Wiring

/-- A rule and the contexts it applies in. -/
structure ScopedRule where
  pattern : ContextPattern
  rule : Rule

structure RuleGroup where
  pattern : ContextPattern
  rules : List Rule

inductive RuleSet where
  | explicit
  /-- For a rule from `A` to `C`, a rule from each type strictly between `C` and `A`. -/
  | intermediate
  /-- For a rule from `A` to `C`, a rule from each supertype of `A`. -/
  | super
deriving DecidableEq

namespace RuleSet

def typesOf (c : Catalog) (r : Rule) : RuleSet → List TypeKey
  | explicit => [r.dependType]
  | intermediate => c.typesBetween r.target.key r.dependType
  | super => c.supertypes r.dependType

/-- The rules of a set, under the patterns of the rules they come from. -/
def rules (s : RuleSet) (c : Catalog) (given : List ScopedRule) : List ScopedRule :=
  given.flatMap fun g => (s.typesOf c g.rule).map fun t => ⟨g.pattern, g.rule.retarget t⟩

end RuleSet

def addToGroups (r : ScopedRule) : List RuleGroup → List RuleGroup
  | [] => [⟨r.pattern, [r.rule]⟩]
  | g :: gs =>
    if g.pattern = r.pattern then ⟨g.pattern, g.rules ++ [r.rule]⟩ :: gs else g :: addToGroups r gs

/-- Groups in the order in which their patterns first come, each with its rules in order. -/
def groupRules (rules : List ScopedRule) : List RuleGroup :=
  rules.foldl (fun groups r => addToGroups r groups) []

def RuleSet.groups (s : RuleSet) (c : Catalog) (given : List ScopedRule) : List RuleGroup :=
  groupRules (s.rules c given)

end Wiring
