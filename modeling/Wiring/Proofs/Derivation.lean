import Wiring.Proofs.Catalog.Distances
import Wiring.Proofs.Coherence

/-!
# The rules of a set

From every rule given, a set has one copy for each type that the set derives a rule for, under the
same pattern, and nothing else. Grouping by pattern neither loses nor doubles a rule. What a rule
that was built binds to can stand in for the types of all its copies.
-/

namespace Wiring

open Relation (ReflTransGen)

variable {c : Catalog} {given rules : List ScopedRule} {a : ScopedRule} {gs : List RuleGroup}
  {set : RuleSet} {r : Rule} {t : TypeKey}

/-! ## Groups -/

def ungrouped (gs : List RuleGroup) : List ScopedRule :=
  gs.flatMap fun g => g.rules.map (⟨g.pattern, ·⟩)

theorem ungrouped_addToGroups (a : ScopedRule) (gs : List RuleGroup) :
    (ungrouped (addToGroups a gs)).Perm (a :: ungrouped gs) := by
  induction gs with
  | nil => exact .refl _
  | cons g gs ih =>
    rw [addToGroups]
    split
    · rename_i hpattern
      have hone : (⟨g.pattern, a.rule⟩ : ScopedRule) = a := by rw [hpattern]
      simp only [ungrouped, List.flatMap_cons, List.map_append, List.map_cons, List.map_nil, hone,
        List.append_assoc, List.singleton_append]
      exact List.perm_middle
    · exact (ih.append_left (g.rules.map (⟨g.pattern, ·⟩))).trans List.perm_middle

theorem ungrouped_groupRules (rules : List ScopedRule) :
    (ungrouped (groupRules rules)).Perm rules := by
  have hfold : ∀ gs : List RuleGroup,
      (ungrouped (rules.foldl (fun gs a => addToGroups a gs) gs)).Perm
        (rules ++ ungrouped gs) := by
    induction rules with
    | nil => exact fun gs => .refl _
    | cons a rules ih =>
      intro gs
      exact (ih (addToGroups a gs)).trans
        (((ungrouped_addToGroups a gs).append_left rules).trans List.perm_middle)
  simpa [groupRules, ungrouped] using hfold []

theorem patterns_addToGroups (a : ScopedRule) (gs : List RuleGroup) :
    (addToGroups a gs).map (·.pattern) =
      if a.pattern ∈ gs.map (·.pattern) then gs.map (·.pattern)
      else gs.map (·.pattern) ++ [a.pattern] := by
  induction gs with
  | nil => rfl
  | cons g gs ih =>
    rw [addToGroups]
    split
    · rename_i hpattern
      simp [hpattern]
    · rename_i hpattern
      rw [List.map_cons, ih]
      simp only [List.map_cons, List.mem_cons, eq_comm (a := a.pattern) (b := g.pattern), hpattern,
        false_or]
      split <;> rfl

theorem nodup_patterns_groupRules (rules : List ScopedRule) :
    ((groupRules rules).map (·.pattern)).Nodup := by
  have hfold : ∀ gs : List RuleGroup, (gs.map (·.pattern)).Nodup →
      ((rules.foldl (fun gs a => addToGroups a gs) gs).map (·.pattern)).Nodup := by
    induction rules with
    | nil => exact fun _ h => h
    | cons a rules ih =>
      intro gs hgs
      refine ih _ ?_
      rw [patterns_addToGroups]
      split
      · exact hgs
      · rename_i hnew
        exact List.nodup_append_comm.mp (List.nodup_cons.mpr ⟨hnew, hgs⟩)
  exact hfold [] .nil

/-! ## Copies -/

/-- A set derives a rule for desires of `t` from `r`: for the type of `r` itself, for a type
strictly between the target and that type, or for a type above it. -/
def RuleSet.Derives (c : Catalog) (r : Rule) (t : TypeKey) : RuleSet → Prop
  | explicit => t = r.dependType
  | intermediate => t ≠ r.target.key ∧ t ≠ r.dependType ∧
      ReflTransGen c.Extends r.target.key t ∧ ReflTransGen c.Extends t r.dependType
  | super => t ≠ r.dependType ∧ ReflTransGen c.Extends r.dependType t

theorem RuleSet.mem_typesOf_iff : t ∈ set.typesOf c r ↔ set.Derives c r t := by
  cases set with
  | explicit => exact List.mem_singleton
  | intermediate => exact Catalog.mem_typesBetween_iff
  | super => exact Catalog.mem_supertypes_iff

theorem RuleSet.nodup_typesOf (c : Catalog) (r : Rule) (set : RuleSet) :
    (set.typesOf c r).Nodup := by
  cases set with
  | explicit => exact List.nodup_singleton _
  | intermediate => exact (Catalog.nodup_supertypes c _).sublist List.filter_sublist
  | super => exact Catalog.nodup_supertypes c _

def BindingFunction.held : BindingFunction → List ScopedRule
  | .rules gs => ungrouped gs
  | _ => []

theorem held_ofSet (set : RuleSet) (c : Catalog) (given : List ScopedRule) :
    (BindingFunction.ofSet set c given).held.Perm (set.rules c given) :=
  ungrouped_groupRules (set.rules c given)

/-- The function over a set holds one copy of every rule given for each type that the set derives a
rule for, under the pattern of that rule and like it in all but the type, and it holds nothing else.
What is held under one pattern is in one group. If the rules given were built, what a rule held
binds to can stand in for the type it serves. -/
theorem held_exact (hgiven : ∀ a ∈ given, a.Built c) (set : RuleSet) :
    (∃ types : Rule → List TypeKey,
      (∀ r, (types r).Nodup ∧ ∀ t, t ∈ types r ↔ set.Derives c r t) ∧
      (BindingFunction.ofSet set c given).held.Perm (given.flatMap fun a =>
        (types a.rule).map fun t =>
          ⟨a.pattern, ⟨t, a.rule.matcher, a.rule.target, a.rule.policy, a.rule.flags⟩⟩)) ∧
    ((set.groups c given).map (·.pattern)).Nodup ∧
    ∀ a ∈ (BindingFunction.ofSet set c given).held,
      c.isAssignable a.rule.target.key a.rule.dependType = true := by
  refine ⟨⟨fun r => set.typesOf c r, fun r => ⟨set.nodup_typesOf c r, fun _ => set.mem_typesOf_iff⟩,
    held_ofSet set c given⟩, nodup_patterns_groupRules _, fun a ha => ?_⟩
  obtain ⟨g, hg, ha⟩ := List.mem_flatMap.mp ((held_ofSet set c given).mem_iff.mp ha)
  obtain ⟨t, ht, rfl⟩ := List.mem_map.mp ha
  exact (hgiven g hg).isAssignable_of_mem ht

/-- A rule over a diamond whose top is above itself: what lies on the way round is between the ends
of the rule as well as above it. -/
theorem held_exact_ring :
    let spec (name : String) (above : List String) : TypeSpec :=
      { key := .named name, instantiable := true, supertypes := above.map .named }
    let c := Catalog.freeze [spec "Dog" ["Pet", "Hunter"], spec "Pet" ["Animal"],
      spec "Hunter" ["Animal"], spec "Animal" ["Being"], spec "Being" ["Animal"]] []
    let a : ScopedRule :=
      ⟨.any, .named "Animal", .default, .type (.named "Dog"), .memoize, { fixed := true }⟩
    (∀ x ∈ [a], x.Built c) ∧
      (BindingFunction.ofSet .intermediate c [a]).held.map (·.rule.dependType) =
        [.named "Pet", .named "Hunter", .named "Being"] ∧
      (BindingFunction.ofSet .super c [a]).held.map (·.rule.dependType) = [.named "Being"] ∧
      ∀ set, ∀ x ∈ (BindingFunction.ofSet set c [a]).held,
        c.isAssignable x.rule.target.key x.rule.dependType = true := by
  intro spec c a
  have hgiven : ∀ x ∈ [a], x.Built c := by
    intro x hx
    rw [List.mem_singleton.mp hx]
    exact ⟨((RuleDraft.bind (.named "Animal")).toType (.named "Dog")).withPolicy .memoize |>.fixed,
      by rfl⟩
  exact ⟨hgiven, by decide, by decide, fun set => (held_exact hgiven set).2.2⟩

end Wiring
