import Wiring.Proofs.Reordering

/-!
# Strict qualifiers

A qualifier that is not lenient keeps rules for unqualified desires away from its point. Whatever
the other rules, the providers and the defaults make of a desire there, the qualifier stays in
sight, so no round comes to a rule whose matcher is the default one or asks for no qualifier.
-/

namespace Wiring

/-- The matcher is for desires without a qualifier: it is the default one, or it asks for none. -/
def QualifierMatcher.isUnqualified : QualifierMatcher → Bool
  | default | absent => true
  | exactly _ | ofKind _ | any => false

def qualifiedRules (given : List ScopedRule) : List ScopedRule :=
  given.filter fun a => !a.rule.matcher.isUnqualified

variable {c : Catalog} {given given' : List ScopedRule} {q : Qualifier} {d : Desire}

theorem QualifierMatcher.isUnqualified_of_accepts {m : QualifierMatcher} (hq : q.lenient = false)
    (h : m.accepts (some q) = true) : m.isUnqualified = false := by
  cases m with
  | default =>
    rw [accepts, Option.all_some, hq] at h
    cases h
  | absent => cases h
  | exactly | ofKind | any => rfl

theorem accepting_qualifiedRules (hq : q.lenient = false) (given : List ScopedRule) :
    accepting (some q) (qualifiedRules given) = accepting (some q) given := by
  unfold accepting qualifiedRules
  rw [List.filter_filter]
  refine List.filter_congr fun a _ => ?_
  cases h : a.rule.matcher.accepts (some q) with
  | false => rfl
  | true => rw [QualifierMatcher.isUnqualified_of_accepts hq h, Bool.not_false, Bool.and_self]

/-- What a desire with a strict qualifier settles on is the same whatever rules there are for
desires without one, if of the rules that accept the qualifier those with equal targets have the
same target. -/
theorem settle_of_strict (hqualifier : d.qualifier = some q) (hstrict : q.lenient = false)
    (hperm : (qualifiedRules given).Perm (qualifiedRules given'))
    (hgiven : Distinguished (accepting (some q) given)) (c : Catalog) (turn : Nat)
    (context : Context) :
    SettledAlike (settle c (BindingFunction.standard c given) turn context d)
      (settle c (BindingFunction.standard c given') turn context d) := by
  have hpoint : d.point.qualifier = some q := hqualifier
  have haccepting : (accepting (some q) given).Perm (accepting (some q) given') := by
    rw [← accepting_qualifiedRules hstrict given, ← accepting_qualifiedRules hstrict given']
    exact hperm.filter _
  refine settle_reordered (BindingFunction.isScripted_standard c given)
    (sameOffers_standard_of_accepting ?_ ?_ c)
  · rwa [hpoint]
  · rwa [hpoint]

/-- A rule for any qualifier binds the desire, though a rule for desires without one comes first and
has the better match. -/
theorem settle_of_strict_named :
    let c : Catalog := .freeze [⟨.named "I", false, [], [], {}, .noPreference, none, none⟩,
      ⟨.named "A", true, [.named "I"], [], {}, .noPreference, none, none⟩,
      ⟨.named "B", true, [.named "I"], [], {}, .noPreference, none, none⟩] []
    let a : ScopedRule := ⟨.any, .named "I", .any, .type (.named "A"), .noPreference, {}⟩
    let b : ScopedRule := ⟨ContextPattern.any.within (.ofType (.named "H")), .named "I", .default,
      .type (.named "B"), .noPreference, {}⟩
    let q := Qualifier.named "main"
    let context := Context.initial.extend (.construct (.named "H")) none
    let d := c.rootDesire (.named "I") (some q)
    d.qualifier = some q ∧ q.lenient = false ∧
      (qualifiedRules [a]).Perm (qualifiedRules [b, a]) ∧
      Distinguished (accepting (some q) [a]) ∧
      ((settle c (BindingFunction.standard c [b, a]) 0 context d).outcome.toOption.any
        (·.satisfaction == .construct (.named "A"))) = true ∧
      SettledAlike (settle c (BindingFunction.standard c [a]) 0 context d)
        (settle c (BindingFunction.standard c [b, a]) 0 context d) := by
  intro c a b q context d
  have htyped : ∀ x ∈ [a], x.rule.target.Typed := List.forall_mem_singleton.mpr trivial
  have hgiven : Distinguished (accepting (some q) [a]) :=
    (distinguished_of_typed htyped).accepting _
  have hperm : (qualifiedRules [a]).Perm (qualifiedRules [b, a]) := .refl [a]
  have hbound : ((settle c (BindingFunction.standard c [b, a]) 0 context d).outcome.toOption.any
      (·.satisfaction == .construct (.named "A"))) = true := by
    subst d context q b a c
    decide +kernel
  exact ⟨rfl, rfl, hperm, hgiven, hbound, settle_of_strict rfl rfl hperm hgiven c 0 context⟩

end Wiring
