import Wiring.Proofs.Firing
import Wiring.Proofs.Solver.Offers
import Mathlib.Data.List.Forall2

/-!
# Refused offers

Rounds go on until no function makes an acceptable offer. A rule whose offer goes back to an earlier
desire is refused, and remembered as if it had been applied. So rules that come after it in the same
function get no turn in the last round, and the function offers one of them when it is asked again.
-/

namespace Wiring

variable {c : Catalog} {turn : Nat} {context : Context} {chain : DesireChain}
  {given : List ScopedRule} {d : Desire} {os : List Offer} {r : Rounds} {b b' : Binder}

/-! ## Asking in vain -/

/-- What the function offers for the chain, if anything, goes back to an earlier desire. -/
def Binder.Repeats (c : Catalog) (turn : Nat) (context : Context) (chain : DesireChain)
    (b : Binder) : Prop :=
  ∀ o, b.offer c turn context chain = .ok (some o) → chain.earlier.contains o.desire = true

inductive Binder.Vain (c : Catalog) (turn : Nat) (context : Context) (chain : DesireChain) :
    Binder → Binder → Prop
  | silent {b : Binder} : b.offer c turn context chain = .ok none → Vain c turn context chain b b
  | refused {b : Binder} {o : Offer} : b.offer c turn context chain = .ok (some o) →
      chain.earlier.contains o.desire = true → Vain c turn context chain b (b.remember o)

theorem Binder.Vain.function (h : Vain c turn context chain b b') : b'.function = b.function := by
  cases h <;> rfl

theorem vain_of_askBinders {bs : List Binder}
    (h : (askBinders c turn context chain bs).offer = .ok none) :
    List.Forall₂ (Binder.Vain c turn context chain) bs
      (askBinders c turn context chain bs).binders := by
  induction bs with
  | nil => exact .nil
  | cons b bs ih =>
    rw [askBinders] at h ⊢
    split at h
    · cases h
    · rename_i hnone
      exact .cons (.silent hnone) (ih h)
    · rename_i o hoffer
      split at h
      · rename_i hold
        rw [if_pos hold]
        exact .cons (.refused hoffer hold) (ih h)
      · cases h

theorem Rounds.Takes.functions {functions : List BindingFunction}
    (h : Takes c turn context (start functions d) os r) :
    r.binders.map (·.function) = functions := by
  induction h with
  | nil =>
    show (functions.map Binder.ofFunction).map (·.function) = functions
    rw [List.map_map]
    exact List.map_id _
  | round _ _ _ ih =>
    show (askBinders _ _ _ _ _).binders.map (·.function) = functions
    rw [functions_askBinders, ih]

/-! ## Rules behind a refused one -/

namespace Question

variable {q : Question} {bad : Rule} {k : Candidate}

def Returns (q : Question) (r : Rule) : Prop :=
  q.chain.earlier.contains (q.offerOf r).desire = true

def next (q : Question) (r : Rule) : Question := { q with applied := q.applied ++ [r] }

/-- The best rule goes back to an earlier desire, and the best of the others does not. -/
def Hides (q : Question) : Prop :=
  ∃ bad good, q.answer = .ok (some (q.offerOf bad)) ∧ q.Returns bad ∧
    (q.next bad).answer = .ok (some (q.offerOf good)) ∧ ¬ q.Returns good

theorem exists_of_answer {o : Offer} (h : q.answer = .ok (some o)) :
    ∃ r, o = q.offerOf r ∧ q.Leads r ∧ ∀ r', q.Leads r' → (r' == r) = true := by
  rcases q.answer_cases with ⟨h', -⟩ | ⟨r, h', hr, honly⟩ | ⟨rules, h', -⟩
  · rw [h] at h'
    cases h'
  · rw [h] at h'
    cases h'
    exact ⟨r, rfl, hr, honly⟩
  · rw [h] at h'
    cases h'

theorem Stands.behind (hbad : q.Leads bad) (honly : ∀ r, q.Leads r → (r == bad) = true)
    (hk : q.Stands k) :
    ∃ m, q.Stands ⟨m, bad⟩ ∧ ((k.rule == bad) = true ∨ (⟨m, bad⟩ : Candidate).order k = .lt) := by
  obtain ⟨m, hm, hbest⟩ := hbad
  refine ⟨m, hm, ?_⟩
  by_cases hlead : q.Leads k.rule
  · exact .inl (honly _ hlead)
  · refine .inr ?_
    by_contra hnot
    have hle : (k.order ⟨m, bad⟩).isLE := isLE_of_ne_lt hnot
    -- what came before `k` would come before the one in the lead
    exact hlead ⟨k.matched, hk, fun l hl hlk =>
      hbest l hl (Std.TransCmp.lt_of_lt_of_isLE hlk hle)⟩

end Question

/-! ## Asking again -/

/-- What can be said of a function that was asked in vain, before and after that. -/
structure Binder.Exhausted (c : Catalog) (given : List ScopedRule) (turn : Nat) (context : Context)
    (chain : DesireChain) (b b' : Binder) : Prop where
  vain : Vain c turn context chain b b'
  /-- Only over a set of rules does it have something new to offer when it is asked again, and just
  if the rule it offered stood before one that does not go back. -/
  again : ¬ b'.Repeats c turn context chain ↔ ∃ set : RuleSet, b.function = .ofSet set c given ∧
    (⟨set.rules c given, c, context, chain, b.applied⟩ : Question).Hides
  /-- A rule that took part and does not go back to an earlier desire was passed over for one that
  is equal to it or came before it, and does. -/
  passed : ∀ set : RuleSet, b.function = .ofSet set c given →
    let q : Question := ⟨set.rules c given, c, context, chain, b.applied⟩
    ∀ k, q.Stands k → ¬ q.Returns k.rule → ∃ m bad, q.Stands ⟨m, bad⟩ ∧
      b.offer c turn context chain = .ok (some (q.offerOf bad)) ∧ q.Returns bad ∧
      ((k.rule == bad) = true ∨ (⟨m, bad⟩ : Candidate).order k = .lt)

namespace Binder

variable {set : RuleSet}

theorem offer_ofSet (h : b.function = .ofSet set c given) :
    b.offer c turn context chain =
      (⟨set.rules c given, c, context, chain, b.applied⟩ : Question).answer := by
  unfold offer
  rw [h]
  rfl

theorem answer_ofSet {a : Attempt (Option Offer)} (hset : b.function = .ofSet set c given)
    (h : b.offer c turn context chain = a) :
    (⟨set.rules c given, c, context, chain, b.applied⟩ : Question).answer = a :=
  h ▸ (offer_ofSet hset).symm

theorem offer_remember {o : Offer} {bad : Rule} (hset : b.function = .ofSet set c given)
    (ho : o.rule = some bad) :
    (b.remember o).offer c turn context chain =
      (Question.next ⟨set.rules c given, c, context, chain, b.applied⟩ bad).answer := by
  have hfunction : (b.remember o).function = .ofSet set c given := hset
  rw [offer_ofSet hfunction]
  unfold remember
  rw [ho]
  rfl

theorem not_repeats_iff : ¬ b.Repeats c turn context chain ↔
    ∃ o, b.offer c turn context chain = .ok (some o) ∧
      ¬ chain.earlier.contains o.desire = true := by
  unfold Repeats
  push Not
  rfl

theorem Vain.repeats_of_no_rule (h : Vain c turn context chain b b')
    (hrule : ∀ o, b.offer c turn context chain = .ok (some o) → o.rule = none) :
    b'.Repeats c turn context chain := by
  cases h with
  | silent h =>
    intro o ho
    rw [h] at ho
    cases ho
  | @refused o h hold =>
    have hsame : b.remember o = b := by
      unfold remember
      rw [hrule _ h, Option.toList_none, List.append_nil]
    rw [hsame]
    intro o ho
    rw [h] at ho
    cases ho
    exact hold

theorem Vain.not_repeats_iff_of_set (h : Vain c turn context chain b b')
    (hset : b.function = .ofSet set c given) :
    ¬ b'.Repeats c turn context chain ↔
      (⟨set.rules c given, c, context, chain, b.applied⟩ : Question).Hides := by
  rw [not_repeats_iff]
  cases h with
  | silent h =>
    constructor
    · rintro ⟨o, ho, -⟩
      cases h.symm.trans ho
    · rintro ⟨bad, -, hbad, -⟩
      cases (answer_ofSet hset h).symm.trans hbad
  | @refused o h hold =>
    obtain ⟨bad, rfl, -⟩ := Question.exists_of_answer (answer_ofSet hset h)
    rw [offer_remember hset rfl]
    constructor
    · rintro ⟨o, ho, hnew⟩
      obtain ⟨good, rfl, -⟩ := Question.exists_of_answer ho
      exact ⟨bad, good, answer_ofSet hset h, hold, ho, hnew⟩
    · rintro ⟨bad', good, hbad', -, hgood, hnew⟩
      have hsame : Question.offerOf _ bad = Question.offerOf _ bad' :=
        Option.some.inj (Except.ok.inj ((answer_ofSet hset h).symm.trans hbad'))
      obtain rfl : bad = bad' := Option.some.inj (congrArg Offer.rule hsame)
      exact ⟨_, hgood, hnew⟩

theorem Vain.exhausted (h : Vain c turn context chain b b')
    (hf : b.function ∈ BindingFunction.standard c given) :
    Exhausted c given turn context chain b b' where
  vain := h
  again := by
    refine ⟨fun hnot => ?_, fun ⟨set, hset, hhides⟩ => (h.not_repeats_iff_of_set hset).2 hhides⟩
    have hset : ∀ f ∈ BindingFunction.standard c given, b.function = f →
        ∃ set : RuleSet, b.function = .ofSet set c given := by
      refine BindingFunction.forall_standard (fun set hset => ⟨set, hset⟩) ?_ ?_
      · intro hproviders
        refine absurd (h.repeats_of_no_rule fun o ho => ?_) hnot
        unfold offer at ho
        rw [hproviders] at ho
        exact rule_of_offerProvider (Except.ok.inj ho)
      · intro hdefaults
        refine absurd (h.repeats_of_no_rule fun o ho => ?_) hnot
        unfold offer at ho
        rw [hdefaults] at ho
        exact rule_of_offerDefault (Except.ok.inj ho)
    obtain ⟨set, hset⟩ := hset _ hf rfl
    exact ⟨set, hset, (h.not_repeats_iff_of_set hset).1 hnot⟩
  passed := by
    intro set hset q k hk hnew
    cases h with
    | silent h =>
      rcases q.answer_cases with ⟨-, hnone⟩ | ⟨_, h', -⟩ | ⟨_, h', -⟩
      · exact absurd hk (hnone k)
      · cases (answer_ofSet hset h).symm.trans h'
      · cases (answer_ofSet hset h).symm.trans h'
    | refused h hold =>
      obtain ⟨bad, rfl, hbad, honly⟩ := Question.exists_of_answer (answer_ofSet hset h)
      obtain ⟨m, hm, hbehind⟩ := hk.behind hbad honly
      exact ⟨m, bad, hm, h, hold, hbehind⟩

end Binder

namespace Rounds

/-- If the rounds of the standard functions end because no offer was acceptable, then asking again
brings only desires the chain had before, but for one case: a function over a set of rules offered
a rule that goes back, and the next best of its rules does not. -/
theorem exhausted_of_stuck
    (h : Takes c turn context (start (BindingFunction.standard c given) d) os r)
    (hstuck : r.Stuck c turn context) :
    (settle c (BindingFunction.standard c given) turn context d).outcome = r.resolution context ∧
      r.binders.map (·.function) = BindingFunction.standard c given ∧
      List.Forall₂ (Binder.Exhausted c given turn context r.chain) r.binders
        (askBinders c turn context r.chain r.binders).binders := by
  have hfunctions := h.functions
  refine ⟨h.settle_of_stuck (BindingFunction.isScripted_standard c given) hstuck, hfunctions, ?_⟩
  have hmem : ∀ b ∈ r.binders, b.function ∈ BindingFunction.standard c given :=
    fun b hb => hfunctions ▸ List.mem_map_of_mem hb
  have hvain := (List.forall₂_and_left _ _).2 ⟨hmem, vain_of_askBinders hstuck.nothing⟩
  exact hvain.imp fun _ _ ⟨hf, h⟩ => h.exhausted hf

theorem eq_ok_of_join {α : Type} {a : Attempt (Option α)} {x : α} (h : a.toOption.join = some x) :
    a = .ok (some x) :=
  eq_ok_of_toOption (Option.join_eq_some_iff.1 h)

/-- Two rules that take a class to itself, and one that would take it to a subclass, which comes
after them. -/
theorem exhausted_of_stuck_hidden :
    let base : TypeKey := .named "Base"
    let sub : TypeKey := .named "Sub"
    let c : Catalog := .freeze [⟨base, true, [], [], {}, .noPreference, none, none⟩,
      ⟨sub, true, [base], [], {}, .noPreference, none, none⟩] []
    let given : List ScopedRule := [⟨.any, base, .absent, .type base, .noPreference, {}⟩,
      ⟨.any, base, .any, .type base, .noPreference, {}⟩,
      ⟨.any, base, .default, .type sub, .noPreference, {}⟩]
    let d := c.rootDesire base none
    let asked (r : Rounds) := askBinders c 0 .initial r.chain r.binders
    ∃ os r, Takes c 0 .initial (start (BindingFunction.standard c given) d) os r ∧
      r.Stuck c 0 .initial ∧
      List.Forall₂ (Binder.Exhausted c given 0 .initial r.chain) r.binders (asked r).binders ∧
      ∃ b ∈ (asked r).binders, ¬ b.Repeats c 0 .initial r.chain := by
  intro base sub c given d asked
  let first := start (BindingFunction.standard c given) d
  have hrun : ∃ o, (asked first).offer.toOption.join = some o ∧
      let r := first.accept o (asked first).binders
      (!first.isOver && !r.isOver && (asked r).offer.toOption.any (·.isNone) &&
        (asked r).binders.any fun b => (b.offer c 0 .initial r.chain).toOption.join.any fun o =>
          !r.chain.earlier.contains o.desire) = true := by
    rw [← Option.any_eq_true]
    subst first asked d given c base sub
    decide +kernel
  obtain ⟨o, ho, hrun⟩ := hrun
  simp only [Bool.and_eq_true, Bool.not_eq_true', List.any_eq_true, Option.any_eq_true] at hrun
  obtain ⟨⟨⟨hfirst, hover⟩, n, hnothing, hn⟩, b, hb, o', hb', hnew⟩ := hrun
  have htakes : Takes c 0 .initial first [o] (first.accept o (asked first).binders) :=
    .round .nil hfirst (eq_ok_of_join ho)
  obtain rfl := Option.isNone_iff_eq_none.1 hn
  have hstuck : (first.accept o (asked first).binders).Stuck c 0 .initial :=
    ⟨hover, eq_ok_of_toOption hnothing⟩
  refine ⟨_, _, htakes, hstuck, (exhausted_of_stuck htakes hstuck).2.2, b, hb, fun hrepeats => ?_⟩
  rw [hrepeats o' (eq_ok_of_join hb')] at hnew
  cases hnew

end Rounds

end Wiring
