import Wiring.Context.Scratch
import Wiring.Proofs.Selection

/-!
# Rules are offered once

A binding function remembers the rules behind its offers, for every context and every chain. Asked
again in the same place it passes over them, so there no rule makes two offers.
-/

namespace Wiring

variable {gs : List RuleGroup} {r : Rule} {c : Catalog} {context : Context} {d : Desire}
  {applied : List Rule}

/-! ## Memory -/

namespace Scratch

variable {s : Scratch} {place key : ScratchKey} {v : Slot} {rules : List Rule}

@[simp] theorem get?_set_self : (s.set place v).get? place = some v := by
  simp [set, get?]

theorem get?_set_of_ne (h : key ≠ place) : (s.set place v).get? key = s.get? key := by
  have hbeq : (key == place) = false := by simpa using h
  simp [set, get?, List.lookup_cons, hbeq]

@[simp] theorem applied_set_rules : (s.set place (.rules rules)).applied place = rules := by
  simp [applied]

theorem applied_set_of_ne (h : key ≠ place) : (s.set place v).applied key = s.applied key := by
  simp [applied, get?_set_of_ne h]

end Scratch

structure Ask where
  number : Nat
  turn : Nat
  context : NumberedContext
  chain : KeyedChain

/-- Where the function remembers what it offers. -/
def Ask.place (a : Ask) : ScratchKey := .ofChain a.context (.function a.number) a.chain

namespace Scratch

variable {functions : Nat → BindingFunction} {c : Catalog} {s : Scratch}

def ruleOf : Attempt (Option Offer) → Option Rule
  | .ok (some o) => o.rule
  | _ => none

/-- The rules behind the answers to some questions, one after the other, with the places where they
are remembered. -/
def firings (functions : Nat → BindingFunction) (c : Catalog) :
    Scratch → List Ask → List (ScratchKey × Rule)
  | _, [] => []
  | s, a :: asks =>
    let asked := s.ask a.number (functions a.number) c a.turn a.context a.chain
    (ruleOf asked.1).toList.map (a.place, ·) ++ firings functions c asked.2 asks

end Scratch

/-! ### Functions without rules -/

theorem Defaults.rule_of_offer {k : Defaults} {o : Offer} (h : k.offer c d = some o) :
    o.rule = none := by
  unfold Defaults.offer at h
  split at h <;> cases h <;> rfl

theorem rule_of_offerDefault {chain : DesireChain} {o : Offer} (h : offerDefault c chain = some o) :
    o.rule = none := by
  unfold offerDefault offerQualifierDefault offerTypeDefault at h
  rcases Option.or_eq_some_iff.mp h with h | ⟨-, h⟩
  · split at h
    · obtain ⟨q, -, h⟩ := Option.bind_eq_some_iff.mp h
      obtain ⟨k, -, h⟩ := Option.bind_eq_some_iff.mp h
      exact k.rule_of_offer h
    · cases h
  · split at h
    · obtain ⟨k, -, h⟩ := Option.bind_eq_some_iff.mp h
      exact k.rule_of_offer h
    · cases h

theorem rule_of_offerProvider {chain : DesireChain} {o : Offer}
    (h : offerProvider c chain = some o) : o.rule = none := by
  unfold offerProvider at h
  dsimp only at h
  split at h
  · cases h
  · obtain ⟨t, -, rfl⟩ := Option.map_eq_some_iff.mp h
    rfl

theorem CaseAnswer.rule_of_give {a : CaseAnswer} {turn : Nat} {chain : DesireChain} {o : Offer}
    (h : a.give c turn chain = .ok (some o)) : o.rule = none := by
  cases a with
  | fail message => cases h
  | offer target policy flags =>
    cases h
    rfl

theorem fresh_of_offerByRules {chain : DesireChain} {o : Offer}
    (h : offerByRules gs c context chain applied = .ok (some o)) (hr : o.rule = some r) :
    applied.contains r = false := by
  unfold offerByRules at h
  dsimp only at h
  split at h
  · cases h
  · rename_i r' hone
    cases h
    cases hr
    have hmem := mem_distinctRules (hone ▸ List.mem_singleton_self r)
    obtain ⟨k, hk, rfl⟩ := List.mem_map.mp hmem
    obtain ⟨-, -, -, -, hfresh⟩ := mem_candidates.mp (Candidate.mem_leading.mp hk).1
    exact hfresh
  · cases h

theorem BindingFunction.fresh_of_offer {f : BindingFunction} {turn : Nat} {chain : DesireChain}
    {o : Offer} (h : f.offer c turn context chain applied = .ok (some o)) (hr : o.rule = some r) :
    applied.contains r = false := by
  cases f with
  | rules gs => exact fresh_of_offerByRules h hr
  | providers =>
    rw [rule_of_offerProvider (Except.ok.inj h)] at hr
    cases hr
  | defaults =>
    rw [rule_of_offerDefault (Except.ok.inj h)] at hr
    cases hr
  | scripted cases =>
    unfold offer offerByCases at h
    dsimp only at h
    split at h
    · cases h
    · rw [CaseAnswer.rule_of_give h] at hr
      cases hr
  | chosen answers choose =>
    unfold offer offerByChoice at h
    dsimp only at h
    split at h
    · cases h
    · rw [CaseAnswer.rule_of_give h] at hr
      cases hr

namespace Scratch

variable {functions : Nat → BindingFunction} {f : BindingFunction} {s : Scratch} {a : Ask}
  {asks : List Ask}

theorem ask_of_offer {number turn : Nat} {context : NumberedContext} {chain : KeyedChain} {o : Offer}
    (h : f.offer c turn context.context chain.chain
      (s.applied (.ofChain context (.function number) chain)) = .ok (some o)) :
    s.ask number f c turn context chain = (.ok (some o),
      s.set (.ofChain context (.function number) chain)
        (.rules (s.applied (.ofChain context (.function number) chain) ++ o.rule.toList))) := by
  unfold ask
  dsimp only
  rw [h]

theorem ask_of_no_offer {number turn : Nat} {context : NumberedContext} {chain : KeyedChain}
    (h : ∀ o, f.offer c turn context.context chain.chain
      (s.applied (.ofChain context (.function number) chain)) ≠ .ok (some o)) :
    s.ask number f c turn context chain = (f.offer c turn context.context chain.chain
      (s.applied (.ofChain context (.function number) chain)), s) := by
  unfold ask
  dsimp only
  split
  · rename_i o ho
    exact absurd ho (h o)
  · rfl

theorem applied_ask (s : Scratch) (f : BindingFunction) (c : Catalog) (a : Ask) :
    let asked := s.ask a.number f c a.turn a.context a.chain
    (∀ key, asked.2.applied key =
      s.applied key ++ if key = a.place then (ruleOf asked.1).toList else []) ∧
    ∀ r, ruleOf asked.1 = some r → (s.applied a.place).contains r = false := by
  dsimp only
  by_cases hoffer : ∃ o, f.offer c a.turn a.context.context a.chain.chain (s.applied a.place) =
      .ok (some o)
  · obtain ⟨o, ho⟩ := hoffer
    rw [ask_of_offer ho]
    refine ⟨fun key => ?_, fun r hr => f.fresh_of_offer ho hr⟩
    by_cases hkey : key = a.place
    · subst hkey
      rw [if_pos rfl]
      exact applied_set_rules
    · rw [if_neg hkey, List.append_nil]
      exact applied_set_of_ne hkey
  · have hnone := not_exists.mp hoffer
    rw [ask_of_no_offer hnone]
    have hrule : ruleOf (f.offer c a.turn a.context.context a.chain.chain (s.applied a.place)) =
        none := by
      unfold ruleOf
      split
      · rename_i o ho
        exact absurd ho (hnone o)
      · rfl
    refine ⟨fun key => ?_, fun r hr => absurd (hrule.symm.trans hr) nofun⟩
    show s.applied key = s.applied key ++ if key = a.place then (ruleOf (f.offer c a.turn
      a.context.context a.chain.chain (s.applied a.place))).toList else []
    rw [hrule]
    simp

/-- No rule is behind two answers in one place, nor behind one where it was applied before. -/
theorem firings_distinct (functions : Nat → BindingFunction) (c : Catalog) (s : Scratch)
    (asks : List Ask) :
    (s.firings functions c asks).Pairwise (fun x y => x.1 = y.1 → (x.2 == y.2) = false) ∧
      ∀ x ∈ s.firings functions c asks, (s.applied x.1).contains x.2 = false := by
  induction asks generalizing s with
  | nil => exact ⟨.nil, List.forall_mem_nil _⟩
  | cons a asks ih =>
    obtain ⟨happlied, hnew⟩ := s.applied_ask (functions a.number) c a
    obtain ⟨hdistinct, hfresh⟩ :=
      ih (s.ask a.number (functions a.number) c a.turn a.context a.chain).2
    -- what is fresh after the question was fresh before it, and is not the rule behind its answer
    have hlater : ∀ x ∈ firings functions c
        (s.ask a.number (functions a.number) c a.turn a.context a.chain).2 asks,
        (s.applied x.1).contains x.2 = false ∧ ∀ r,
          ruleOf (s.ask a.number (functions a.number) c a.turn a.context a.chain).1 = some r →
          a.place = x.1 → (r == x.2) = false := by
      intro x hx
      have hx := hfresh x hx
      rw [happlied, List.contains_append, Bool.or_eq_false_iff] at hx
      refine ⟨hx.1, fun r hr hplace => ?_⟩
      rw [if_pos hplace.symm, hr] at hx
      simpa [BEq.comm] using hx.2
    rw [firings]
    refine ⟨List.pairwise_append.mpr ⟨?_, hdistinct, fun x hx y hy hplace => ?_⟩, fun x hx => ?_⟩
    · cases ruleOf (s.ask a.number (functions a.number) c a.turn a.context a.chain).1 <;> simp
    · obtain ⟨r, hr, rfl⟩ := List.mem_map.mp hx
      exact (hlater y hy).2 r (Option.mem_toList.mp hr) hplace
    · rcases List.mem_append.mp hx with hx | hx
      · obtain ⟨r, hr, rfl⟩ := List.mem_map.mp hx
        exact hnew r (Option.mem_toList.mp hr)
      · exact (hlater x hx).1

/-- Rules answer with the best of those that take part and were not applied before, or with all the
best where they differ. The memory gains the rule of an offer and nothing else, so in one place no
rule ever makes two offers. -/
theorem ask_rules (given : List ScopedRule) (c : Catalog) (s : Scratch) (number turn : Nat)
    (context : NumberedContext) (chain : KeyedChain) (functions : Nat → BindingFunction)
    (asks : List Ask) :
    let place := ScratchKey.ofChain context (.function number) chain
    let q : Question := ⟨given, c, context.context, chain.chain, s.applied place⟩
    let asked := s.ask number (.rules (groupRules given)) c turn context chain
    (asked.1 = .ok none ↔
      ∀ g ∈ given, (g.pattern.match? c context.context.frames).isSome = true →
        g.rule.applies chain.chain.current = true → (s.applied place).contains g.rule = true) ∧
    ((∃ rules, asked.1 = .error (.multipleBindings chain.chain context.context rules)) ↔
      ∃ a b, q.Leads a ∧ q.Leads b ∧ (a == b) = false) ∧
    (∀ rules, asked.1 = .error (.multipleBindings chain.chain context.context rules) →
      q.Tied rules) ∧
    ((∀ o, asked.1 ≠ .ok (some o)) → asked.2 = s) ∧
    ((∃ k, q.Stands k) → (∀ a b, q.Leads a → q.Leads b → (a == b) = true) →
      ∃ r, q.Leads r ∧
        asked.1 = .ok (some ⟨r.apply c chain.chain.current, r.policy, r.flags, some r⟩) ∧
        asked.2.applied place = s.applied place ++ [r] ∧
        ∀ key, key ≠ place → asked.2.get? key = s.get? key) ∧
    (s.firings functions c asks).Pairwise (fun x y => x.1 = y.1 → (x.2 == y.2) = false) ∧
    ∀ x ∈ s.firings functions c asks, (s.applied x.1).contains x.2 = false := by
  intro place q asked
  have hanswer : (BindingFunction.rules (groupRules given)).offer c turn context.context chain.chain
      (s.applied place) = q.answer := rfl
  have hfirings := s.firings_distinct functions c asks
  by_cases hoffer : ∃ o, q.answer = .ok (some o)
  · obtain ⟨o, ho⟩ := hoffer
    have hasked : asked = (q.answer, s.set place (.rules (s.applied place ++ o.rule.toList))) :=
      (ask_of_offer (hanswer.trans ho)).trans (by rw [ho])
    rw [hasked]
    refine ⟨Question.answer_eq_none_iff, Question.answer_eq_error_iff, fun rules h => ?_,
      fun h => absurd ho (h o), fun ⟨k, hk⟩ halike => ?_, hfirings⟩
    · rw [ho] at h
      cases h
    · obtain ⟨r, h, hr⟩ := Question.answer_of_equal hk halike
      rw [ho] at h
      cases h
      exact ⟨r, hr, ho, applied_set_rules, fun key hkey => get?_set_of_ne hkey⟩
  · have hasked : asked = (q.answer, s) :=
      ask_of_no_offer fun o ho => hoffer ⟨o, hanswer.symm.trans ho⟩
    rw [hasked]
    refine ⟨Question.answer_eq_none_iff, Question.answer_eq_error_iff, fun rules h => ?_,
      fun _ => rfl, fun ⟨k, hk⟩ halike => ?_, hfirings⟩
    · obtain ⟨a, b, ha, hb, hab⟩ := Question.answer_eq_error_iff.mp ⟨rules, h⟩
      obtain ⟨rules', h', htied⟩ := Question.answer_of_distinct ha hb hab
      cases h.symm.trans h'
      exact htied
    · obtain ⟨r, h, -⟩ := Question.answer_of_equal hk halike
      exact absurd ⟨_, h⟩ hoffer

end Scratch

end Wiring
