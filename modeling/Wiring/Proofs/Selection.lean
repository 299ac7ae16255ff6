import Wiring.Proofs.Context.Order
import Wiring.Proofs.Solver.Narrowings
import Mathlib.Data.List.Induction

/-!
# The choice among rules

A rule takes part when its pattern matches and it applies to the current desire, unless it made an
offer before. However rules are grouped, the best of those that take part makes the offer, and if
the best ones differ, all of them are reported.
-/

namespace Wiring

/-! ## Equality of rules -/

def BindTarget.essence : BindTarget → BindTarget
  | .type t => .type t
  | .satisfaction s => .satisfaction s.essence

theorem BindTarget.beq_iff (a b : BindTarget) : (a == b) = true ↔ a.essence = b.essence := by
  show instBEqBindTarget.beq a b = true ↔ _
  cases a <;> cases b <;> simp [instBEqBindTarget.beq, essence, Satisfaction.beq_iff]

namespace Rule

theorem beq_iff (a b : Rule) : (a == b) = true ↔
    a.dependType = b.dependType ∧ a.matcher = b.matcher ∧ (a.target == b.target) = true ∧
      a.policy = b.policy ∧ a.flags = b.flags := by
  show instBEqRule.beq a b = true ↔ _
  simp [instBEqRule.beq]

instance : EquivBEq Rule :=
  equivBEq_of_iff (fun r => (r.dependType, r.matcher, r.target.essence, r.policy, r.flags))
    fun a b => by simp [beq_iff, BindTarget.beq_iff]

end Rule

/-! ## Groups -/

def Grouped (gs : List RuleGroup) (p : ContextPattern) (r : Rule) : Prop :=
  ∃ g ∈ gs, g.pattern = p ∧ r ∈ g.rules

variable {gs : List RuleGroup} {p : ContextPattern} {r : Rule} {given : List ScopedRule}
  {c : Catalog} {context : Context} {d : Desire} {applied : List Rule}

theorem grouped_addToGroups {a : ScopedRule} :
    Grouped (addToGroups a gs) p r ↔ Grouped gs p r ∨ a = ⟨p, r⟩ := by
  obtain ⟨q, s⟩ := a
  induction gs with
  | nil =>
    unfold Grouped addToGroups
    simp [eq_comm]
  | cons g gs ih =>
    have hcons : ∀ k ks, Grouped (k :: ks) p r ↔ (k.pattern = p ∧ r ∈ k.rules) ∨ Grouped ks p r := by
      intro k ks
      unfold Grouped
      simp
    rw [addToGroups]
    split
    · rename_i hpattern
      rw [hcons, hcons]
      dsimp only at hpattern ⊢
      rw [List.mem_append, List.mem_singleton, hpattern, ScopedRule.mk.injEq, eq_comm (a := s)]
      tauto
    · rw [hcons, hcons, ih]
      tauto

theorem grouped_groupRules : Grouped (groupRules given) p r ↔ ⟨p, r⟩ ∈ given := by
  have hfold : ∀ (rules : List ScopedRule) (gs : List RuleGroup),
      Grouped (rules.foldl (fun groups a => addToGroups a groups) gs) p r ↔
        Grouped gs p r ∨ ⟨p, r⟩ ∈ rules := by
    intro rules
    induction rules with
    | nil => simp
    | cons a rules ih =>
      intro gs
      rw [List.foldl_cons, ih, grouped_addToGroups, List.mem_cons, or_assoc, eq_comm (a := a)]
  unfold groupRules
  rw [hfold]
  simp [Grouped]

theorem mem_candidates {k : Candidate} :
    k ∈ candidates gs c context d applied ↔
      ∃ p, Grouped gs p k.rule ∧ p.match? c context.frames = some k.matched ∧
        k.rule.applies d = true ∧ applied.contains k.rule = false := by
  obtain ⟨m, r⟩ := k
  unfold candidates Grouped
  rw [List.mem_flatMap]
  constructor
  · rintro ⟨g, hg, hk⟩
    split at hk
    · cases hk
    · rename_i m' hm
      obtain ⟨r', hr', heq⟩ := List.mem_map.mp hk
      cases heq
      obtain ⟨hr, happlies⟩ := List.mem_filter.mp hr'
      exact ⟨g.pattern, ⟨g, hg, rfl, hr⟩, hm, by simpa using happlies⟩
  · rintro ⟨_, ⟨g, hg, rfl, hr⟩, hm, happlies⟩
    refine ⟨g, hg, ?_⟩
    dsimp only at hm happlies
    rw [hm]
    exact List.mem_map.mpr ⟨r, List.mem_filter.mpr ⟨hr, by simpa using happlies⟩, rfl⟩

/-! ## The lead -/

namespace Candidate

theorem order_eq : order = compareLex (Ordering.byKey matched ContextMatch.order)
    (compareOn (·.rule.matcher.priority)) := rfl

instance : Std.TransCmp order := by
  rw [order_eq]
  infer_instance

variable {cs : List Candidate} {a b k : Candidate}

def unbeaten (cs : List Candidate) (k : Candidate) : Bool := cs.all fun b => !(b.order k).isLT

theorem unbeaten_iff : unbeaten cs k = true ↔ ∀ b ∈ cs, b.order k ≠ .lt := by
  unfold unbeaten
  rw [List.all_eq_true]
  refine forall₂_congr fun b _ => ?_
  cases b.order k <;> decide

theorem mem_leading : k ∈ leading cs ↔ k ∈ cs ∧ ∀ b ∈ cs, b.order k ≠ .lt :=
  List.mem_filter.trans (and_congr_right fun _ => unbeaten_iff)

theorem exists_leading (h : k ∈ cs) : ∃ b, b ∈ leading cs := by
  suffices ∃ b ∈ cs, ∀ k ∈ cs, k.order b ≠ .lt by
    obtain ⟨b, hb, hleads⟩ := this
    exact ⟨b, mem_leading.mpr ⟨hb, hleads⟩⟩
  induction cs generalizing k with
  | nil => cases h
  | cons a cs ih =>
    cases cs with
    | nil => exact ⟨a, List.mem_cons_self, by simp [Std.ReflCmp.compare_self]⟩
    | cons a' cs =>
      obtain ⟨b, hb, hleads⟩ := ih List.mem_cons_self
      by_cases hab : a.order b = .lt
      · refine ⟨a, List.mem_cons_self, List.forall_mem_cons.mpr ⟨?_, fun k hk hka => ?_⟩⟩
        · simp [Std.ReflCmp.compare_self]
        · exact hleads k hk (Std.TransCmp.lt_trans hka hab)
      · exact ⟨b, List.mem_cons_of_mem _ hb, List.forall_mem_cons.mpr ⟨hab, hleads⟩⟩

theorem order_eq_of_leading (ha : a ∈ leading cs) (hb : b ∈ leading cs) : a.order b = .eq := by
  have hab := (mem_leading.mp hb).2 a (mem_leading.mp ha).1
  have hba := (mem_leading.mp ha).2 b (mem_leading.mp hb).1
  exact Std.OrientedCmp.isLE_antisymm (isLE_of_ne_lt hba) (isLE_of_ne_lt hab)

theorem priority_eq_of_order_eq (h : a.order b = .eq) :
    a.rule.matcher.priority = b.rule.matcher.priority := by
  unfold order at h
  exact Nat.compare_eq_eq.mp (Ordering.then_eq_eq.mp h).2

end Candidate

theorem QualifierMatcher.eq_of_accepts {a b : QualifierMatcher} {q : Option Qualifier}
    (ha : a.accepts q = true) (hb : b.accepts q = true) (h : a.priority = b.priority) : a = b := by
  cases a <;> cases b <;> cases q <;> simp_all [accepts, priority]

/-! ## Rules that differ -/

theorem distinctRules_append_singleton (rules : List Rule) (r : Rule) :
    distinctRules (rules ++ [r]) = if (distinctRules rules).contains r then distinctRules rules
      else distinctRules rules ++ [r] := by
  unfold distinctRules
  rw [List.foldl_append]
  rfl

theorem pairwise_distinctRules (rules : List Rule) :
    (distinctRules rules).Pairwise fun a b => (a == b) = false := by
  induction rules using List.reverseRecOn with
  | nil => exact .nil
  | append_singleton rules r ih =>
    rw [distinctRules_append_singleton]
    split
    · exact ih
    · rename_i hnew
      refine List.pairwise_append.mpr ⟨ih, List.pairwise_singleton .., fun a ha b hb => ?_⟩
      rw [List.mem_singleton.mp hb, Bool.eq_false_iff]
      exact fun hab => hnew (List.contains_iff_exists_mem_beq.mpr ⟨a, ha, BEq.symm hab⟩)

theorem contains_distinctRules {rules : List Rule} (h : r ∈ rules) :
    (distinctRules rules).contains r = true := by
  induction rules using List.reverseRecOn with
  | nil => cases h
  | append_singleton rules s ih =>
    rw [distinctRules_append_singleton]
    rcases List.mem_append.mp h with h | h
    · split
      · exact ih h
      · rw [List.contains_append, ih h, Bool.true_or]
    · rw [← List.mem_singleton.mp h]
      split
      · assumption
      · simp

/-! ## The choice -/

/-- What rules are asked: those given, where a desire comes up, and which made an offer before. -/
structure Question where
  given : List ScopedRule
  catalog : Catalog
  context : Context
  chain : DesireChain
  applied : List Rule

namespace Question

variable {q : Question} {k : Candidate} {a b : Rule} {rules : List Rule}

structure Stands (q : Question) (k : Candidate) : Prop where
  given : ∃ g ∈ q.given,
    g.rule = k.rule ∧ g.pattern.match? q.catalog q.context.frames = some k.matched
  applies : k.rule.applies q.chain.current = true
  fresh : q.applied.contains k.rule = false

/-- A rule is among the best: nothing that takes part comes before it. -/
def Leads (q : Question) (r : Rule) : Prop :=
  ∃ m, q.Stands ⟨m, r⟩ ∧ ∀ k, q.Stands k → k.order ⟨m, r⟩ ≠ .lt

structure Tied (q : Question) (rules : List Rule) : Prop where
  several : 2 ≤ rules.length
  distinct : rules.Pairwise fun a b => (a == b) = false
  leads : ∀ r ∈ rules, q.Leads r
  all : ∀ r, q.Leads r → rules.contains r = true
  alike : ∀ a ∈ rules, ∀ b ∈ rules, a.dependType = b.dependType ∧ a.matcher = b.matcher

def field (q : Question) : List Candidate :=
  candidates (groupRules q.given) q.catalog q.context q.chain.current q.applied

def answer (q : Question) : Attempt (Option Offer) :=
  offerByRules (groupRules q.given) q.catalog q.context q.chain q.applied

def offerOf (q : Question) (r : Rule) : Offer :=
  ⟨r.apply q.catalog q.chain.current, r.policy, r.flags, some r⟩

theorem stands_iff : q.Stands k ↔ k ∈ q.field := by
  unfold field
  rw [mem_candidates]
  constructor
  · rintro ⟨⟨g, hg, hrule, hmatch⟩, happlies, hfresh⟩
    exact ⟨g.pattern, grouped_groupRules.mpr (hrule ▸ hg), hmatch, happlies, hfresh⟩
  · rintro ⟨p, hgiven, hmatch, happlies, hfresh⟩
    exact ⟨⟨⟨p, k.rule⟩, grouped_groupRules.mp hgiven, rfl, hmatch⟩, happlies, hfresh⟩

theorem leads_iff : q.Leads r ↔ r ∈ (Candidate.leading q.field).map (·.rule) := by
  unfold Leads
  rw [List.mem_map]
  simp only [stands_iff]
  constructor
  · rintro ⟨m, hm, hbest⟩
    exact ⟨⟨m, r⟩, Candidate.mem_leading.mpr ⟨hm, hbest⟩, rfl⟩
  · rintro ⟨k, hk, rfl⟩
    exact ⟨k.matched, Candidate.mem_leading.mp hk⟩

theorem Leads.stands (h : q.Leads r) : ∃ k, q.Stands k := by
  obtain ⟨m, hm, -⟩ := h
  exact ⟨_, hm⟩

theorem Stands.exists_leads (h : q.Stands k) : ∃ r, q.Leads r := by
  obtain ⟨b, hb⟩ := Candidate.exists_leading (stands_iff.mp h)
  exact ⟨b.rule, leads_iff.mpr (List.mem_map_of_mem hb)⟩

theorem Leads.alike (ha : q.Leads a) (hb : q.Leads b) :
    a.dependType = b.dependType ∧ a.matcher = b.matcher := by
  obtain ⟨k, hk, rfl⟩ := List.mem_map.mp (leads_iff.mp ha)
  obtain ⟨l, hl, rfl⟩ := List.mem_map.mp (leads_iff.mp hb)
  have happlies := (stands_iff.mpr (Candidate.mem_leading.mp hk).1).applies
  have happlies' := (stands_iff.mpr (Candidate.mem_leading.mp hl).1).applies
  unfold Rule.applies at happlies happlies'
  rw [Bool.and_eq_true, beq_iff_eq] at happlies happlies'
  exact ⟨happlies.1.symm.trans happlies'.1, QualifierMatcher.eq_of_accepts happlies.2 happlies'.2
    (Candidate.priority_eq_of_order_eq (Candidate.order_eq_of_leading hk hl))⟩

def best (q : Question) : List Rule := distinctRules ((Candidate.leading q.field).map (·.rule))

theorem leads_of_mem_best (h : r ∈ q.best) : q.Leads r := leads_iff.mpr (mem_distinctRules h)

theorem Leads.contains_best (h : q.Leads r) : q.best.contains r = true :=
  contains_distinctRules (leads_iff.mp h)

theorem answer_of_best_nil (h : q.best = []) : q.answer = .ok none := by
  unfold best field at h
  unfold answer offerByRules
  dsimp only
  rw [h]

theorem answer_of_best_singleton (h : q.best = [r]) : q.answer = .ok (some (q.offerOf r)) := by
  unfold best field at h
  unfold answer offerByRules
  dsimp only
  rw [h]
  rfl

theorem answer_of_best_cons_cons (h : q.best = a :: b :: rules) :
    q.answer = .error (.multipleBindings q.chain q.context q.best) := by
  unfold answer offerByRules
  dsimp only
  unfold best field at h ⊢
  rw [h]

theorem answer_cases (q : Question) :
    (q.answer = .ok none ∧ ∀ k, ¬ q.Stands k) ∨
    (∃ r, q.answer = .ok (some (q.offerOf r)) ∧ q.Leads r ∧
      ∀ r', q.Leads r' → (r' == r) = true) ∨
    ∃ rules, q.answer = .error (.multipleBindings q.chain q.context rules) ∧ q.Tied rules := by
  cases hbest : q.best with
  | nil =>
    refine .inl ⟨answer_of_best_nil hbest, fun k hk => ?_⟩
    obtain ⟨r, hr⟩ := hk.exists_leads
    simpa [hbest] using hr.contains_best
  | cons r rules =>
    cases rules with
    | nil =>
      refine .inr (.inl ⟨r, answer_of_best_singleton hbest, leads_of_mem_best (by simp [hbest]),
        fun r' hr' => ?_⟩)
      simpa [hbest] using hr'.contains_best
    | cons r' rules =>
      refine .inr (.inr ⟨q.best, answer_of_best_cons_cons hbest, by simp [hbest],
        pairwise_distinctRules _, fun a ha => leads_of_mem_best ha, fun a ha => ha.contains_best,
        fun a ha b hb => (leads_of_mem_best ha).alike (leads_of_mem_best hb)⟩)

theorem Tied.exists_distinct (h : q.Tied rules) :
    ∃ a b, q.Leads a ∧ q.Leads b ∧ (a == b) = false := by
  obtain ⟨hseveral, hdistinct, hleads, -, -⟩ := h
  have hb : rules[1] ∈ rules := List.getElem_mem _
  exact ⟨rules[0], rules[1], hleads _ (List.getElem_mem _), hleads _ hb,
    List.pairwise_iff_getElem.mp hdistinct 0 1 _ _ Nat.zero_lt_one⟩

theorem answer_of_none (h : ∀ k, ¬ q.Stands k) : q.answer = .ok none := by
  rcases q.answer_cases with ⟨h', -⟩ | ⟨r, -, hr, -⟩ | ⟨rules, -, htied⟩
  · exact h'
  · obtain ⟨k, hk⟩ := hr.stands
    exact absurd hk (h k)
  · obtain ⟨a, -, ha, -⟩ := htied.exists_distinct
    obtain ⟨k, hk⟩ := ha.stands
    exact absurd hk (h k)

theorem answer_of_equal (hk : q.Stands k)
    (h : ∀ a b, q.Leads a → q.Leads b → (a == b) = true) :
    ∃ r, q.answer = .ok (some (q.offerOf r)) ∧ q.Leads r := by
  rcases q.answer_cases with ⟨-, hnone⟩ | ⟨r, h', hr, -⟩ | ⟨rules, -, htied⟩
  · exact absurd hk (hnone k)
  · exact ⟨r, h', hr⟩
  · obtain ⟨a, b, ha, hb, hab⟩ := htied.exists_distinct
    rw [h a b ha hb] at hab
    cases hab

theorem answer_of_distinct (ha : q.Leads a) (hb : q.Leads b) (hab : (a == b) = false) :
    ∃ rules, q.answer = .error (.multipleBindings q.chain q.context rules) ∧ q.Tied rules := by
  rcases q.answer_cases with ⟨-, hnone⟩ | ⟨r, -, -, honly⟩ | htied
  · obtain ⟨k, hk⟩ := ha.stands
    exact absurd hk (hnone k)
  · rw [BEq.trans (honly a ha) (BEq.symm (honly b hb))] at hab
    cases hab
  · exact htied

theorem answer_eq_none_iff : q.answer = .ok none ↔
    ∀ g ∈ q.given, (g.pattern.match? q.catalog q.context.frames).isSome = true →
      g.rule.applies q.chain.current = true → q.applied.contains g.rule = true := by
  constructor
  · intro h g hg hmatch happlies
    obtain ⟨m, hm⟩ := Option.isSome_iff_exists.mp hmatch
    by_contra hfresh
    have hstands : q.Stands ⟨m, g.rule⟩ :=
      ⟨⟨g, hg, rfl, hm⟩, happlies, Bool.eq_false_iff.mpr hfresh⟩
    rcases q.answer_cases with ⟨-, hnone⟩ | ⟨r, h', -⟩ | ⟨rules, h', -⟩
    · exact hnone _ hstands
    · rw [h] at h'
      cases h'
    · rw [h] at h'
      cases h'
  · refine fun h => answer_of_none ?_
    rintro ⟨m, r⟩ ⟨⟨g, hg, rfl, hm⟩, happlies, hfresh⟩
    rw [h g hg (by rw [hm]; rfl) happlies] at hfresh
    cases hfresh

theorem answer_eq_error_iff :
    (∃ rules, q.answer = .error (.multipleBindings q.chain q.context rules)) ↔
      ∃ a b, q.Leads a ∧ q.Leads b ∧ (a == b) = false := by
  constructor
  · rintro ⟨rules, h⟩
    rcases q.answer_cases with ⟨h', -⟩ | ⟨r, h', -⟩ | ⟨rules', -, htied⟩
    · rw [h] at h'
      cases h'
    · rw [h] at h'
      cases h'
    · exact htied.exists_distinct
  · rintro ⟨a, b, ha, hb, hab⟩
    obtain ⟨rules, h, -⟩ := answer_of_distinct ha hb hab
    exact ⟨rules, h⟩

end Question

end Wiring
