import Wiring.Proofs.Selection
import Wiring.Proofs.Solver.Chains
import Wiring.Proofs.Solver.Determined
import Wiring.Proofs.Typed
import Mathlib.Data.List.Nodup

/-!
# Rules in another order

The rounds of a desire come to the same in whatever order rules are given, but for the order in
which tied rules are listed, and rules whose matchers do not accept the qualifier of its point have
no part in them. That takes rules that are equal to be the same: of two that inject providers of
different types for one desire the first is used, for equality does not tell them apart.
-/

namespace Wiring

/-- Errors that differ at most in the order of tied rules. -/
inductive Reordered : WiringError → WiringError → Prop
  | refl (e : WiringError) : Reordered e e
  | tied {chain : DesireChain} {context : Context} {rules rules' : List Rule} :
      rules.Perm rules' →
      Reordered (.multipleBindings chain context rules) (.multipleBindings chain context rules')

theorem Reordered.blames {e e' : WiringError} (h : Reordered e e') (d : Desire) :
    e.blames d = e'.blames d := by
  cases h <;> rfl

/-! ## The choice among rules -/

variable {c : Catalog} {given given' : List ScopedRule}

def Faithful (given : List ScopedRule) : Prop :=
  ∀ a ∈ given, ∀ b ∈ given, (a.rule == b.rule) = true → a.rule = b.rule

namespace Question

variable {q : Question} {k : Candidate} {r r' : Rule} {rules rules' : List Rule}

def about (q : Question) (given : List ScopedRule) : Question := { q with given }

/-- The rules that apply to the current desire, whatever the context. -/
def applicable (q : Question) : List ScopedRule :=
  q.given.filter fun a => a.rule.applies q.chain.current

theorem mem_applicable {a : ScopedRule} :
    a ∈ q.applicable ↔ a ∈ q.given ∧ a.rule.applies q.chain.current = true := List.mem_filter

theorem Leads.exists_applicable (h : q.Leads r) : ∃ g ∈ q.applicable, g.rule = r := by
  obtain ⟨m, hm, -⟩ := h
  obtain ⟨g, hg, rfl, -⟩ := hm.given
  exact ⟨g, mem_applicable.mpr ⟨hg, hm.applies⟩, rfl⟩

theorem Leads.eq_of_beq (hfaithful : Faithful q.applicable) (h : q.Leads r) (h' : q.Leads r')
    (hbeq : (r == r') = true) : r = r' := by
  obtain ⟨g, hg, rfl⟩ := h.exists_applicable
  obtain ⟨g', hg', rfl⟩ := h'.exists_applicable
  exact hfaithful g hg g' hg' hbeq

theorem Tied.mem_iff (hfaithful : Faithful q.applicable) (h : q.Tied rules) :
    r ∈ rules ↔ q.Leads r := by
  refine ⟨h.leads r, fun hr => ?_⟩
  obtain ⟨r', hr', hbeq⟩ := List.contains_iff_exists_mem_beq.mp (h.all r hr)
  rw [hr.eq_of_beq hfaithful (h.leads r' hr') hbeq]
  exact hr'

theorem Tied.nodup (h : q.Tied rules) : rules.Nodup := by
  refine h.distinct.imp fun {a b} hab heq => ?_
  rw [heq, BEq.rfl] at hab
  cases hab

theorem stands_iff_applicable : q.Stands k ↔
    (∃ g ∈ q.applicable, g.rule = k.rule ∧
      g.pattern.match? q.catalog q.context.frames = some k.matched) ∧
    q.applied.contains k.rule = false := by
  constructor
  · rintro ⟨⟨g, hg, hrule, hmatch⟩, happlies, hfresh⟩
    exact ⟨⟨g, mem_applicable.mpr ⟨hg, hrule ▸ happlies⟩, hrule, hmatch⟩, hfresh⟩
  · rintro ⟨⟨g, hg, hrule, hmatch⟩, hfresh⟩
    obtain ⟨hg, happlies⟩ := mem_applicable.mp hg
    exact ⟨⟨g, hg, hrule, hmatch⟩, hrule ▸ happlies, hfresh⟩

variable (hmem : ∀ g, g ∈ (q.about given).applicable ↔ g ∈ q.applicable)
include hmem

theorem stands_about : (q.about given).Stands k ↔ q.Stands k := by
  rw [stands_iff_applicable, stands_iff_applicable]
  simp only [hmem]
  exact Iff.rfl

theorem leads_about : (q.about given).Leads r ↔ q.Leads r := by
  unfold Leads
  simp only [stands_about hmem]

theorem answer_about (hfaithful : Faithful q.applicable) :
    Alike Reordered Eq q.answer (q.about given).answer := by
  have hfaithful' : Faithful (q.about given).applicable := fun a ha b hb =>
    hfaithful a ((hmem a).mp ha) b ((hmem b).mp hb)
  rcases q.answer_cases with ⟨h, hnone⟩ | ⟨r, h, hr, honly⟩ | ⟨rules, h, htied⟩
  · rw [h, answer_of_none fun k hk => hnone k ((stands_about hmem).mp hk)]
    exact rfl
  · obtain ⟨k, hk⟩ := hr.stands
    obtain ⟨r', h', hr'⟩ := answer_of_equal ((stands_about hmem).mpr hk) fun a b ha hb =>
      BEq.trans (honly a ((leads_about hmem).mp ha)) (BEq.symm (honly b ((leads_about hmem).mp hb)))
    have hr' := (leads_about hmem).mp hr'
    rw [h, h', hr'.eq_of_beq hfaithful hr (honly r' hr')]
    exact rfl
  · obtain ⟨a, b, ha, hb, hab⟩ := htied.exists_distinct
    obtain ⟨rules', h', htied'⟩ := answer_of_distinct ((leads_about hmem).mpr ha)
      ((leads_about hmem).mpr hb) hab
    rw [h, h']
    refine .tied ((List.perm_ext_iff_of_nodup htied.nodup htied'.nodup).mpr fun r => ?_)
    rw [htied.mem_iff hfaithful, htied'.mem_iff hfaithful', leads_about hmem]

end Question

/-! ## Derived rules -/

/-- Of rules that differ at most in the type they serve, equal targets are the same. -/
def Distinguished (given : List ScopedRule) : Prop :=
  ∀ a ∈ given, ∀ b ∈ given, (a.rule.retarget b.rule.dependType == b.rule) = true →
    a.rule.target = b.rule.target

theorem BindTarget.Typed.eq {a b : BindTarget} (ha : a.Typed) (hb : b.Typed)
    (h : (a == b) = true) : a = b := by
  have h := (BindTarget.beq_iff a b).mp h
  cases a <;> cases b <;> simp only [essence, BindTarget.type.injEq,
    BindTarget.satisfaction.injEq, reduceCtorEq] at h
  · rw [h]
  · rw [Satisfaction.eq_of_essence _ _ ha hb h]

theorem distinguished_of_typed (h : ∀ a ∈ given, a.rule.target.Typed) : Distinguished given := by
  intro a ha b hb hbeq
  obtain ⟨-, -, htarget, -⟩ := (Rule.beq_iff _ _).mp hbeq
  exact (h a ha).eq (h b hb) htarget

theorem RuleSet.mem_rules_of_perm (hperm : given.Perm given') (set : RuleSet) (g : ScopedRule) :
    g ∈ set.rules c given ↔ g ∈ set.rules c given' := by
  unfold rules
  simp only [List.mem_flatMap, hperm.mem_iff]

theorem RuleSet.faithful_rules (h : Distinguished given) (set : RuleSet) :
    Faithful (set.rules c given) := by
  intro a ha b hb hbeq
  obtain ⟨g, hg, ha⟩ := List.mem_flatMap.mp ha
  obtain ⟨t, -, rfl⟩ := List.mem_map.mp ha
  obtain ⟨g', hg', hb⟩ := List.mem_flatMap.mp hb
  obtain ⟨t', -, rfl⟩ := List.mem_map.mp hb
  obtain ⟨htype, hmatcher, htarget, hpolicy, hflags⟩ := (Rule.beq_iff _ _).mp hbeq
  have hsame : g.rule.target = g'.rule.target :=
    h g hg g' hg' ((Rule.beq_iff _ _).mpr ⟨rfl, hmatcher, htarget, hpolicy, hflags⟩)
  exact Rule.mk.injEq .. |>.mpr ⟨htype, hmatcher, hsame, hpolicy, hflags⟩

def accepting (q : Option Qualifier) (given : List ScopedRule) : List ScopedRule :=
  given.filter fun a => a.rule.matcher.accepts q

theorem Distinguished.accepting (h : Distinguished given) (q : Option Qualifier) :
    Distinguished (accepting q given) := fun a ha b hb =>
  h a (List.mem_of_mem_filter ha) b (List.mem_of_mem_filter hb)

theorem RuleSet.mem_rules_accepting {set : RuleSet} {q : Option Qualifier} {g : ScopedRule} :
    g ∈ set.rules c (accepting q given) ↔
      g ∈ set.rules c given ∧ g.rule.matcher.accepts q = true := by
  unfold rules accepting
  simp only [List.mem_flatMap, List.mem_filter, List.mem_map]
  constructor
  · rintro ⟨a, ⟨ha, haccepts⟩, t, ht, rfl⟩
    exact ⟨⟨a, ha, t, ht, rfl⟩, haccepts⟩
  · rintro ⟨⟨a, ha, t, ht, rfl⟩, haccepts⟩
    exact ⟨a, ⟨ha, haccepts⟩, t, ht, rfl⟩

/-! ## Functions -/

theorem alike_refl {α : Type} (x : Attempt α) : Alike Reordered Eq x x := by
  cases x with
  | error e => exact .refl e
  | ok a => exact rfl

theorem Alike.of_ok {α : Type} {a : α} {x : Attempt α} (h : Alike Reordered Eq (.ok a) x) :
    x = .ok a := by
  cases x with
  | error e => exact h.elim
  | ok b => exact congrArg Except.ok h.symm

theorem Alike.of_error {α : Type} {R : α → α → Prop} {e : WiringError} {x : Attempt α}
    (h : Alike Reordered R (.error e) x) : ∃ e', x = .error e' ∧ Reordered e e' := by
  cases x with
  | error e' => exact ⟨e', rfl, h⟩
  | ok b => exact h.elim

/-- Functions that make the same offers for desires of a point, with the same errors up to the order
of tied rules. -/
structure SameOffers (p : InjectionPoint) (f g : BindingFunction) : Prop where
  scripted : f.isScripted = g.isScripted
  offer : ∀ (c : Catalog) (turn : Nat) (context : Context) (chain : DesireChain)
    (applied : List Rule), chain.current.point = p →
    Alike Reordered Eq (f.offer c turn context chain applied) (g.offer c turn context chain applied)

variable {p : InjectionPoint}

theorem SameOffers.refl (f : BindingFunction) : SameOffers p f f :=
  ⟨rfl, fun _ _ _ _ _ _ => alike_refl _⟩

theorem sameOffers_ofSet (h : Distinguished (accepting p.qualifier given))
    (hperm : (accepting p.qualifier given).Perm (accepting p.qualifier given')) (set : RuleSet)
    (c : Catalog) : SameOffers p (.ofSet set c given) (.ofSet set c given') where
  scripted := rfl
  offer c' turn context chain applied hp := by
    let q : Question := ⟨set.rules c given, c', context, chain, applied⟩
    have happlicable : ∀ (rules : List ScopedRule) (g : ScopedRule),
        g ∈ (q.about (set.rules c rules)).applicable ↔
          g ∈ set.rules c (accepting p.qualifier rules) ∧ g.rule.applies chain.current = true := by
      intro rules g
      have haccepts (happlies : g.rule.applies chain.current = true) :
          g.rule.matcher.accepts p.qualifier = true := by
        rw [← hp]
        exact (Bool.and_eq_true_iff.mp happlies).2
      rw [Question.mem_applicable, RuleSet.mem_rules_accepting]
      exact ⟨fun ⟨hg, happlies⟩ => ⟨⟨hg, haccepts happlies⟩, happlies⟩,
        fun ⟨⟨hg, _⟩, happlies⟩ => ⟨hg, happlies⟩⟩
    have hmem (g : ScopedRule) :
        g ∈ (q.about (set.rules c given')).applicable ↔ g ∈ q.applicable := by
      rw [happlicable, set.mem_rules_of_perm hperm.symm]
      exact (happlicable given g).symm
    have hfaithful : Faithful q.applicable := fun a ha b hb =>
      set.faithful_rules h a ((happlicable given a).mp ha).1 b ((happlicable given b).mp hb).1
    exact q.answer_about hmem hfaithful

theorem sameOffers_standard_of_accepting (h : Distinguished (accepting p.qualifier given))
    (hperm : (accepting p.qualifier given).Perm (accepting p.qualifier given')) (c : Catalog) :
    List.Forall₂ (SameOffers p) (BindingFunction.standard c given)
      (BindingFunction.standard c given') :=
  .cons (sameOffers_ofSet h hperm .explicit c) <|
    .cons (sameOffers_ofSet h hperm .intermediate c) <|
    .cons (sameOffers_ofSet h hperm .super c) <| .cons (.refl _) <| .cons (.refl _) .nil

theorem sameOffers_standard (h : Distinguished given) (hperm : given.Perm given') (c : Catalog) :
    List.Forall₂ (SameOffers p) (BindingFunction.standard c given)
      (BindingFunction.standard c given') :=
  sameOffers_standard_of_accepting (h.accepting _) (hperm.filter _) c

/-! ## Rounds -/

variable {turn : Nat} {context : Context} {chain : DesireChain} {bs bs' : List Binder}
  {r : Rounds} {x y : Settled} {functions functions' : List BindingFunction} {d : Desire}

structure SameBinder (p : InjectionPoint) (b b' : Binder) : Prop where
  offers : SameOffers p b.function b'.function
  applied : b.applied = b'.applied

theorem SameBinder.remember {b b' : Binder} (h : SameBinder p b b') (o : Offer) :
    SameBinder p (b.remember o) (b'.remember o) :=
  ⟨h.offers, congrArg (· ++ o.rule.toList) h.applied⟩

structure AnswersAlike (p : InjectionPoint) (a a' : Answer) : Prop where
  offer : Alike Reordered Eq a.offer a'.offer
  binders : List.Forall₂ (SameBinder p) a.binders a'.binders
  notes : a.notes = a'.notes

theorem AnswersAlike.after {a a' : Answer} {b b' : Binder} (h : AnswersAlike p a a')
    (hb : SameBinder p b b') (notes : List Event) :
    AnswersAlike p (a.after b notes) (a'.after b' notes) :=
  ⟨h.offer, .cons hb h.binders, congrArg (notes ++ ·) h.notes⟩

theorem askBinders_alike (hp : chain.current.point = p) (h : List.Forall₂ (SameBinder p) bs bs') :
    AnswersAlike p (askBinders c turn context chain bs) (askBinders c turn context chain bs') := by
  induction h with
  | nil => exact ⟨rfl, .nil, rfl⟩
  | @cons b b' bs bs' hb hbs ih =>
    have hnotes : b.notes context chain = b'.notes context chain := by
      unfold Binder.notes
      rw [hb.offers.scripted]
    have hoffer : Alike Reordered Eq (b.offer c turn context chain)
        (b'.offer c turn context chain) := by
      unfold Binder.offer
      rw [← hb.applied]
      exact hb.offers.offer _ _ _ _ _ hp
    rw [askBinders, askBinders, hnotes]
    revert hoffer
    generalize b.offer c turn context chain = o
    generalize b'.offer c turn context chain = o'
    intro hoffer
    rcases o with e | o <;> rcases o' with e' | o'
    · exact ⟨hoffer, .cons hb hbs, rfl⟩
    · exact hoffer.elim
    · exact hoffer.elim
    · cases hoffer
      rcases o with _ | o
      · exact ih.after hb _
      · dsimp only
        split
        · exact ih.after (hb.remember o) _
        · exact ⟨rfl, .cons (hb.remember o) hbs, rfl⟩

structure SettledAlike (x y : Settled) : Prop where
  outcome : Alike Reordered Eq x.outcome y.outcome
  events : x.events = y.events

theorem Rounds.Ends.reordered (h : Ends c turn context r x) (hp : r.chain.current.point = p)
    (hbs : List.Forall₂ (SameBinder p) r.binders bs') :
    ∃ y, Ends c turn context { r with binders := bs' } y ∧ SettledAlike x y := by
  have hask : ∀ (r : Rounds) {bs' : List Binder}, r.chain.current.point = p →
      List.Forall₂ (SameBinder p) r.binders bs' →
      AnswersAlike p (askBinders c turn context r.chain r.binders)
        (askBinders c turn context r.chain bs') := fun r _ hp hbs => askBinders_alike hp hbs
  induction h generalizing bs' with
  | @ended r hover => exact ⟨_, .ended (r := { r with binders := bs' }) hover, alike_refl _, rfl⟩
  | @failed r e hover h =>
    obtain ⟨hoffer, -, hnotes⟩ := hask r hp hbs
    rw [h] at hoffer
    obtain ⟨e', h', he⟩ := hoffer.of_error
    exact ⟨_, .failed (r := { r with binders := bs' }) hover h', he, hnotes⟩
  | @stuck r hover h =>
    obtain ⟨hoffer, -, hnotes⟩ := hask r hp hbs
    rw [h] at hoffer
    exact ⟨_, .stuck (r := { r with binders := bs' }) hover hoffer.of_ok, alike_refl _, hnotes⟩
  | @bound r o x hover h _ ih =>
    obtain ⟨hoffer, hbinders, hnotes⟩ := hask r hp hbs
    -- what is offered is for the same point, so the functions agree on the next round too
    obtain ⟨-, b, -, hb⟩ := askBinders_offer h
    have hnext : (r.chain.extend o.desire).current.point = p := by
      rw [DesireChain.current_extend]
      exact (BindingFunction.point_of_offer hb).trans hp
    rw [h] at hoffer
    obtain ⟨y, hy, hxy⟩ := ih hnext hbinders
    refine ⟨_, .bound (r := { r with binders := bs' }) hover hoffer.of_ok hy, hxy.outcome, ?_⟩
    dsimp only
    rw [hnotes, hxy.events]

/-- What a desire settles on, and what is reported meanwhile, depends on what the functions offer at
its point. -/
theorem settle_reordered (hf : ∀ f ∈ functions, f.isScripted = false)
    (h : List.Forall₂ (SameOffers d.point) functions functions') :
    SettledAlike (settle c functions turn context d) (settle c functions' turn context d) := by
  have hf' : ∀ f ∈ functions', f.isScripted = false := by
    intro f hmem
    obtain ⟨g, hg, hgf⟩ := Dag.exists_of_forall₂ h.flip f hmem
    rw [← hgf.scripted]
    exact hf g hg
  have hends : Rounds.Ends c turn context (.start functions d) _ := Rounds.ends_settle hf
  have hends' : Rounds.Ends c turn context (.start functions' d) _ := Rounds.ends_settle hf'
  have hbinders : List.Forall₂ (SameBinder d.point) (Rounds.start functions d).binders
      (functions'.map .ofFunction) := by
    unfold Rounds.start
    rw [List.forall₂_map_left_iff, List.forall₂_map_right_iff]
    exact h.imp fun _ _ hfg => ⟨hfg, rfl⟩
  obtain ⟨y, hy, halike⟩ := hends.reordered rfl hbinders
  rw [hends'.unique hy]
  exact halike

end Wiring
