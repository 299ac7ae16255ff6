import Wiring.Proofs.Catalog.Assignability
import Wiring.Proofs.Catalog.Freezing
import Wiring.Proofs.Selection
import Wiring.Proofs.Solver.Chains
import Wiring.Rule.Draft
import Mathlib.Data.List.Chain

/-!
# What a desire is narrowed to

Rules that were built, and the rules derived from them, narrow a desire to what can stand in for it;
providers and values keep its type. Only a default implementation is taken as it was declared, and
nothing says that it can stand in for what was asked.
-/

namespace Wiring

/-! ## Coherence -/

mutual

def Satisfaction.Coherent : Satisfaction → Prop
  | .injected _ d => Desire.Coherent d
  | .construct _ | .existing _ _ | .viaClass _ _ | .viaProvider _ _ | .null _ => True

def Desire.Coherent : Desire → Prop
  | ⟨_, t, s⟩ => coherentOptional t s

def coherentOptional (t : TypeKey) : Option Satisfaction → Prop
  | none => True
  | some s => s.type = t ∧ Satisfaction.Coherent s

end

def BindTarget.Coherent : BindTarget → Prop
  | .type _ => True
  | .satisfaction s => s.Coherent

variable {c : Catalog} {d x y : Desire} {p : InjectionPoint} {t : TypeKey} {s : Satisfaction}
  {k l : DesireChain} {a : ScopedRule} {given : List ScopedRule} {o : Offer} {context : Context}
  {applied : List Rule} {turn : Nat} {r : Resolution}

theorem Desire.Coherent.satisfaction (h : d.Coherent) (hs : d.satisfaction? = some s) :
    s.type = d.type ∧ s.Coherent := by
  obtain ⟨_, _, _⟩ := d
  cases hs
  rw [Coherent, coherentOptional] at h
  exact h

theorem Catalog.coherent_classSatisfaction (c : Catalog) (p : InjectionPoint) (t : TypeKey) :
    Desire.Coherent ⟨p, t, c.classSatisfaction? t⟩ := by
  rw [Desire.Coherent]
  unfold classSatisfaction?
  split
  · exact ⟨rfl, trivial⟩
  · trivial

theorem coherent_restrictType (c : Catalog) (d : Desire) (t : TypeKey) :
    (d.restrictType c t).Coherent := c.coherent_classSatisfaction d.point t

theorem coherent_restrict (hs : s.Coherent) : (d.restrict s).Coherent := by
  unfold Desire.restrict
  rw [Desire.Coherent, coherentOptional]
  exact ⟨rfl, hs⟩

theorem Satisfaction.Coherent.dependencies (hc : c.Frozen) (hs : s.Coherent)
    (hd : d ∈ s.dependencies c) : d.Coherent := by
  cases s with
  | construct | viaClass =>
    rw [hc _ d hd]
    exact c.coherent_classSatisfaction _ _
  | injected _ target =>
    rw [Satisfaction.Coherent] at hs
    exact List.mem_singleton.mp hd ▸ hs
  | existing | viaProvider | null => cases hd

/-! ## One narrowing -/

/-- The default implementations declared for a desire: for its type, and for the kind of its
qualifier. -/
def Catalog.defaultImplementations (c : Catalog) (d : Desire) : List TypeKey :=
  ((c.typeDefaults? d.type).bind (·.implementation)).toList ++
    (d.qualifier.bind fun q => (c.qualifierDefaults? q.kind).bind (·.implementation)).toList

/-- The second desire can stand in for the first, or it is for a default implementation. -/
def Narrows (c : Catalog) (x y : Desire) : Prop :=
  c.isAssignable y.type x.type = true ∨ y.type ∈ c.defaultImplementations x

theorem narrows_of_type_eq (h : y.type = x.type) : Narrows c x y :=
  .inl (h ▸ c.isAssignable_self _)

def ScopedRule.Built (a : ScopedRule) (c : Catalog) : Prop :=
  ∃ draft : RuleDraft, draft.build c = .ok a.rule

theorem ScopedRule.Built.isAssignable (h : a.Built c) :
    c.isAssignable a.rule.target.key a.rule.dependType = true := by
  obtain ⟨draft, h⟩ := h
  unfold RuleDraft.build at h
  split at h
  · cases h
  · split at h
    · rename_i hassignable
      obtain ⟨_, rule⟩ := a
      cases h
      exact hassignable
    · cases h

theorem ScopedRule.Built.isAssignable_of_mem (h : a.Built c) {set : RuleSet}
    (ht : t ∈ set.typesOf c a.rule) : c.isAssignable a.rule.target.key t = true := by
  cases set with
  | explicit => exact List.mem_singleton.mp ht ▸ h.isAssignable
  | intermediate => exact Catalog.isAssignable_of_mem_typesBetween ht
  | super =>
    exact Catalog.isAssignable_trans h.isAssignable (Catalog.isAssignable_of_mem_supertypes ht)

theorem type_apply (r : Rule) (c : Catalog) (d : Desire) : (r.apply c d).type = r.target.key := by
  unfold Rule.apply
  split <;> simp [*, BindTarget.key, Desire.restrictType, Desire.restrict]

theorem coherent_apply {r : Rule} (h : r.target.Coherent) : (r.apply c d).Coherent := by
  unfold Rule.apply
  cases hr : r.target with
  | type t => exact coherent_restrictType c d t
  | satisfaction s =>
    rw [hr] at h
    exact coherent_restrict h

/-- Rules that can be relied on: they were built, and what they bind to is coherent. -/
structure SoundRules (c : Catalog) (given : List ScopedRule) : Prop where
  built : ∀ a ∈ given, a.Built c
  coherent : ∀ a ∈ given, a.rule.target.Coherent

/-- The offer leads to a coherent desire, which narrows the current one. -/
def Sound (c : Catalog) (k : DesireChain) (o : Offer) : Prop :=
  Narrows c k.current o.desire ∧ o.desire.Coherent

theorem SoundRules.offer (h : SoundRules c given) {set : RuleSet}
    (ho : (BindingFunction.ofSet set c given).offer c turn context k applied = .ok (some o)) :
    Sound c k o := by
  let q : Question := ⟨set.rules c given, c, context, k, applied⟩
  have ho : q.answer = .ok (some o) := ho
  rcases q.answer_cases with ⟨h', -⟩ | ⟨r, h', ⟨m, hstands, -⟩, -⟩ | ⟨_, h', -⟩ <;> rw [ho] at h' <;>
    cases h'
  obtain ⟨⟨g, hg, rfl, -⟩, happlies, -⟩ := hstands
  obtain ⟨a, ha, hg⟩ := List.mem_flatMap.mp hg
  obtain ⟨t, ht, rfl⟩ := List.mem_map.mp hg
  unfold Rule.applies at happlies
  rw [Bool.and_eq_true, beq_iff_eq] at happlies
  have htype : k.current.type = t := happlies.1
  refine ⟨.inl ?_, coherent_apply (h.coherent a ha)⟩
  show c.isAssignable ((a.rule.retarget t).apply c k.current).type k.current.type = true
  rw [type_apply, htype]
  exact (h.built a ha).isAssignable_of_mem ht

theorem sound_of_provider (h : offerProvider c k = some o) : Sound c k o := by
  unfold offerProvider at h
  dsimp only at h
  split at h
  · cases h
  · obtain ⟨t, ht, rfl⟩ := Option.map_eq_some_iff.mp h
    refine ⟨narrows_of_type_eq ?_, coherent_restrict ?_⟩
    · show TypeKey.provider t = k.current.type
      cases hk : k.current.type <;> rw [hk] at ht <;> cases ht
      rfl
    · exact c.coherent_classSatisfaction { k.current.point with type := t } t

theorem Defaults.sound_of_offer {defaults : Defaults} (h : defaults.offer c x = some o) :
    (o.desire.type = x.type ∨ defaults.implementation = some o.desire.type) ∧
      o.desire.Coherent := by
  unfold offer at h
  split at h <;> cases h
  · exact ⟨.inr rfl, coherent_restrictType c x _⟩
  · exact ⟨.inl rfl, coherent_restrict trivial⟩
  · exact ⟨.inl rfl, coherent_restrict trivial⟩

theorem sound_of_default (h : offerDefault c k = some o) : Sound c k o := by
  unfold offerDefault offerQualifierDefault offerTypeDefault at h
  rcases Option.or_eq_some_iff.mp h with h | ⟨-, h⟩
  · split at h
    · obtain ⟨q, hq, h⟩ := Option.bind_eq_some_iff.mp h
      obtain ⟨defaults, hdefaults, h⟩ := Option.bind_eq_some_iff.mp h
      obtain ⟨htype | himplementation, hcoherent⟩ := defaults.sound_of_offer h
      · exact ⟨narrows_of_type_eq htype, hcoherent⟩
      · refine ⟨.inr (List.mem_append_right _ ?_), hcoherent⟩
        simp [hq, hdefaults, himplementation]
    · cases h
  · split at h
    · obtain ⟨defaults, hdefaults, h⟩ := Option.bind_eq_some_iff.mp h
      obtain ⟨htype | himplementation, hcoherent⟩ := defaults.sound_of_offer h
      · exact ⟨narrows_of_type_eq htype, hcoherent⟩
      · refine ⟨.inr (List.mem_append_left _ ?_), hcoherent⟩
        simp [hdefaults, himplementation]
    · cases h

theorem SoundRules.standard (h : SoundRules c given) {f : BindingFunction}
    (hf : f ∈ BindingFunction.standard c given)
    (ho : f.offer c turn context k applied = .ok (some o)) : Sound c k o :=
  BindingFunction.forall_standard
    (P := fun f => f.offer c turn context k applied = .ok (some o) → Sound c k o)
    (fun _ ho => h.offer ho) (fun ho => sound_of_provider (Except.ok.inj ho))
    (fun ho => sound_of_default (Except.ok.inj ho)) f hf ho

/-! ## Chains -/

/-- A chain of coherent desires, each of which narrows the one before. -/
structure DesireChain.Narrowed (k : DesireChain) (c : Catalog) : Prop where
  coherent : ∀ d ∈ k.desires, d.Coherent
  steps : k.desires.IsChain (Narrows c)

/-- Every default implementation on the chain can stand in for what it was taken for. -/
def DesireChain.SoundDefaults (k : DesireChain) (c : Catalog) : Prop :=
  k.desires.IsChain fun x y =>
    y.type ∈ c.defaultImplementations x → c.isAssignable y.type x.type = true

theorem DesireChain.narrowed_singleton (hd : d.Coherent) :
    (DesireChain.singleton d).Narrowed c :=
  ⟨fun _ he => List.mem_singleton.mp he ▸ hd, .singleton _⟩

theorem DesireChain.Narrowed.extend (h : k.Narrowed c) (ho : Sound c k o) :
    (k.extend o.desire).Narrowed c := by
  obtain ⟨hcoherent, hsteps⟩ := h
  obtain ⟨hnarrows, hdesire⟩ := ho
  refine ⟨fun e he => ?_, ?_⟩
  · rw [desires_extend, List.mem_append, List.mem_singleton] at he
    rcases he with he | rfl
    · exact hcoherent e he
    · exact hdesire
  · rw [k.desires_eq] at hsteps
    rw [desires_extend, k.desires_eq, List.append_assoc]
    exact List.isChain_append_cons_cons.mpr ⟨hsteps, hnarrows, .singleton _⟩

theorem DesireChain.Narrowed.previous (h : k.Narrowed c) (hl : k.previous? = some l) :
    l.Narrowed c := by
  have hdesires := (previous?_spec hl).2
  refine ⟨fun e he => h.coherent e ?_, hdesires ▸ h.steps.dropLast⟩
  rw [hdesires] at he
  exact List.dropLast_subset _ he

theorem isAssignable_of_isChain : ∀ {ds : List Desire} {d : Desire},
    (d :: ds).IsChain (Narrows c) →
    (d :: ds).IsChain (fun x y =>
      y.type ∈ c.defaultImplementations x → c.isAssignable y.type x.type = true) →
    c.isAssignable (ds.getLastD d).type d.type = true
  | [], d, _, _ => c.isAssignable_self d.type
  | e :: ds, d, hsteps, hdefaults => by
    obtain ⟨hstep, hsteps⟩ := List.isChain_cons_cons.mp hsteps
    obtain ⟨hdefault, hdefaults⟩ := List.isChain_cons_cons.mp hdefaults
    rw [List.getLastD_cons]
    exact Catalog.isAssignable_trans (isAssignable_of_isChain hsteps hdefaults)
      (hstep.elim id hdefault)

theorem DesireChain.Narrowed.isAssignable (h : k.Narrowed c) (hdefaults : k.SoundDefaults c) :
    c.isAssignable k.current.type k.initial.type = true :=
  isAssignable_of_isChain h.steps hdefaults

end Wiring
