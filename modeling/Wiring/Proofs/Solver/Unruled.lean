import Wiring.Proofs.Catalog.Freezing
import Wiring.Proofs.Solver.Origin

/-!
# Where there is nothing to choose

A catalog without defaults, whose points are of classes or of providers of classes, leaves a solver
without rules nothing to choose: a class is constructed, and a provider is injected and put off.
-/

namespace Wiring

/-- What is provided in the end, behind any number of providers. -/
def TypeKey.innermost : TypeKey → TypeKey
  | provider t => t.innermost
  | t => t

def Desire.construction (d : Desire) : Resolution :=
  ⟨.construct d.type, .noPreference, .singleton d, false, false, false⟩

namespace Catalog

structure NoDefaults (c : Catalog) : Prop where
  types : ∀ t k, c.typeDefaults? t = some k → k.isEmpty = true
  qualifiers : ∀ kind k, c.qualifierDefaults? kind = some k → k.isEmpty = true

/-- There are no defaults, no provider is declared, and every point is of a class or a provider of
one. -/
structure Definite (c : Catalog) : Prop where
  typeDefaults : ∀ t k, c.typeDefaults? t = some k → k.isEmpty = true
  qualifierDefaults : ∀ kind k, c.qualifierDefaults? kind = some k → k.isEmpty = true
  provider : ∀ t, c.contains (.provider t) = false
  point : ∀ t, ∀ d ∈ c.dependencies t, c.isInstantiable d.type.innermost = true

def target (c : Catalog) (d : Desire) (t : TypeKey) : Desire := c.desire { d.point with type := t }

/-- The desires at a point that providers within providers serve, down to the class. -/
def behind (c : Catalog) (p : InjectionPoint) : TypeKey → List Desire
  | .provider t => c.desire { p with type := t } :: behind c p t
  | _ => []

def services (c : Catalog) : List Desire :=
  (c.types.flatMap (·.dependencies)).flatMap fun d => c.behind d.point d.type

structure Sought (c : Catalog) (d : Desire) : Prop where
  declared : d = c.desire d.point
  innermost : c.isInstantiable d.type.innermost = true
  services : ∀ x ∈ c.behind d.point d.type, x ∈ c.services

/-- What a desire is resolved to where there is nothing to choose. -/
def only (c : Catalog) (d : Desire) : Resolution :=
  match d.type with
  | .provider t =>
    let s := Satisfaction.ofProviderOf (c.target d t)
    ⟨s, .noPreference, (DesireChain.singleton d).extend (d.restrict s), false, true, false⟩
  | t => ⟨.construct t, .noPreference, .singleton d, false, false, false⟩

variable {c : Catalog} {d : Desire} {chain : DesireChain} {turn : Nat} {k : Context} {t : TypeKey}

theorem definite_of_types
    (htypes : ∀ i ∈ c.types, i.defaults.isEmpty = true ∧ i.key.isProvider = false ∧
      ∀ d ∈ i.dependencies, c.isInstantiable d.type.innermost = true)
    (hqualifiers : ∀ k ∈ c.qualifiers, k.2.isEmpty = true) : c.Definite where
  typeDefaults t k h := by
    obtain ⟨i, hi, rfl⟩ := Option.map_eq_some_iff.1 h
    exact (htypes i (List.mem_of_find?_eq_some hi)).1
  qualifierDefaults kind k h := by
    obtain ⟨_, _, hk, -⟩ := List.lookup_eq_some_iff.1 h
    exact hqualifiers (kind, k) (hk ▸ List.mem_append_right _ List.mem_cons_self)
  provider t := by
    unfold contains info?
    rw [Option.isSome_eq_false_iff, Option.isNone_iff_eq_none, List.find?_eq_none]
    intro i hi hkey
    have hnot := (htypes i hi).2.1
    rw [eq_of_beq hkey] at hnot
    cases hnot
  point t d hd := by
    obtain ⟨i, hi, -, hd⟩ := exists_info_of_dependency hd
    exact (htypes i hi).2.2 d hd

/-! ## Rounds -/

theorem offer_of_isEmpty {defaults : Defaults} (h : defaults.isEmpty = true) (d : Desire) :
    defaults.offer c d = none := by
  obtain ⟨_ | _, _ | _, _ | _⟩ := defaults <;> first | rfl | cases h

theorem NoDefaults.offerDefault (hc : c.NoDefaults) (chain : DesireChain) :
    offerDefault c chain = none := by
  have htype : offerTypeDefault c chain = none := by
    unfold offerTypeDefault
    split
    · refine Option.bind_eq_none_iff.2 fun k hk => ?_
      exact offer_of_isEmpty (hc.types _ k hk) _
    · rfl
  have hqualifier : offerQualifierDefault c chain = none := by
    unfold offerQualifierDefault
    split
    · refine Option.bind_eq_none_iff.2 fun q _ => Option.bind_eq_none_iff.2 fun k hk => ?_
      exact offer_of_isEmpty (hc.qualifiers _ k hk) _
    · rfl
  unfold Wiring.offerDefault
  rw [htype, hqualifier]
  rfl

theorem Definite.noDefaults (hc : c.Definite) : c.NoDefaults :=
  ⟨hc.typeDefaults, hc.qualifierDefaults⟩

theorem askBinders_skip {b : Binder} {bs : List Binder}
    (h : b.offer c turn k chain = .ok none) :
    (askBinders c turn k chain (b :: bs)).offer = (askBinders c turn k chain bs).offer := by
  rw [askBinders, h]
  rfl

theorem askBinders_take {b : Binder} {bs : List Binder} {o : Offer}
    (h : b.offer c turn k chain = .ok (some o)) (hchain : chain.earlier = []) :
    (askBinders c turn k chain (b :: bs)).offer = .ok (some o) := by
  rw [askBinders, h]
  dsimp only
  rw [hchain]
  rfl

theorem NoDefaults.offer_ask (hc : c.NoDefaults) (hchain : chain.earlier = []) :
    (askBinders c turn k chain ((BindingFunction.standard c []).map .ofFunction)).offer =
      .ok (offerProvider c chain) := by
  have hrules : ∀ s : RuleSet,
      (Binder.ofFunction (.ofSet s c [])).offer c turn k chain = .ok none := fun _ => rfl
  have hprovider : (Binder.ofFunction .providers).offer c turn k chain =
      .ok (offerProvider c chain) := rfl
  have hdefaults : (Binder.ofFunction .defaults).offer c turn k chain = .ok none :=
    congrArg Except.ok (hc.offerDefault chain)
  unfold BindingFunction.standard
  simp only [List.map_cons, List.map_nil]
  rw [askBinders_skip (hrules _), askBinders_skip (hrules _), askBinders_skip (hrules _)]
  cases ho : offerProvider c chain with
  | some o => exact askBinders_take (hprovider.trans (congrArg Except.ok ho)) hchain
  | none =>
    rw [askBinders_skip (hprovider.trans (congrArg Except.ok ho)), askBinders_skip hdefaults]
    rfl

theorem Definite.not_instantiable (hc : c.Definite) (t : TypeKey) :
    c.isInstantiable (.provider t) = false := by
  have h := hc.provider t
  unfold contains at h
  unfold isInstantiable
  rw [Option.isSome_eq_false_iff, Option.isNone_iff_eq_none] at h
  rw [h]
  rfl

theorem innermost_of_not_provider (h : ∀ t', t ≠ .provider t') : t.innermost = t := by
  cases t with
  | provider t' => exact absurd rfl (h t')
  | named | root => rfl

theorem Sought.satisfaction? (hd : c.Sought d) :
    d.satisfaction? = c.classSatisfaction? d.type := by
  rw [hd.declared]
  rfl

def serve (c : Catalog) (d : Desire) (t : TypeKey) : Offer where
  desire := d.restrict (.ofProviderOf (c.target d t))
  flags := { terminal := true, deferred := true }

theorem Sought.offerProvider (hc : c.Definite) (hd : c.Sought d) (ht : d.type = .provider t) :
    offerProvider c (.singleton d) = some (c.serve d t) := by
  have hnone : d.satisfaction? = none := by
    rw [hd.satisfaction?, ht]
    unfold classSatisfaction?
    rw [hc.not_instantiable]
    rfl
  have hcurrent : (DesireChain.singleton d).current = d := rfl
  unfold Wiring.offerProvider Desire.isInstantiable
  rw [hcurrent]
  dsimp only
  rw [hnone, ht]
  rfl

theorem ends_accept (ht : d.type = .provider t) (functions : List BindingFunction)
    (binders : List Binder) (turn : Nat) (k : Context) :
    Rounds.Ends c turn k ((Rounds.start functions d).accept (c.serve d t) binders)
      ⟨.ok (c.only d), []⟩ := by
  have hcurrent : ((Rounds.start functions d).accept (c.serve d t) binders).chain.current =
      d.restrict (.ofProviderOf (c.target d t)) := DesireChain.current_extend ..
  have hover : ((Rounds.start functions d).accept (c.serve d t) binders).isOver = true := by
    unfold Rounds.isOver Desire.isInstantiable
    rw [hcurrent]
    rfl
  have hresolution : ((Rounds.start functions d).accept (c.serve d t) binders).resolution k =
      .ok (c.only d) := by
    unfold Rounds.resolution only
    rw [hcurrent, ht]
    rfl
  rw [← hresolution]
  exact .ended hover

theorem Sought.construct (hd : c.Sought d) (ht : ∀ t, d.type ≠ .provider t) :
    d.satisfaction? = some (.construct d.type) := by
  have hinner := hd.innermost
  rw [innermost_of_not_provider ht] at hinner
  rw [hd.satisfaction?]
  exact if_pos hinner

theorem only_of_class (ht : ∀ t, d.type ≠ .provider t) :
    c.only d = d.construction := by
  unfold only
  split
  · rename_i t h
    exact absurd h (ht t)
  · rfl

theorem NoDefaults.ends (hc : c.NoDefaults) (hd : d.satisfaction? = some (.construct d.type))
    (turn : Nat) (k : Context) :
    ∃ events, Rounds.Ends c turn k (.start (BindingFunction.standard c []) d)
      ⟨.ok d.construction, events⟩ := by
  have hcurrent : (DesireChain.singleton d).current = d := rfl
  have hnone : Wiring.offerProvider c (.singleton d) = none := by
    unfold Wiring.offerProvider Desire.isInstantiable
    rw [hcurrent]
    dsimp only
    rw [hd]
    rfl
  have hask : (askBinders c turn k (.singleton d)
      ((BindingFunction.standard c []).map .ofFunction)).offer = _ := hc.offer_ask rfl
  rw [hnone] at hask
  have hresolution : (Rounds.start (BindingFunction.standard c []) d).resolution k =
      .ok d.construction := by
    unfold Rounds.resolution Rounds.start
    dsimp only
    rw [hcurrent, hd]
    rfl
  rw [← hresolution]
  exact ⟨_, .stuck rfl hask⟩

theorem Definite.ends (hc : c.Definite) (hd : c.Sought d) (turn : Nat) (k : Context) :
    ∃ events, Rounds.Ends c turn k (.start (BindingFunction.standard c []) d)
      ⟨.ok (c.only d), events⟩ := by
  by_cases hprovider : ∃ t, d.type = .provider t
  · obtain ⟨t, ht⟩ := hprovider
    have hask : (askBinders c turn k (.singleton d)
        ((BindingFunction.standard c []).map .ofFunction)).offer = _ := hc.noDefaults.offer_ask rfl
    rw [hd.offerProvider hc ht] at hask
    exact ⟨_, .bound rfl hask (ends_accept ht _ _ turn k)⟩
  · have ht : ∀ t, d.type ≠ .provider t := fun t ht => hprovider ⟨t, ht⟩
    rw [only_of_class ht]
    exact hc.noDefaults.ends (hd.construct ht) turn k

/-! ## What is sought -/

theorem behind_withType (c : Catalog) (p : InjectionPoint) (t u : TypeKey) :
    c.behind { p with type := u } t = c.behind p t := by
  induction t with
  | provider t ih => rw [behind, behind, ih]
  | named _ | root => rfl

theorem Sought.target_mem (hd : c.Sought d) (ht : d.type = .provider t) :
    c.target d t ∈ c.services := by
  refine hd.services _ ?_
  rw [ht]
  exact List.mem_cons_self

theorem Sought.target (hd : c.Sought d) (ht : d.type = .provider t) : c.Sought (c.target d t) := by
  have hinner := hd.innermost
  have hservices := hd.services
  rw [ht] at hinner hservices
  refine ⟨rfl, hinner, fun x hx => hservices x (List.mem_cons_of_mem _ ?_)⟩
  rwa [← behind_withType c d.point t t]

theorem sought_of_dependency (hf : c.Frozen) (hc : c.Definite) (hd : d ∈ c.dependencies t) :
    c.Sought d := by
  obtain ⟨i, hi, -, hdi⟩ := exists_info_of_dependency hd
  exact ⟨hf t d hd, hc.point t d hd, fun x hx =>
    List.mem_flatMap.2 ⟨d, List.mem_flatMap.2 ⟨i, hi, hdi⟩, hx⟩⟩

theorem sought_rootDesire (hc : c.Definite) (ht : c.isInstantiable t = true)
    (q : Option Qualifier) : c.Sought (c.rootDesire t q) := by
  have hclass : ∀ t', t ≠ .provider t' := by
    rintro t' rfl
    rw [hc.not_instantiable] at ht
    cases ht
  refine ⟨rfl, ?_, fun x hx => ?_⟩
  · show c.isInstantiable t.innermost = true
    rwa [innermost_of_not_provider hclass]
  · change x ∈ c.behind _ t at hx
    cases t with
    | provider t' => exact absurd rfl (hclass t')
    | named | root => cases hx

theorem only_of_provider (ht : d.type = .provider t) :
    (c.only d).satisfaction = .ofProviderOf (c.target d t) ∧ (c.only d).policy = .noPreference ∧
      (c.only d).deferred = true ∧ (c.only d).skippable = false := by
  unfold only
  rw [ht]
  exact ⟨rfl, rfl, rfl, rfl⟩

theorem only_skippable (c : Catalog) (d : Desire) : (c.only d).skippable = false := by
  unfold only
  split <;> rfl

theorem Sought.dependency (hf : c.Frozen) (hc : c.Definite) (hd : c.Sought d) {d' : Desire}
    (hd' : d' ∈ (c.only d).satisfaction.dependencies c) : c.Sought d' := by
  by_cases hprovider : ∃ t, d.type = .provider t
  · obtain ⟨t, ht⟩ := hprovider
    rw [(only_of_provider ht).1] at hd'
    rw [List.mem_singleton.1 hd']
    exact hd.target ht
  · rw [only_of_class fun t ht => hprovider ⟨t, ht⟩] at hd'
    exact sought_of_dependency hf hc hd'

end Catalog

/-! ## Bindings -/

namespace Settings

variable {s : Settings} {d : Desire} {k : Context} {r : Resolution} {f : Deferral}
  {roots : List Desire}

def Unruled (s : Settings) : Prop := s.functions = BindingFunction.standard s.catalog []

theorem Unruled.settle (hs : s.Unruled) {turn : Nat} {x : Settled}
    (h : Rounds.Ends s.catalog turn k (.start (BindingFunction.standard s.catalog []) d) x) :
    Wiring.settle s.catalog s.functions turn k d = x := by
  have hsettle : Rounds.Ends s.catalog turn k (.start (BindingFunction.standard s.catalog []) d)
      (Wiring.settle s.catalog (BindingFunction.standard s.catalog []) turn k d) :=
    Rounds.ends_settle (BindingFunction.isScripted_standard s.catalog [])
  rw [hs]
  exact hsettle.unique h

theorem settle_only (hs : s.Unruled) (hc : s.catalog.Definite) (hd : s.catalog.Sought d)
    (turn : Nat) (k : Context) :
    (Wiring.settle s.catalog s.functions turn k d).outcome = .ok (s.catalog.only d) := by
  obtain ⟨events, hends⟩ := hc.ends hd turn k
  rw [hs.settle hends]

theorem settle_construction (hs : s.Unruled) (hc : s.catalog.NoDefaults)
    (hd : d.satisfaction? = some (.construct d.type)) (turn : Nat) (k : Context) :
    (Wiring.settle s.catalog s.functions turn k d).outcome = .ok d.construction := by
  obtain ⟨events, hends⟩ := hc.ends hd turn k
  rw [hs.settle hends]

theorem Binds.eq_only (hs : s.Unruled) (hc : s.catalog.Definite) (hd : s.catalog.Sought d)
    (h : s.Binds d k r) : r = s.catalog.only d := by
  have hsettles : ∀ {r}, s.Settles d k r → r = s.catalog.only d := by
    rintro r ⟨turn, hr⟩
    rw [settle_only hs hc hd] at hr
    exact (Except.ok.inj hr).symm
  cases h with
  | settled h => exact hsettles h
  | restored h _ _ _ hp =>
    cases hsettles h
    unfold Resolution.backtrack? at hp
    rw [if_neg (by simp [Catalog.only_skippable])] at hp
    cases hp

theorem PutsOff.serves (hs : s.Unruled) (hf : s.catalog.Frozen) (hc : s.catalog.Definite)
    (h : s.PutsOff d k f) (hd : s.catalog.Sought d) :
    ∃ x ∈ s.catalog.services, s.catalog.Sought x ∧
      f.node.label = ⟨.ofProviderOf x, s.defaultPolicy⟩ := by
  induction h with
  | @here d k r f _ hr hdeferred hbare _ =>
    cases (Binds.settled hr).eq_only hs hc hd
    by_cases hprovider : ∃ t, d.type = .provider t
    · obtain ⟨t, ht⟩ := hprovider
      obtain ⟨hsatisfaction, hpolicy, -, -⟩ := Catalog.only_of_provider (c := s.catalog) ht
      refine ⟨_, hd.target_mem ht, hd.target ht, ?_⟩
      rw [hbare.label]
      unfold Resolution.component
      rw [hsatisfaction, hpolicy]
      rfl
    · rw [Catalog.only_of_class fun t ht => hprovider ⟨t, ht⟩] at hdeferred
      cases hdeferred
  | deeper hr _ hd' _ ih =>
    cases hr.eq_only hs hc hd
    exact ih (hd.dependency hf hc hd')

theorem Queued.serves (hs : s.Unruled) (hf : s.catalog.Frozen) (hc : s.catalog.Definite)
    (h : s.Queued roots f) (hroots : ∀ d ∈ roots, s.catalog.Sought d) :
    ∃ x ∈ s.catalog.services, s.catalog.Sought x ∧
      f.node.label = ⟨.ofProviderOf x, s.defaultPolicy⟩ := by
  induction h with
  | tree hd hf' => exact hf'.serves hs hf hc (hroots _ hd)
  | expansion _ hd hf' ih =>
    obtain ⟨x, -, hx, hlabel⟩ := ih
    unfold Catalog.needs at hd
    rw [hlabel] at hd
    rw [List.mem_singleton.1 hd] at hf'
    exact hf'.serves hs hf hc hx

theorem Queued.needs_ne_nil (hs : s.Unruled) (hf : s.catalog.Frozen) (hc : s.catalog.Definite)
    (h : s.Queued roots f) (hroots : ∀ d ∈ roots, s.catalog.Sought d) :
    s.catalog.needs f.node ≠ [] := by
  obtain ⟨x, -, -, hlabel⟩ := h.serves hs hf hc hroots
  unfold Catalog.needs
  rw [hlabel]
  exact List.cons_ne_nil x []

end Settings

end Wiring
