import Wiring.Proofs.Catalog.Freezing
import Wiring.Proofs.Selection
import Wiring.Proofs.Solver.Chains
import Wiring.Proofs.Solver.Determined

/-!
# The types of injected providers

Equality leaves out which type an injected provider is said to have. Where that is the type of a
provider of what it serves, labels that are equal are one label. If this is so in all rules and in a
desire, then in all that the desire is resolved to.
-/

namespace Wiring

/-! ## Labels -/

mutual

/-- Every provider in the satisfaction has the type of a provider of what it serves. -/
def Satisfaction.Typed : Satisfaction → Prop
  | .injected t d => t = .provider d.type ∧ Desire.Typed d
  | .construct _ | .existing _ _ | .viaClass _ _ | .viaProvider _ _ | .null _ => True

def Desire.Typed : Desire → Prop
  | ⟨_, _, s⟩ => typedOptional s

def typedOptional : Option Satisfaction → Prop
  | none => True
  | some s => Satisfaction.Typed s

end

mutual

theorem Satisfaction.eq_of_essence : ∀ s t : Satisfaction, s.Typed → t.Typed →
    s.essence = t.essence → s = t
  | .injected a d, t, hs, ht, h => by
    cases t with
    | injected b e =>
      rw [Satisfaction.Typed] at hs ht
      rw [Satisfaction.essence, Satisfaction.essence] at h
      have hde : d = e := Desire.eq_of_essence d e hs.2 ht.2 (Satisfaction.injected.inj h).2
      rw [hs.1, ht.1, hde]
    | construct | existing | viaClass | viaProvider | null => simp [Satisfaction.essence] at h
  | .construct _, t, _, _, h | .existing _ _, t, _, _, h | .viaClass _ _, t, _, _, h
  | .viaProvider _ _, t, _, _, h | .null _, t, _, _, h => by
    cases t <;> simp_all [Satisfaction.essence]

theorem Desire.eq_of_essence : ∀ d e : Desire, d.Typed → e.Typed → d.essence = e.essence → d = e
  | ⟨_, _, s⟩, ⟨_, _, t⟩, hs, ht, h => by
    rw [Desire.Typed] at hs ht
    rw [Desire.essence, Desire.essence] at h
    obtain ⟨rfl, rfl, hst⟩ := Desire.mk.inj h
    rw [optional_eq_of_essence s t hs ht hst]

theorem optional_eq_of_essence : ∀ s t : Option Satisfaction, typedOptional s → typedOptional t →
    essenceOptional s = essenceOptional t → s = t
  | none, t, _, _, h => by
    cases t with
    | none => rfl
    | some t => simp [essenceOptional] at h
  | some s, t, hs, ht, h => by
    cases t with
    | none => simp [essenceOptional] at h
    | some t =>
      rw [typedOptional] at hs ht
      rw [essenceOptional, essenceOptional] at h
      rw [Satisfaction.eq_of_essence s t hs ht (Option.some.inj h)]

end

def DesireChain.Typed (k : DesireChain) : Prop := ∀ d ∈ k.desires, d.Typed

def Dependency.Typed (d : Dependency) : Prop := d.chain.Typed

def Component.Typed (l : Component) : Prop := l.satisfaction.Typed

theorem Satisfaction.Typed.eq {s t : Satisfaction} (hs : s.Typed) (ht : t.Typed)
    (h : (s == t) = true) : s = t :=
  s.eq_of_essence t hs ht ((Satisfaction.beq_iff s t).1 h)

theorem Desire.Typed.eq {d e : Desire} (hd : d.Typed) (he : e.Typed) (h : (d == e) = true) :
    d = e := d.eq_of_essence e hd he ((Desire.beq_iff d e).1 h)

theorem desires_eq_of_beq : ∀ {ds es : List Desire}, (∀ d ∈ ds, d.Typed) → (∀ e ∈ es, e.Typed) →
    (ds == es) = true → ds = es
  | [], [], _, _, _ => rfl
  | [], _ :: _, _, _, h | _ :: _, [], _, _, h => by simp at h
  | d :: ds, e :: es, hds, hes, h => by
    simp only [List.cons_beq_cons, Bool.and_eq_true] at h
    rw [List.forall_mem_cons] at hds hes
    rw [hds.1.eq hes.1 h.1, desires_eq_of_beq hds.2 hes.2 h.2]

theorem DesireChain.Typed.eq {k l : DesireChain} (hk : k.Typed) (hl : l.Typed)
    (h : (k == l) = true) : k = l := by
  unfold DesireChain.Typed desires at hk hl
  rw [List.forall_mem_cons] at hk hl
  obtain ⟨hinitial, hbound⟩ := (DesireChain.beq_iff k l).1 h
  obtain ⟨_, _⟩ := k
  obtain ⟨_, _⟩ := l
  rw [DesireChain.mk.injEq]
  exact ⟨hk.1.eq hl.1 hinitial, desires_eq_of_beq hk.2 hl.2 hbound⟩

theorem Dependency.Typed.eq {d e : Dependency} (hd : d.Typed) (he : e.Typed)
    (h : (d == e) = true) : d = e := by
  obtain ⟨hchain, hfixed⟩ := (Dependency.beq_iff d e).1 h
  obtain ⟨_, _⟩ := d
  obtain ⟨_, _⟩ := e
  rw [Dependency.mk.injEq]
  exact ⟨DesireChain.Typed.eq hd he hchain, hfixed⟩

/-! ## Bindings -/

variable {c : Catalog} {functions : List BindingFunction} {d x : Desire} {p : InjectionPoint}
  {turn : Nat} {context : Context} {r : Rounds} {y : Settled} {res : Resolution}

def BindTarget.Typed : BindTarget → Prop
  | .type _ => True
  | .satisfaction s => s.Typed

def TypedTargets (functions : List BindingFunction) : Prop :=
  ∀ f ∈ functions, ∀ t, some t ∈ f.targets → t.Typed

theorem Catalog.typed_desire (c : Catalog) (p : InjectionPoint) (t : TypeKey) :
    Desire.Typed ⟨p, t, c.classSatisfaction? t⟩ := by
  rw [Desire.Typed]
  unfold classSatisfaction?
  split <;> trivial

theorem typed_targetDesire {t : BindTarget} (ht : t.Typed) : (targetDesire c p t).Typed := by
  cases t with
  | type t => exact c.typed_desire p t
  | satisfaction s =>
    unfold targetDesire
    rw [Desire.Typed]
    exact ht

theorem typed_narrowings (htargets : TypedTargets functions) (hd : d.Typed) :
    ∀ x ∈ narrowings c functions d, x.Typed := by
  refine forall_narrowings hd (fun f hf t ht => typed_targetDesire (htargets f hf t ht))
    (fun t => c.typed_desire _ t) (fun q => ?_) fun t k x hx => ?_
  · unfold Satisfaction.ofProviderOf
    rw [Desire.Typed, typedOptional, Satisfaction.Typed]
    exact ⟨rfl, c.typed_desire _ q⟩
  · rcases List.mem_append.1 hx with hx | hx <;>
    · obtain ⟨_, -, rfl⟩ := Option.map_eq_some_iff.1 (Option.mem_toList.1 hx)
      rw [Desire.Typed]
      trivial

theorem DesireChain.Typed.current {k : DesireChain} (hk : k.Typed) : k.current.Typed := by
  refine hk _ ?_
  rw [k.desires_eq]
  exact List.mem_append_right _ List.mem_cons_self

structure Resolution.Typed (r : Resolution) : Prop where
  chain : r.chain.Typed
  satisfaction : r.chain.current.satisfaction? = some r.satisfaction

theorem Resolution.Typed.component (h : res.Typed) : res.satisfaction.Typed := by
  have hcurrent := h.chain.current
  have hsatisfaction := h.satisfaction
  revert hcurrent hsatisfaction
  obtain ⟨_, _, s⟩ := res.chain.current
  rintro hcurrent rfl
  rw [Desire.Typed] at hcurrent
  exact hcurrent

/-! ## Trees -/

namespace Settings

variable {s : Settings}

structure TypedRules (s : Settings) : Prop where
  unscripted : s.Unscripted
  targets : TypedTargets s.functions
  frozen : s.catalog.Frozen

theorem Binds.typed (hs : s.TypedRules) (hd : d.Typed) (h : s.Binds d context res) :
    res.Typed := by
  obtain ⟨hchain, hcurrent⟩ :=
    h.forall_desires hs.unscripted (fun _ hd => typed_narrowings hs.targets hd) hd
  exact ⟨hchain, hcurrent⟩

theorem TypedRules.dependencies (hs : s.TypedRules) {a : Satisfaction} (ha : a.Typed)
    (hd : d ∈ a.dependencies s.catalog) : d.Typed := by
  cases a with
  | construct t | viaClass t _ =>
    rw [hs.frozen t d hd]
    exact s.catalog.typed_desire _ _
  | injected t e =>
    rw [Satisfaction.Typed] at ha
    exact List.mem_singleton.1 hd ▸ ha.2
  | existing | viaProvider | null => cases hd

end Settings

/-! ## The standard functions -/

variable {rule : Rule} {g : RuleGroup} {given rules : List ScopedRule}

theorem target_of_mem_groups {set : RuleSet} (hg : g ∈ set.groups c given) (hr : rule ∈ g.rules) :
    ∃ a ∈ given, rule.target = a.rule.target := by
  have hgrouped : Grouped (set.groups c given) g.pattern rule := ⟨g, hg, rfl, hr⟩
  obtain ⟨a, ha, hrule⟩ := List.mem_flatMap.1 (grouped_groupRules.1 hgrouped)
  obtain ⟨t, -, heq⟩ := List.mem_map.1 hrule
  exact ⟨a, ha, congrArg (·.rule.target) heq.symm⟩

theorem forall_targets_standard {P : BindTarget → Prop} (h : ∀ a ∈ given, P a.rule.target) :
    ∀ f ∈ BindingFunction.standard c given, ∀ t, some t ∈ f.targets → P t := by
  have hset : ∀ set t, some t ∈ (BindingFunction.ofSet set c given).targets → P t := by
    intro set t ht
    obtain ⟨rule, hrule, heq⟩ := List.mem_map.1 ht
    obtain ⟨g, hg, hr⟩ := List.mem_flatMap.1 hrule
    obtain ⟨a, ha, htarget⟩ := target_of_mem_groups hg hr
    rw [← Option.some.inj heq, htarget]
    exact h a ha
  refine BindingFunction.forall_standard (fun set => hset set) ?_ ?_
  · rintro t ⟨⟩
  · rintro t ⟨⟩

theorem typedTargets_standard (h : ∀ a ∈ given, a.rule.target.Typed) :
    TypedTargets (BindingFunction.standard c given) := forall_targets_standard h

end Wiring
