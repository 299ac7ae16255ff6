import Wiring.Proofs.Coherence
import Wiring.Proofs.Solver.Stems
import Wiring.Proofs.Typed

/-!
# What is wired can stand in for what was asked

Wherever one comes to, over edges and back-edges, what an edge leads to can stand in for what the
edge was asked for, as long as this is so of each default implementation on the way. The catalog
takes a default implementation as it is declared, so where one cannot stand in for what it is a
default of, neither can what is wired.
-/

namespace Wiring

open Settings

variable {types : List TypeSpec} {qualifiers : List QualifierSpec} {c : Catalog}
  {given : List ScopedRule} {config : Config} {roots : List Desire} {v : Solver} {x : Graph}
  {e : Resolved} {d : Desire} {k : Context} {r : Resolution} {D : Desire → Prop} {dep : Dependency}
  {l : Component} {a b : Satisfaction}

/-! ## Equal labels -/

theorem Satisfaction.type_of_beq (h : (a == b) = true) (hb : ∀ t d, b ≠ .injected t d) :
    a.type = b.type := by
  change a.same b = true at h
  cases a <;> cases b <;>
    simp only [Satisfaction.same, Bool.false_eq_true, Bool.and_eq_true, beq_iff_eq] at h
  case injected.injected t d => exact absurd rfl (hb t d)
  all_goals simp_all [Satisfaction.type]

theorem DesireChain.soundDefaults_iff (k : DesireChain) : k.SoundDefaults c ↔
    (k.desires.map Desire.essence).IsChain fun x y =>
      y.type ∈ c.defaultImplementations x → c.isAssignable y.type x.type = true := by
  have htype : ∀ d : Desire, d.essence.type = d.type := by
    intro d
    cases d
    rw [Desire.essence]
  have hpoint : ∀ d : Desire, d.essence.point = d.point := by
    intro d
    cases d
    rw [Desire.essence]
  rw [List.isChain_map]
  unfold SoundDefaults Catalog.defaultImplementations Desire.qualifier
  simp only [htype, hpoint]

theorem DesireChain.SoundDefaults.of_beq {k l : DesireChain} (h : k.SoundDefaults c)
    (hkl : (k == l) = true) : l.SoundDefaults c := by
  rw [soundDefaults_iff] at h ⊢
  rw [← (beq_iff_desires k l).mp hkl]
  exact h

/-! ## Bindings -/

theorem SoundRules.keeps (h : SoundRules c given) :
    OfferKeeps (BindingFunction.standard c given) c (·.Narrowed c) :=
  fun _ hf _ _ _ _ _ hk ho => hk.extend (h.standard hf ho)

theorem SoundRules.binds (h : SoundRules c given) (hd : d.Coherent)
    (hbinds : (Settings.ofConfig c given config).Binds d k r) :
    r.chain.Narrowed c ∧ r.Current :=
  hbinds.keeps h.keeps (fun _ _ hk hprevious => hk.previous hprevious)
    (DesireChain.narrowed_singleton hd)

theorem SoundRules.satisfaction (h : SoundRules c given) (hd : d.Coherent)
    (hbinds : (Settings.ofConfig c given config).Binds d k r) :
    r.satisfaction.type = r.chain.current.type ∧ r.satisfaction.Coherent := by
  obtain ⟨hchain, hcurrent⟩ := h.binds hd hbinds
  exact (hchain.coherent _ r.chain.current_mem).satisfaction hcurrent

theorem SoundRules.inherits (h : SoundRules c given) (hc : c.Frozen) :
    (Settings.ofConfig c given config).Inherits Desire.Coherent fun _ => True where
  root := trivial
  component _ _ _ _ _ := trivial
  needs _ _ _ hd hbinds _ hneeds := (h.satisfaction hd hbinds).2.dependencies hc hneeds

theorem SoundRules.inherits_typed (h : SoundRules c given) (hc : c.Frozen)
    (htyped : ∀ a ∈ given, a.rule.target.Typed) :
    (Settings.ofConfig c given config).Inherits (fun d => d.Coherent ∧ d.Typed) Component.Typed := by
  have hs : TypedRules (.ofConfig c given config) :=
    ⟨BindingFunction.isScripted_standard c given, typedTargets_standard htyped, hc⟩
  exact {
    root := trivial
    component := fun _ _ _ hd hbinds => (hbinds.typed hs hd.2).component
    needs := fun _ _ _ hd hbinds _ hneeds => ⟨(h.satisfaction hd.1 hbinds).2.dependencies hc hneeds,
      hs.dependencies (hbinds.typed hs hd.2).component hneeds⟩ }

theorem SoundRules.isAssignable_of_stems (h : SoundRules c given)
    (hstems : (Settings.ofConfig c given config).Stems D dep l) (hD : ∀ d, D d → d.Coherent)
    (hdefaults : dep.chain.SoundDefaults c) :
    ∃ d k r, D d ∧ (Settings.ofConfig c given config).Binds d k r ∧
      (r.satisfaction == l.satisfaction) = true ∧
      c.isAssignable r.satisfaction.type dep.initial.type = true := by
  obtain ⟨d, k, r, hd, htakes, hdep, hl⟩ := hstems
  have hbinds := htakes.binds
  obtain ⟨hchain, -⟩ := h.binds (hD d hd) hbinds
  have hbeq := ((Dependency.beq_iff _ _).mp hdep).1
  have hassignable := hchain.isAssignable (hdefaults.of_beq (BEq.symm hbeq))
  refine ⟨d, k, r, hd, hbinds, ((Component.beq_iff _ _).mp hl).1, ?_⟩
  rw [(h.satisfaction (hD d hd) hbinds).1,
    ← Desire.type_of_beq (Dependency.initial_beq hdep)]
  exact hassignable

/-! ## Graphs -/

/-- After any calls, wherever one comes to over edges and back-edges, what an edge from there leads
to can stand in for what the edge was asked for, if each default implementation on the chain of the
edge can stand in for what it was taken for. Of injected providers this is said where rules and
roots give none another type than that of a provider of what it serves: equality leaves that type
out, so merging may put one for the other. -/
theorem isAssignable_of_edgesFrom
    (h : Solver.After (.ofConfig (.freeze types qualifiers) given config) roots v)
    (hrules : SoundRules (.freeze types qualifiers) given) (hroots : ∀ d ∈ roots, d.Coherent)
    (hx : Linked v.backEdges v.graph x) (he : e ∈ v.edgesFrom x)
    (hdefaults : e.1.chain.SoundDefaults (.freeze types qualifiers))
    (hinjected : (∀ t d, e.2.label.satisfaction ≠ .injected t d) ∨
      (∀ a ∈ given, a.rule.target.Typed) ∧ ∀ d ∈ roots, d.Typed) :
    (Catalog.freeze types qualifiers).isAssignable e.2.label.satisfaction.type e.1.initial.type =
      true := by
  have hc := Catalog.frozen_freeze types qualifiers
  have hsettings := h.reachable.sound.2
  rcases hinjected with hplain | ⟨htyped, hrootsTyped⟩
  · have hstems := (h.stems (hrules.inherits hc) hroots).edgesFrom hx he
    rw [hsettings] at hstems
    obtain ⟨d, k, r, -, -, hbeq, hassignable⟩ :=
      hrules.isAssignable_of_stems hstems.edge (fun _ hd => hd) hdefaults
    rwa [Satisfaction.type_of_beq hbeq hplain] at hassignable
  · have hinherits : (Settings.ofConfig (.freeze types qualifiers) given config).Inherits
        (fun d => d.Coherent ∧ d.Typed) Component.Typed := hrules.inherits_typed hc htyped
    have hstems := (h.stems hinherits fun d hd => ⟨hroots d hd, hrootsTyped d hd⟩).edgesFrom hx he
    rw [hsettings] at hstems
    obtain ⟨d, k, r, hd, hbinds, hbeq, hassignable⟩ :=
      hrules.isAssignable_of_stems hstems.edge (fun _ hd => hd.1) hdefaults
    have hr : r.satisfaction.Typed := hinherits.component hd hbinds
    have hl : e.2.label.satisfaction.Typed := (Dag.each_iff.mp hstems.tail).1
    rwa [hr.eq hl hbeq] at hassignable

/-- An interface with a rule to what implements it, resolved once. -/
theorem isAssignable_of_bound :
    let c : Catalog := .freeze [⟨.named "Store", false, [], [], {}, .noPreference, none, none⟩,
      ⟨.named "Disk", true, [.named "Store"], [], {}, .noPreference, none, none⟩] []
    let bound : List ScopedRule := [⟨.any, .named "Store", .default, .type (.named "Disk"),
      .noPreference, {}⟩]
    let d := c.rootDesire (.named "Store") none
    let v := ((((Solver.ofSettings (.ofConfig c bound {})).run 0).1.resolve d).run 1).1.solver
    v.graph.edges ≠ [] ∧ ∀ e ∈ v.graph.edges,
      c.isAssignable e.2.label.satisfaction.type e.1.initial.type = true := by
  intro c bound d v
  have hv : Solver.After (.ofConfig c bound {}) [d] v := .resolve d 1 (.fresh _ 0)
  have hrules : SoundRules c bound := by
    refine ⟨fun a ha => ?_, fun a ha => ?_⟩ <;> rw [List.mem_singleton.mp ha]
    · exact ⟨(RuleDraft.bind (.named "Store")).toType (.named "Disk"), by rfl⟩
    · trivial
  have htyped : ∀ a ∈ bound, a.rule.target.Typed := List.forall_mem_singleton.mpr trivial
  have hroots : ∀ d' ∈ [d], d'.Coherent :=
    List.forall_mem_singleton.mpr (c.coherent_classSatisfaction _ _)
  have hrootsTyped : ∀ d' ∈ [d], d'.Typed :=
    List.forall_mem_singleton.mpr (c.typed_desire _ _)
  have hdefaults : ∀ e ∈ v.graph.edges, ∀ x ∈ e.1.chain.desires,
      (c.defaultImplementations x).isEmpty = true := by
    subst v d bound c
    decide +kernel
  have hedges : v.graph.edges.isEmpty = false := by
    subst v d bound c
    decide +kernel
  refine ⟨by simpa using hedges, fun e he => ?_⟩
  refine isAssignable_of_edgesFrom hv hrules hroots .root (List.mem_append_left _ he) ?_
    (.inr ⟨htyped, hrootsTyped⟩)
  refine List.isChain_iff_forall_rel_of_append_cons_cons.mpr fun x y l₁ l₂ h hy => ?_
  have hx := hdefaults e he x (by simp [h])
  rw [List.isEmpty_iff.mp hx] at hy
  cases hy

/-! ## Defaults that are not sound -/

theorem satisfaction_of_edgesFrom {s : Settings} (h : Solver.After s roots v)
    (hx : Linked v.backEdges v.graph x) (he : e ∈ v.edgesFrom x) :
    ∃ a, e.1.chain.current.satisfaction? = some a ∧ (a == e.2.label.satisfaction) = true := by
  obtain ⟨d, k, r, htakes, hdep, hl⟩ := h.takes hx he
  have hcurrent : r.Current := (htakes.binds.keeps (K := fun _ => True)
    (fun _ _ _ _ _ _ _ _ _ => trivial) (fun _ _ _ _ => trivial) trivial).2
  have hbeq := DesireChain.current_beq ((Dependency.beq_iff _ _).mp hdep).1
  obtain ⟨a, ha, hra⟩ := Desire.satisfaction_of_beq hbeq hcurrent
  exact ⟨a, ha, BEq.trans (BEq.symm hra) ((Component.beq_iff _ _).mp hl).1⟩

/-- A default implementation that does not extend what it is a default of is wired all the same. -/
theorem not_isAssignable_of_default :
    let c : Catalog := .freeze [⟨.named "Store", false, [], [], ⟨some (.named "Cache"), none, none⟩,
      .noPreference, none, none⟩,
      ⟨.named "Cache", true, [], [], {}, .noPreference, none, none⟩] []
    let called := (((Solver.ofSettings (.ofConfig c [] {})).run 0).1.resolve
      (c.rootDesire (.named "Store") none)).run 1
    called.1.result.isOk = true ∧ ∃ e ∈ called.1.solver.graph.edges,
      c.isAssignable e.2.label.satisfaction.type e.1.initial.type = false := by
  intro c called
  have hv : Solver.After (.ofConfig c [] {}) [c.rootDesire (.named "Store") none]
      called.1.solver := .resolve _ 1 (.fresh _ 0)
  have hok : called.1.result.isOk = true := by
    subst called c
    decide +kernel
  have hedges : called.1.solver.graph.edges.isEmpty = false := by
    subst called c
    decide +kernel
  have htaken : ∀ e ∈ called.1.solver.graph.edges, e.1.initial.type = .named "Store" ∧
      sameOptional e.1.chain.current.satisfaction?
        (some (.construct (.named "Cache"))) = true := by
    subst called c
    decide +kernel
  have hnone : c.isAssignable (.named "Cache") (.named "Store") = false := by
    subst c
    decide +kernel
  obtain ⟨e, he⟩ := List.exists_mem_of_ne_nil _ (by simpa using hedges)
  obtain ⟨htype, hcache⟩ := htaken e he
  obtain ⟨a, ha, hbeq⟩ := satisfaction_of_edgesFrom hv .root (List.mem_append_left _ he)
  rw [ha] at hcache
  have hcache : (e.2.label.satisfaction == .construct (.named "Cache")) = true :=
    BEq.trans (BEq.symm hbeq) hcache
  refine ⟨hok, e, he, ?_⟩
  rw [Satisfaction.type_of_beq hcache nofun, htype]
  exact hnone

end Wiring
