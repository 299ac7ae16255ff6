import Wiring.Proofs.Solver.Failures
import Wiring.Proofs.Solver.Unruled
import Mathlib.Data.Finset.Card
import Mathlib.Logic.Relation

/-!
# Providers break every cycle

Where there is nothing to choose and no class needs itself directly, the depth of a context is
bounded: between two nodes that were put off there are only so many classes, and a pass expands each
of the finitely many injected providers once. If contexts may be that deep, every call succeeds.
-/

namespace Wiring

open Work Settings Catalog

/-! ## Direct needs -/

namespace Catalog

/-- A class needs another one directly, not a provider of it. -/
def Direct (c : Catalog) (t u : TypeKey) : Prop :=
  u.isProvider = false ∧ ∃ d ∈ c.dependencies t, d.type = u

def Grounded (c : Catalog) : Prop := ∀ t, ¬ Relation.TransGen c.Direct t t

open Classical in
noncomputable def rank (c : Catalog) (t : TypeKey) : Nat :=
  ((c.types.map (·.key)).toFinset.filter fun u => Relation.TransGen c.Direct t u).card

/-- How much deeper the contexts get while a desire is resolved. -/
noncomputable def height (c : Catalog) (d : Desire) : Nat :=
  if d.type.isProvider then 0 else c.rank d.type + 1

def depthBound (c : Catalog) : Nat := (c.services.length + 1) * (c.types.length + 2)

variable {c : Catalog} {t u : TypeKey} {d d' : Desire}

theorem rank_le (c : Catalog) (t : TypeKey) : c.rank t ≤ c.types.length := by
  classical
  unfold rank
  refine (Finset.card_filter_le _ _).trans ((List.toFinset_card_le _).trans ?_)
  rw [List.length_map]

theorem height_le (c : Catalog) (d : Desire) : c.height d ≤ c.types.length + 1 := by
  have := c.rank_le d.type
  unfold height
  split <;> omega

theorem rank_lt (hg : c.Grounded) (htu : c.Direct t u) (hu : c.isInstantiable u = true) :
    c.rank u < c.rank t := by
  classical
  have hmem : u ∈ (c.types.map (·.key)).toFinset := by
    obtain ⟨i, hi, -⟩ := (Option.any_eq_true _ _).1 hu
    have hkey := List.find?_some hi
    rw [List.mem_toFinset]
    exact List.mem_map.2 ⟨i, List.mem_of_find?_eq_some hi, by simpa using hkey⟩
  -- what `u` needs, `t` needs too; `t` needs `u` besides, and `u` does not need itself
  refine Finset.card_lt_card ((Finset.ssubset_iff_of_subset ?_).2 ⟨u, ?_, ?_⟩)
  · intro x hx
    rw [Finset.mem_filter] at hx ⊢
    exact ⟨hx.1, .head htu hx.2⟩
  · rw [Finset.mem_filter]
    exact ⟨hmem, .single htu⟩
  · rw [Finset.mem_filter]
    exact fun hu => hg u hu.2

theorem grounded_of_lt {f : TypeKey → Nat}
    (h : ∀ i ∈ c.types, ∀ d ∈ i.dependencies, d.type.isProvider = false →
      f d.type < f i.key) : c.Grounded := by
  have hdirect : ∀ t u, c.Direct t u → f u < f t := by
    rintro t _ ⟨hprovider, d, hd, rfl⟩
    obtain ⟨i, hi, rfl, hdi⟩ := exists_info_of_dependency hd
    exact h i hi d hdi hprovider
  have hpath : ∀ t u, Relation.TransGen c.Direct t u → f u < f t := by
    intro t u htu
    induction htu with
    | single hstep => exact hdirect t _ hstep
    | tail _ hstep ih => exact (hdirect _ _ hstep).trans ih
  exact fun t ht => Nat.lt_irrefl _ (hpath t t ht)

theorem isProvider_eq_false (h : ∀ t', t ≠ .provider t') : t.isProvider = false := by
  cases t with
  | provider t' => exact absurd rfl (h t')
  | named | root => rfl

theorem height_of_provider (ht : d.type = .provider t) : c.height d = 0 := by
  unfold height
  rw [ht]
  rfl

theorem height_of_class (ht : ∀ t, d.type ≠ .provider t) : c.height d = c.rank d.type + 1 := by
  unfold height
  rw [isProvider_eq_false ht]
  rfl

theorem height_lt (hg : c.Grounded) (ht : ∀ t, d.type ≠ .provider t)
    (hd' : d' ∈ c.dependencies d.type) (hs : c.Sought d') : c.height d' < c.height d := by
  rw [height_of_class ht]
  by_cases hprovider : ∃ t', d'.type = .provider t'
  · obtain ⟨t', ht'⟩ := hprovider
    rw [height_of_provider ht']
    exact Nat.succ_pos _
  · have ht' : ∀ t, d'.type ≠ .provider t := fun t h => hprovider ⟨t, h⟩
    have hinner := hs.innermost
    rw [innermost_of_not_provider ht'] at hinner
    rw [height_of_class ht']
    exact Nat.succ_lt_succ (rank_lt hg ⟨isProvider_eq_false ht', d', hd', rfl⟩ hinner)

end Catalog

/-! ## Trees -/

namespace Settings

variable {s : Settings} {d : Desire} {k : Context} {f : Deferral} {w : Workspace}

/-- A solver without rules over a catalog where there is nothing to choose and no class needs itself
directly. -/
structure Plainly (s : Settings) : Prop where
  unruled : s.Unruled
  frozen : s.catalog.Frozen
  definite : s.catalog.Definite
  grounded : s.catalog.Grounded

theorem PutsOff.depth_le (hs : s.Plainly) (h : s.PutsOff d k f) (hd : s.catalog.Sought d) :
    f.context.depth ≤ k.depth + s.catalog.height d + 1 := by
  induction h with
  | here _ _ _ _ hcontext =>
    rw [hcontext, depth_inside]
    omega
  | @deeper d d' k r f hr hdeferred hd' _ ih =>
    cases hr.eq_only hs.unruled hs.definite hd
    have ht : ∀ t, d.type ≠ .provider t := by
      intro t ht
      rw [(only_of_provider ht).2.2.1] at hdeferred
      cases hdeferred
    have hdependency := hd.dependency hs.frozen hs.definite hd'
    rw [only_of_class ht] at hd'
    have hlt := height_lt hs.grounded ht hd' hdependency
    have hle := ih hdependency
    rw [depth_inside] at hle
    omega

theorem exists_resolvesAll_ok {ds : List Desire}
    (h : ∀ d ∈ ds, ∀ w, ∃ edge w', Resolves s d k w (.ok edge) w') (w : Workspace) :
    ∃ edges w', ResolvesAll s k ds w (.ok edges) w' := by
  induction ds generalizing w with
  | nil => exact ⟨[], w, .nil⟩
  | cons d ds ih =>
    obtain ⟨edge, v, hd⟩ := h d List.mem_cons_self w
    obtain ⟨edges, w', hds⟩ := ih (fun d hd => h d (List.mem_cons_of_mem _ hd)) v
    exact ⟨edge :: edges, w', .cons hd hds⟩

theorem exists_settle (hs : s.Plainly) (hd : s.catalog.Sought d) (k : Context) (w : Workspace) :
    ∃ v, (s.settle d k).Runs w (.ok (s.catalog.only d)) v :=
  ⟨_, runs_settle.2 ⟨(settle_only hs.unruled hs.definite hd w.nextTag k).symm, rfl⟩⟩

theorem exists_resolves_of_provider (hs : s.Plainly) (hd : s.catalog.Sought d)
    (ht : d.type = .provider t) (hk : k.depth ≤ s.maxDepth) (w : Workspace) :
    ∃ edge w', Resolves s d k w (.ok edge) w' := by
  obtain ⟨v, hsettle⟩ := exists_settle hs hd k w
  have hdefer := runs_self (s.defer (s.catalog.only d) k) v
  obtain ⟨f, -, -, ho, -, -⟩ := runs_defer hdefer
  rw [ho] at hdefer
  exact ⟨_, _, .deferred hk hsettle (only_of_provider ht).2.2.1 hdefer⟩

theorem exists_resolves_of_class (hs : s.Plainly) (hd : s.catalog.Sought d)
    (ht : ∀ t, d.type ≠ .provider t) (hk : k.depth ≤ s.maxDepth)
    (hall : ∀ d' ∈ s.catalog.dependencies d.type, ∀ w, ∃ edge w',
      Resolves s d' (inside (s.catalog.only d) k) w (.ok edge) w') (w : Workspace) :
    ∃ edge w', Resolves s d k w (.ok edge) w' := by
  have honly := only_of_class (c := s.catalog) ht
  have hdependencies : (s.catalog.only d).satisfaction.dependencies s.catalog =
      s.catalog.dependencies d.type := by
    rw [honly]
    rfl
  obtain ⟨v, hsettle⟩ := exists_settle hs hd k w
  obtain ⟨edges, v', hall⟩ := exists_resolvesAll_ok (hdependencies ▸ hall) v
  have hgrow := runs_self (s.grow (s.catalog.only d) edges) v'
  obtain ⟨tag, ho, -, -⟩ := runs_grow hgrow
  rw [ho] at hgrow
  exact ⟨_, _, .expanded hk hsettle (by rw [honly]; rfl) (.grown hall hgrow)⟩

theorem exists_resolves (hs : s.Plainly) {n : Nat} (hd : s.catalog.Sought d)
    (hheight : s.catalog.height d ≤ n) (hk : k.depth + n ≤ s.maxDepth) (w : Workspace) :
    ∃ edge w', Resolves s d k w (.ok edge) w' := by
  induction n generalizing d k w with
  | zero =>
    by_cases hprovider : ∃ t, d.type = .provider t
    · exact exists_resolves_of_provider hs hd hprovider.choose_spec hk w
    · rw [height_of_class fun t ht => hprovider ⟨t, ht⟩] at hheight
      cases hheight
  | succ n ih =>
    by_cases hprovider : ∃ t, d.type = .provider t
    · exact exists_resolves_of_provider hs hd hprovider.choose_spec (by omega) w
    · have ht : ∀ t, d.type ≠ .provider t := fun t ht => hprovider ⟨t, ht⟩
      refine exists_resolves_of_class hs hd ht (by omega) (fun d' hd' w => ?_) w
      have hsought := sought_of_dependency hs.frozen hs.definite hd'
      have hlt := height_lt hs.grounded ht hd' hsought
      refine ih hsought (by omega) ?_ w
      rw [depth_inside]
      omega

theorem exists_merge (g : Graph) (w : Workspace) : ∃ g' w', (merge g).Runs w (.ok g') w' :=
  ⟨_, _, runs_merge.2 ⟨rfl, rfl⟩⟩

theorem exists_expandChildren (hs : s.Plainly) (parent : Graph)
    (hk : k.depth + (s.catalog.types.length + 1) ≤ s.maxDepth) {ds : List Desire}
    (hds : ∀ d ∈ ds, s.catalog.Sought d) (current : Graph) (p : Pass) (w : Workspace) :
    ∃ children p' w', (s.expandChildren parent k ds current p).Runs w (.ok (children, p')) w' ∧
      p'.expanded = p.expanded := by
  induction ds generalizing current p w with
  | nil => exact ⟨[], p, w, runs_pure.2 ⟨rfl, rfl⟩, rfl⟩
  | cons d ds ih =>
    obtain ⟨edge, w1, hd⟩ := exists_resolves hs (hds d List.mem_cons_self)
      (s.catalog.height_le d) hk w
    obtain ⟨child, w2, hmerge⟩ := exists_merge edge.2 w1
    obtain ⟨x, w3, hadd⟩ := exists_addChild parent current child edge.1 p w2
    obtain ⟨children, p', w4, hrest, hexpanded⟩ :=
      ih (fun d hd => hds d (List.mem_cons_of_mem _ hd)) x.1 x.2 w3
    refine ⟨(edge.1, child) :: children, p', w4, ?_, hexpanded.trans ?_⟩
    · rw [expandChildren]
      simp only [runs_bind_ok]
      exact ⟨edge, w1, runs_of_resolves hd, child, w2, hmerge, x, w3, hadd, (children, p'), w4,
        hrest, runs_pure.2 ⟨rfl, rfl⟩⟩
    · obtain ⟨-, -, ⟨-, ho⟩ | ⟨-, _, _, _, ho⟩⟩ := runs_addChild hadd
      · cases ho
        rfl
      · cases ho
        rfl

/-! ## Passes -/

def Serves (s : Settings) (g : Graph) : Prop :=
  ∃ x ∈ s.catalog.services, s.catalog.Sought x ∧ Bare ⟨.ofProviderOf x, s.defaultPolicy⟩ g

theorem PutsOff.serves_bare (hs : s.Plainly) (h : s.PutsOff d k f) (hd : s.catalog.Sought d) :
    s.Serves f.node := by
  obtain ⟨x, hx, hsought, hlabel⟩ := h.serves hs.unruled hs.frozen hs.definite hd
  exact ⟨x, hx, hsought, hlabel, h.bare.edges, h.bare.wellBuilt⟩

theorem Serves.needs {g : Graph} (h : s.Serves g) :
    ∀ d ∈ s.catalog.needs g, s.catalog.Sought d := by
  obtain ⟨x, -, hsought, hbare⟩ := h
  intro d hd
  unfold Catalog.needs at hd
  rw [hbare.label] at hd
  rwa [List.mem_singleton.1 hd]

theorem length_le_services {nodes : List Graph} (h : ∀ g ∈ nodes, s.Serves g)
    (hdistinct : nodes.Pairwise fun a b => (a == b) = false) :
    nodes.length ≤ s.catalog.services.length := by
  -- bare nodes with equal labels are equal
  have hnodup : (nodes.map (·.label)).Nodup := by
    refine List.pairwise_map.2 (hdistinct.imp_of_mem fun {a b} ha hb hab hlabel => ?_)
    obtain ⟨_, -, -, hbare⟩ := h a ha
    obtain ⟨_, -, -, hbare'⟩ := h b hb
    have hbare : Bare b.label a := ⟨hlabel, hbare.edges, hbare.wellBuilt⟩
    rw [hbare.beq ⟨rfl, hbare'.edges, hbare'.wellBuilt⟩] at hab
    cases hab
  have hsubset : nodes.map (·.label) ⊆
      s.catalog.services.map fun x => ⟨.ofProviderOf x, s.defaultPolicy⟩ := by
    intro l hl
    obtain ⟨g, hg, rfl⟩ := List.mem_map.1 hl
    obtain ⟨x, hx, -, hbare⟩ := h g hg
    exact List.mem_map.2 ⟨x, hx, hbare.label.symm⟩
  have hlength := (hnodup.subperm hsubset).length_le
  rwa [List.length_map, List.length_map] at hlength

end Settings

/-- A pass with a queue, whose contexts are only as deep as the pass has expanded nodes. -/
structure Pass.Bounded (s : Settings) (q : List Deferral) (p : Pass) : Prop where
  served : ∀ g ∈ p.expanded.map (·.1), s.Serves g
  distinct : (p.expanded.map (·.1)).Pairwise fun a b => (a == b) = false
  queue : ∀ f ∈ q, s.Serves f.node
  depth : ∀ f ∈ q, f.context.depth ≤ (p.expanded.length + 1) * (s.catalog.types.length + 2)

namespace Pass.Bounded

variable {s : Settings} {q : List Deferral} {p p' : Pass} {f : Deferral} {w w' : Workspace}

theorem tail (h : p.Bounded s (f :: q)) (hp : p'.expanded = p.expanded) : p'.Bounded s q where
  served := hp ▸ h.served
  distinct := hp ▸ h.distinct
  queue g hg := h.queue g (List.mem_cons_of_mem _ hg)
  depth g hg := hp ▸ h.depth g (List.mem_cons_of_mem _ hg)

theorem distinct_append (h : p.Bounded s q) (hf : p.children? f.node = none) :
    (p.expanded.map (·.1) ++ [f.node]).Pairwise fun a b => (a == b) = false := by
  refine List.pairwise_append.2 ⟨h.distinct, List.pairwise_singleton _ _, fun a ha b hb => ?_⟩
  obtain ⟨e, he, rfl⟩ := List.mem_map.1 ha
  cases List.mem_singleton.1 hb
  have hfind := List.find?_eq_none.1 (Option.map_eq_none_iff.1 hf) e he
  simpa using hfind

theorem served_append (h : p.Bounded s (f :: q)) :
    ∀ g ∈ p.expanded.map (·.1) ++ [f.node], s.Serves g := by
  intro g hg
  rcases List.mem_append.1 hg with hg | hg
  · exact h.served g hg
  · rw [List.mem_singleton.1 hg]
    exact h.queue f List.mem_cons_self

theorem room (h : p.Bounded s (f :: q)) (hf : p.children? f.node = none)
    (hdepth : s.catalog.depthBound ≤ s.maxDepth) :
    f.context.depth + s.catalog.types.length + 1 ≤ s.maxDepth := by
  -- the node itself counts: one less than all providers were expanded before it
  have hlength := length_le_services h.served_append (h.distinct_append hf)
  rw [List.length_append, List.length_map, List.length_singleton] at hlength
  have hcontext := h.depth f List.mem_cons_self
  have hle := Nat.mul_le_mul_right (s.catalog.types.length + 2) hlength
  unfold depthBound at hdepth
  rw [Nat.succ_mul] at hdepth
  omega

theorem note {children : List Resolved} (h : p.Bounded s (f :: q)) (hs : s.Plainly)
    (hf : p.children? f.node = none) {fs : List Deferral}
    (hfs : ∀ g ∈ fs, ∃ d ∈ s.catalog.needs f.node, s.PutsOff d f.context g)
    (hp : p'.expanded = p.expanded ++ [(f.node, children)]) : p'.Bounded s (q ++ fs) := by
  have hnodes : p'.expanded.map (·.1) = p.expanded.map (·.1) ++ [f.node] := by
    rw [hp, List.map_append]
    rfl
  have hlength : p'.expanded.length = p.expanded.length + 1 := by
    rw [hp, List.length_append, List.length_singleton]
  have hneeds := (h.queue f List.mem_cons_self).needs
  refine ⟨hnodes ▸ h.served_append, hnodes ▸ h.distinct_append hf, fun g hg => ?_, fun g hg => ?_⟩
  · rcases List.mem_append.1 hg with hg | hg
    · exact h.queue g (List.mem_cons_of_mem _ hg)
    · obtain ⟨d, hd, hputs⟩ := hfs g hg
      exact hputs.serves_bare hs (hneeds d hd)
  · rw [hlength, Nat.succ_mul (p.expanded.length + 1)]
    rcases List.mem_append.1 hg with hg | hg
    · exact (h.depth g (List.mem_cons_of_mem _ hg)).trans (Nat.le_add_right _ _)
    · obtain ⟨d, hd, hputs⟩ := hfs g hg
      have hcontext := h.depth f List.mem_cons_self
      have hle := hputs.depth_le hs (hneeds d hd)
      have hheight := s.catalog.height_le d
      omega

theorem processDeferral (hs : s.Plainly) (hdepth : s.catalog.depthBound ≤ s.maxDepth)
    (h : p.Bounded s (f :: w.queue)) :
    ∃ p' w', (s.processDeferral p f).Runs w (.ok p') w' ∧ p'.Bounded s w'.queue := by
  cases hskip : p.backEdges.contains f.node || !p.root.reaches f.node with
  | true => exact ⟨p, w, runs_processDeferral.2 (.skipped hskip), h.tail rfl⟩
  | false =>
    cases hf : p.children? f.node with
    | some children => exact ⟨_, w, runs_processDeferral.2 (.repeated hskip hf), h.tail rfl⟩
    | none =>
      obtain ⟨children, p1, w', hexpand, hexpanded⟩ := exists_expandChildren hs f.node
        (h.room hf hdepth) (h.queue f List.mem_cons_self).needs f.node p w
      obtain ⟨-, fs, hqueue, hfs⟩ := queues_expandChildren _ _ _ hexpand
      refine ⟨_, w', runs_processDeferral.2 (.expanded hskip hf hexpand), ?_⟩
      rw [hqueue]
      exact h.note hs hf hfs (congrArg (· ++ [(f.node, children)]) hexpanded)

theorem drains (hs : s.Plainly) (hdepth : s.catalog.depthBound ≤ s.maxDepth) {o : Attempt Pass}
    (h : Drains s p w o w') (hp : p.Bounded s w.queue) : ∃ p', o = .ok p' := by
  induction h with
  | done _ => exact ⟨_, rfl⟩
  | @failed p w _ _ rest _ hq hrun =>
    rw [hq] at hp
    obtain ⟨_, _, hok, -⟩ := processDeferral (w := { w with queue := rest }) hs hdepth hp
    cases (hrun.unique hok).1
  | @next p _ w _ _ _ rest _ hq hrun _ ih =>
    rw [hq] at hp
    obtain ⟨p', v, hok, hp'⟩ := processDeferral (w := { w with queue := rest }) hs hdepth hp
    obtain ⟨he, rfl⟩ := hrun.unique hok
    cases he
    exact ih hp'

end Pass.Bounded

/-! ## Calls -/

namespace Solver

variable {s : Settings} {v : Solver} {d : Desire} {w w' : Workspace} {o : Attempt Pass}

theorem Calls.ok (hs : v.settings.Plainly)
    (hdepth : v.settings.catalog.depthBound ≤ v.settings.maxDepth)
    (hd : v.settings.catalog.Sought d) (hw : w.queue = []) (h : v.Calls d w o w') :
    ∃ p, o = .ok p := by
  have hheight := v.settings.catalog.height_le d
  cases h with
  | unresolved hfail =>
    obtain ⟨_, _, hok⟩ := exists_resolves (k := .initial) hs hd hheight (by
      unfold depthBound at hdepth
      rw [Nat.succ_mul] at hdepth
      show 0 + _ ≤ _
      omega) w
    cases (hfail.unique hok).1
  | drained hok hmerge hbuild hdrains =>
    obtain ⟨-, rfl⟩ := runs_merge.1 hmerge
    obtain ⟨-, rfl⟩ := runs_build.1 hbuild
    have hputs := hok.putsOff hw
    refine Pass.Bounded.drains hs hdepth hdrains
      ⟨by simp, by simp, fun f hf => (hputs f hf).serves_bare hs hd, fun f hf => ?_⟩
    have hle := (hputs f hf).depth_le hs hd
    change _ ≤ 0 + _ + 1 at hle
    show _ ≤ (0 + 1) * _
    omega

theorem resolve_ok (hs : v.settings.Plainly)
    (hdepth : v.settings.catalog.depthBound ≤ v.settings.maxDepth)
    (hd : v.settings.catalog.Sought d) (tag : Nat) :
    ((v.resolve d).run tag).1.result = .ok () := by
  obtain ⟨o, w', hcalls, hresult, -⟩ := v.exists_calls d tag
  obtain ⟨p, rfl⟩ := hcalls.ok hs hdepth hd rfl
  exact hresult

theorem resolveAll_ok (hs : s.Plainly) (hdepth : s.catalog.depthBound ≤ s.maxDepth)
    (hv : v.settings = s) {ds : List Desire} (hds : ∀ d ∈ ds, s.catalog.Sought d) (tag : Nat) :
    ((v.resolveAll ds).run tag).1.map (fun call => (call.1, call.2.result)) =
      ds.map fun d => (d, .ok ()) := by
  induction ds generalizing v tag with
  | nil => rfl
  | cons d ds ih =>
    subst hv
    rw [run_resolveAll_cons, List.map_cons, List.map_cons,
      resolve_ok hs hdepth (hds d List.mem_cons_self),
      ih (settings_resolve ..) fun d hd => hds d (List.mem_cons_of_mem _ hd)]

/-- Providers break every cycle: no call for a registered class fails, where contexts may be as deep
as the bound that the catalog gives. -/
theorem resolveAll_ok_of_grounded {types : List TypeSpec} {qualifiers : List QualifierSpec}
    {config : Config} {roots : List (TypeKey × Option Qualifier)}
    (hc : (freeze types qualifiers).Definite) (hg : (freeze types qualifiers).Grounded)
    (hdepth : (freeze types qualifiers).depthBound ≤ config.maxDepth)
    (hroots : ∀ r ∈ roots, (freeze types qualifiers).isInstantiable r.1 = true)
    (orders : Nat → BackEdges.Order) (tag : Nat) :
    let c := freeze types qualifiers
    let ds := roots.map fun r => c.rootDesire r.1 r.2
    let s := Settings.ofConfig c [] config
    let run := (do (← ofSettings s orders).resolveAll ds : Dag.Fresh _).run tag |>.1
    run.map (fun call => (call.1, call.2.result)) = ds.map fun d => (d, .ok ()) := by
  intro c ds s run
  have hs : s.Plainly := ⟨rfl, frozen_freeze types qualifiers, hc, hg⟩
  refine resolveAll_ok hs hdepth rfl (fun d hd => ?_) _
  obtain ⟨r, hr, rfl⟩ := List.mem_map.1 hd
  exact sought_rootDesire hc (hroots r hr) r.2

/-- Two classes that need each other over providers, one of them over a provider of a provider. -/
theorem resolveAll_ok_of_ring :
    let a : TypeSpec := ⟨.named "A", true, [], [⟨some (.named "A"), "b", .named "B", none, false⟩,
      ⟨some (.named "A"), "next", .provider (.provider (.named "A")), none, false⟩], {},
      .noPreference, none, none⟩
    let b : TypeSpec := ⟨.named "B", true, [],
      [⟨some (.named "B"), "back", .provider (.named "A"), none, false⟩], {}, .noPreference, none,
      none⟩
    let c := freeze [a, b] []
    let roots := [(TypeKey.named "A", none), (.named "B", none), (.named "A", none)]
    let ds := roots.map fun r => c.rootDesire r.1 r.2
    let run := (do (← ofSettings (.ofConfig c [] {})).resolveAll ds : Dag.Fresh _).run 0 |>.1
    c.Definite ∧ c.Grounded ∧ c.depthBound ≤ 100 ∧
      run.map (fun call => (call.1, call.2.result)) = ds.map fun d => (d, .ok ()) := by
  intro a b c roots ds run
  have hc : c.Definite := definite_of_types (by decide +kernel) (by decide +kernel)
  have hg : c.Grounded := by
    refine grounded_of_lt (f := fun t => if t = .named "A" then 1 else 0) ?_
    decide +kernel
  have hdepth : c.depthBound ≤ 100 := by decide +kernel
  exact ⟨hc, hg, hdepth, resolveAll_ok_of_grounded hc hg hdepth (by decide +kernel) _ 0⟩

end Solver

end Wiring
