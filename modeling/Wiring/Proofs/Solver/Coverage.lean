import Wiring.Proofs.BackEdges
import Wiring.Proofs.Solver.Tree

/-!
# Covered dependencies

Whether the declared dependencies of a node have edges, own ones or back-edges, and whether the
node has edges for nothing else. Equal nodes agree on that.
-/

namespace Wiring

namespace Catalog

def needs (c : Catalog) (g : Graph) : List Desire := g.label.satisfaction.dependencies c

def HasEdge (g : Graph) (d : Desire) : Prop := ∃ e ∈ g.edges, (e.1.initial == d) = true

def HasBackEdge (b : BackEdges) (g : Graph) (d : Desire) : Prop :=
  ∃ e ∈ b.edgesOf g, (e.label.initial == d) = true

def Declared (c : Catalog) (g : Graph) : Prop :=
  ∀ e ∈ g.edges, ∃ d ∈ c.needs g, (e.1.initial == d) = true

def Complete (c : Catalog) (g : Graph) : Prop := ∀ d ∈ c.needs g, HasEdge g d

/-- Every declared dependency has an edge or a back-edge. -/
def Covered (c : Catalog) (b : BackEdges) (g : Graph) : Prop :=
  ∀ d ∈ c.needs g, HasEdge g d ∨ HasBackEdge b g d

variable {c : Catalog} {b : BackEdges} {g k : Graph} {d d' : Desire}

theorem dependencies_of_beq {s t : Satisfaction} (h : (s == t) = true)
    (hd : d ∈ s.dependencies c) : ∃ d' ∈ t.dependencies c, (d == d') = true := by
  change s.same t = true at h
  cases s <;> cases t <;> simp only [Satisfaction.same, Bool.false_eq_true, Bool.and_eq_true,
    beq_iff_eq] at h
  case construct =>
    subst h
    exact ⟨d, hd, BEq.rfl⟩
  case viaClass =>
    obtain ⟨rfl, rfl⟩ := h
    exact ⟨d, hd, BEq.rfl⟩
  case injected e _ f =>
    simp only [Satisfaction.dependencies, List.mem_singleton] at hd ⊢
    exact ⟨f, rfl, hd ▸ h⟩
  all_goals simp [Satisfaction.dependencies] at hd

theorem needs_congr (h : g.label = k.label) : c.needs g = c.needs k := by
  unfold needs
  rw [h]

theorem needs_of_label (h : (g.label == k.label) = true) (hd : d ∈ c.needs g) :
    ∃ d' ∈ c.needs k, (d == d') = true :=
  dependencies_of_beq ((Component.beq_iff _ _).1 h).1 hd

theorem needs_of_beq (h : (g == k) = true) (hd : d ∈ c.needs g) :
    ∃ d' ∈ c.needs k, (d == d') = true :=
  needs_of_label (Dag.label_beq h) hd

theorem HasEdge.of_beq (h : HasEdge g d) (hg : (g == k) = true) (hd : (d == d') = true) :
    HasEdge k d' := by
  obtain ⟨e, he, hed⟩ := h
  obtain ⟨f, hf, hef, _⟩ := Dag.edge_of_beq hg he
  exact ⟨f, hf, BEq.trans (BEq.symm (Dependency.initial_beq hef)) (BEq.trans hed hd)⟩

theorem HasBackEdge.of_beq (h : HasBackEdge b g d) (hg : g.WellBuilt) (hk : (g == k) = true)
    (hd : (d == d') = true) : HasBackEdge b k d' := by
  obtain ⟨e, he, hed⟩ := h
  exact ⟨e, BackEdges.edgesOf_congr hg hk ▸ he, BEq.trans hed hd⟩

theorem Declared.of_beq (h : c.Declared g) (hg : g.WellBuilt) (hk : (g == k) = true) :
    c.Declared k := by
  intro f hf
  obtain ⟨e, he, hfe, _⟩ := Dag.edge_of_beq_symm hg hk hf
  obtain ⟨d, hd, hed⟩ := h e he
  obtain ⟨d', hd', hdd⟩ := needs_of_beq hk hd
  exact ⟨d', hd', BEq.trans (Dependency.initial_beq hfe) (BEq.trans hed hdd)⟩

theorem Complete.of_beq (h : c.Complete g) (hg : g.WellBuilt) (hk : (g == k) = true) :
    c.Complete k := by
  intro d hd
  obtain ⟨d', hd', hdd⟩ := needs_of_beq (Dag.beq_symm hg hk) hd
  exact (h d' hd').of_beq hk (BEq.symm hdd)

theorem Complete.covered (h : c.Complete g) : c.Covered b g := fun d hd => .inl (h d hd)

theorem Covered.of_beq (h : c.Covered b g) (hg : g.WellBuilt) (hk : (g == k) = true) :
    c.Covered b k := by
  intro d hd
  obtain ⟨d', hd', hdd⟩ := needs_of_beq (Dag.beq_symm hg hk) hd
  exact (h d' hd').imp (·.of_beq hk (BEq.symm hdd)) (·.of_beq hg hk (BEq.symm hdd))

/-! ## What changing the back-edges keeps -/

theorem HasBackEdge.append {es : List GraphEdge} (h : HasBackEdge b g d)
    (hheads : b.AllHeads Dag.WellBuilt) (hk : k.WellBuilt) : HasBackEdge (b.append k es) g d := by
  obtain ⟨e, he, hed⟩ := h
  refine ⟨e, ?_, hed⟩
  rw [BackEdges.edgesOf_append hheads hk]
  split
  · exact List.mem_append_left _ he
  · exact he

theorem HasBackEdge.rekey {m : Dag.Memo Component Dependency} {order : BackEdges.Order}
    (h : HasBackEdge b g d)
    (hheads : b.AllHeads Dag.WellBuilt)
    (himages : ∀ entry ∈ b.entries, (m.imageOf entry.1).WellBuilt)
    (himage : (m.imageOf g == k) = true) : HasBackEdge (b.rekey order m) k d := by
  obtain ⟨e, he, hed⟩ := h
  obtain ⟨f, hf, hfe⟩ := BackEdges.moved_mem_edgesOf_rekey himages hheads he himage
  exact ⟨f, hf, hfe ▸ hed⟩

theorem Covered.append {es : List GraphEdge} (h : c.Covered b g)
    (hheads : b.AllHeads Dag.WellBuilt) (hk : k.WellBuilt) : c.Covered (b.append k es) g :=
  fun d hd => (h d hd).imp_right (·.append hheads hk)

theorem Covered.rekey {m : Dag.Memo Component Dependency} {order : BackEdges.Order}
    (h : c.Covered b g)
    (hheads : b.AllHeads Dag.WellBuilt)
    (himages : ∀ entry ∈ b.entries, (m.imageOf entry.1).WellBuilt)
    (hlabel : (g.label == k.label) = true)
    (hedges : ∀ e ∈ g.edges, ∃ f ∈ k.edges, (f.1 == e.1) = true)
    (himage : (m.imageOf g == k) = true) : c.Covered (b.rekey order m) k := by
  intro d hd
  obtain ⟨d', hd', hdd⟩ := needs_of_label (BEq.symm hlabel) hd
  rcases h d' hd' with ⟨e, he, hed⟩ | hback
  · obtain ⟨f, hf, hfe⟩ := hedges e he
    exact .inl ⟨f, hf, BEq.trans (Dependency.initial_beq hfe) (BEq.trans hed (BEq.symm hdd))⟩
  · obtain ⟨f, hf, hfd⟩ := hback.rekey hheads himages himage
    exact .inr ⟨f, hf, BEq.trans hfd (BEq.symm hdd)⟩

/-! ## Trees -/

/-- As the tree of a desire leaves its nodes: with all their edges or with none. -/
structure Raw (c : Catalog) (waiting : Graph → Prop) (g : Graph) : Prop where
  wellBuilt : g.WellBuilt
  declared : c.Declared g
  complete : c.Complete g ∨ g.edges = [] ∧ waiting g

theorem Raw.of_beq {waiting : Graph → Prop} (h : c.Raw waiting g) (hkw : k.WellBuilt)
    (hk : (g == k) = true) (hwaiting : waiting g → waiting k) : c.Raw waiting k := by
  refine ⟨hkw, h.declared.of_beq h.wellBuilt hk, ?_⟩
  rcases h.complete with hc | ⟨hedges, hw⟩
  · exact .inl (hc.of_beq h.wellBuilt hk)
  · exact .inr ⟨(Dag.edges_eq_nil_iff hk).1 hedges, hwaiting hw⟩

end Catalog

namespace Settings

variable {s : Settings} {q : List Deferral} {c : Context} {ds : List Desire} {es : List Resolved}

def Waits (q : List Deferral) (g : Graph) : Prop := ∃ f ∈ q, (f.node == g) = true

theorem Grown.initial (h : Grown s q c ds es) :
    List.Forall₂ (fun d e => e.1.initial = d) ds es := by
  induction h with
  | nil => exact .nil
  | deferred hr _ _ _ _ _ _ ih => exact .cons (Binds.settled hr).initial ih
  | expanded hr _ _ _ _ _ ih => exact .cons hr.initial ih

theorem needs_build (s : Settings) (r : Resolution) (edges : List Resolved) (tag : Nat) :
    s.catalog.needs ((s.draftOf r edges).build.run tag).1 =
      r.satisfaction.dependencies s.catalog := by
  show (s.draftOf r edges).label.satisfaction.dependencies s.catalog = _
  unfold draftOf
  rw [Dag.Draft.label_addEdges]
  rfl

theorem complete_build {r : Resolution} {edges : List Resolved}
    (h : List.Forall₂ (fun d e => e.1.initial = d) (r.satisfaction.dependencies s.catalog) edges)
    (tag : Nat) : s.catalog.Complete ((s.draftOf r edges).build.run tag).1 := by
  intro d hd
  rw [needs_build] at hd
  obtain ⟨f, hf, hfd⟩ := Dag.exists_of_forall₂ h d hd
  obtain ⟨g, hg, hgf, _⟩ := Dag.Draft.exists_addEdges (Dag.Draft.ofLabel _) hf
  exact ⟨g, hg, hfd ▸ Dependency.initial_beq hgf⟩

theorem Grown.raw (h : Grown s q c ds es) :
    ∀ e ∈ es, ∀ y, e.2.Has y → s.catalog.Raw (Waits q) y := by
  induction h with
  | nil => simp
  | @deferred _ _ _ f _ _ _ _ hf _ hbare _ _ ih =>
    intro e he y hy
    rcases List.mem_cons.1 he with rfl | he
    · rcases hy.eq_or_below with rfl | ⟨e, he, _⟩
      · exact ⟨hbare.wellBuilt, by simp [Catalog.Declared, hbare.edges],
          .inr ⟨hbare.edges, f, hf, Dag.same_refl _⟩⟩
      · simp [hbare.edges] at he
    · exact ih e he y hy
  | @expanded _ _ r _ _ edges tag _ _ _ hin _ hedges ih =>
    intro e he y hy
    rcases List.mem_cons.1 he with rfl | he
    · have hready : (s.draftOf r edges).Ready :=
        (Dag.Draft.ready_ofLabel _).addEdges fun e he => (hedges e he e.2 (.self _)).wellBuilt
      have horigin : ∀ f ∈ (s.draftOf r edges).edges, f ∈ edges := fun f hf =>
        (Dag.Draft.mem_addEdges hf).resolve_left (by simp)
      rcases hy.eq_or_below with rfl | ⟨f, hf, hy⟩
      · have hneeds := s.needs_build r edges tag
        refine ⟨hready.build tag, fun f hf => ?_, .inl (complete_build hin.initial tag)⟩
        obtain ⟨d, hd, hfd⟩ := Dag.exists_of_forall₂ hin.initial.flip f (horigin f hf)
        exact ⟨d, hneeds ▸ hd, by rw [hfd]; exact BEq.rfl⟩
      · exact hedges f (horigin f hf) y hy
    · exact ih e he y hy

end Settings

end Wiring
