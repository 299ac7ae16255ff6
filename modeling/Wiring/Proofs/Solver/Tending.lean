import Wiring.Proofs.Dag.Replace
import Wiring.Proofs.Solver.Queue

/-!
# Nodes that are tended

While deferrals are looked at, a node has its edges and back-edges, or it is bare and waits in the
queue, or it is the one that is being expanded. Every step keeps that. The back-edges may hold heads
that the graph does not have; they are covered, or busy, before and after each step.
-/

namespace Wiring

open Settings Catalog

variable {c : Catalog} {whole : Prop} {q q' : List Deferral} {busy : Graph → Prop}
  {root x y k current new child node : Graph} {dep : Dependency} {d : Desire} {rest : List Desire}
  {b : BackEdges}

/-- The node is covered, or bare with a deferral in the queue, or busy. -/
def Catalog.Tended (c : Catalog) (b : BackEdges) (q : List Deferral) (busy : Graph → Prop)
    (y : Graph) : Prop :=
  c.Covered b y ∨ y.edges = [] ∧ Waits q y ∨ busy y

/-- What holds of a graph with some back-edges. Its own nodes are tended only if it is `whole`: the
back-edges of a graph that is not may have gone. -/
structure Tending (c : Catalog) (whole : Prop) (busy : Graph → Prop) (q : List Deferral)
    (root : Graph) (b : BackEdges) : Prop where
  wellBuilt : root.WellBuilt
  head : b.AllHeads fun k => k.WellBuilt ∧ (c.Covered b k ∨ busy k)
  node : whole → ∀ y, root.Has y → c.Tended b q busy y

structure Filling (c : Catalog) (whole : Prop) (q : List Deferral) (root : Graph) (b : BackEdges)
    (current : Graph) (rest : List Desire) : Prop
    extends Tending c whole (fun y => (y == current) = true) q root b where
  built : current.WellBuilt
  reached : root.reaches current = true
  done : ∀ d ∈ c.needs current, d ∈ rest ∨ HasEdge current d ∨ HasBackEdge b current d

theorem Tending.heads (h : Tending c whole busy q root b) : b.AllHeads Dag.WellBuilt :=
  fun e he => (h.head e he).1

theorem Catalog.Tended.mono (h : c.Tended b q busy y) (hq : ∀ f ∈ q, f ∈ q') :
    c.Tended b q' busy y := by
  refine h.imp_right (Or.imp_left ?_)
  rintro ⟨hedges, f, hf, hfy⟩
  exact ⟨hedges, f, hq f hf, hfy⟩

theorem Filling.mono (h : Filling c whole q root b current rest) (hq : ∀ f ∈ q, f ∈ q') :
    Filling c whole q' root b current rest :=
  ⟨⟨h.wellBuilt, h.head, fun hw y hy => (h.node hw y hy).mono hq⟩, h.built, h.reached, h.done⟩

/-! ## Replacing a node -/

theorem withChild_label (current : Graph) (dep : Dependency) (child : Graph) (tag : Nat) :
    (withChild current dep child tag).label = current.label :=
  Dag.Draft.label_addEdge _ _ _

theorem withChild_wellBuilt (hw : current.WellBuilt) (dep : Dependency) (hchild : child.WellBuilt)
    (tag : Nat) : (withChild current dep child tag).WellBuilt :=
  Dag.Draft.Ready.build (hw.copy.addEdge dep hchild) tag

theorem needs_withChild (current : Graph) (dep : Dependency) (child : Graph) (tag : Nat) :
    c.needs (withChild current dep child tag) = c.needs current :=
  needs_congr (withChild_label ..)

theorem mem_withChild {tag : Nat} {e : Resolved}
    (he : e ∈ (withChild current dep child tag).edges) : e ∈ current.edges ∨ e = (dep, child) :=
  Dag.Draft.mem_addEdge he

theorem subset_withChild {tag : Nat} {e : Resolved} (he : e ∈ current.edges) :
    e ∈ (withChild current dep child tag).edges :=
  Dag.Draft.subset_addEdge he

theorem exists_withChild (current : Graph) (dep : Dependency) (child : Graph) (tag : Nat) :
    ∃ f ∈ (withChild current dep child tag).edges, (f.1 == dep) = true ∧ (f.2 == child) = true :=
  Dag.Draft.exists_addEdge _ _ _

section Replace

variable {r : Graph × Dag.Memo Component Dependency} {order : BackEdges.Order}

theorem label_imageOf (h : Dag.NodeReplaced current new root .empty r)
    (hl : new.label = current.label) (x : Graph) : (x.label == (r.2.imageOf x).label) = true :=
  h.imageOf_label (by rw [hl]; exact BEq.rfl) x

theorem Catalog.Covered.image (hx : c.Covered b x)
    (h : Dag.NodeReplaced current new root .empty r) (hl : new.label = current.label)
    (hheads : b.AllHeads Dag.WellBuilt) (hne : (x == current) = false) :
    c.Covered (b.rekey order r.2) (r.2.imageOf x) :=
  hx.rekey hheads (fun e he => h.imageOf_wellBuilt (hheads e he)) (label_imageOf h hl x)
    (fun _ he => h.imageOf_edges hne he) (Dag.same_refl _)

theorem Catalog.Tended.kept (hx : c.Tended b q (fun y => (y == current) = true) x)
    (h : Dag.NodeReplaced current new root .empty r) (hheads : b.AllHeads Dag.WellBuilt)
    (hxw : x.WellBuilt) (hkept : x.reaches current = false) :
    c.Covered (b.rekey order r.2) x ∨ x.edges = [] ∧ Waits q x := by
  rcases hx with hcovered | hwaits | hbusy
  · exact .inl (hcovered.rekey hheads (fun e he => h.imageOf_wellBuilt (hheads e he)) BEq.rfl
      (fun e he => ⟨e, he, BEq.rfl⟩) (h.imageOf_kept hkept))
  · exact .inr hwaits
  · have := Dag.reaches_iff.2 ⟨x, .self x, Dag.beq_symm hxw hbusy⟩
    simp [hkept] at this

theorem Catalog.Tended.rebuilt (hx : c.Tended b q (fun y => (y == current) = true) x)
    (hne : (x == current) = false) (hcurrent : current.WellBuilt)
    (hold : x.reaches current = true) : c.Covered b x := by
  rcases hx with hcovered | ⟨hedges, -⟩ | hbusy
  · exact hcovered
  · obtain ⟨z, hz, hcz⟩ := Dag.reaches_iff.1 hold
    rcases hz.eq_or_below with rfl | ⟨e, he, _⟩
    · simp [Dag.beq_symm hcurrent hcz] at hne
    · simp [hedges] at he
  · simp [hbusy] at hne

theorem Filling.below (hg : Filling c whole q root b current rest)
    (h : Dag.NodeReplaced current new root .empty r) (hwhole : whole) {e : Resolved}
    (he : e ∈ current.edges) (hy : e.2.Has y) :
    c.Covered (b.rekey order r.2) y ∨ y.edges = [] ∧ Waits q y := by
  obtain ⟨x, hx, hcx⟩ := Dag.reaches_iff.1 hg.reached
  obtain ⟨f, hf, _, hef⟩ := Dag.edge_of_beq hcx he
  obtain ⟨z, hz, hyz⟩ := hy.congr hef
  have hzx : root.Has z := hx.trans (.step hf hz)
  have hzw := hzx.wellBuilt hg.wellBuilt
  have hzy := Dag.beq_symm (hy.wellBuilt (hg.built.tail he)) hyz
  have hkept := Dag.reaches_below (Dag.beq_symm hg.built hcx) hf hz
  rcases (hg.node hwhole z hzx).kept h hg.heads hzw hkept with hcovered | ⟨hedges, f, hf, hfz⟩
  · exact .inl (hcovered.of_beq hzw hzy)
  · exact .inr ⟨(Dag.edges_eq_nil_iff hyz).2 hedges, f, hf, Dag.beq_trans hfz hzy⟩

variable {tag : Nat}

theorem Filling.node_replaced (hg : Filling c whole q root b current (d :: rest))
    (h : Dag.NodeReplaced current (withChild current dep child tag) root .empty r)
    (hchild : ∀ y, child.Has y → c.Raw (Waits q) y) (hwhole : whole) (hy : r.1.Has y) :
    c.Tended (b.rekey order r.2) q (fun y => (y == withChild current dep child tag) = true) y := by
  have hl := withChild_label current dep child tag
  rcases h.has_cases hy with ⟨x, hx, hne, hold, rfl, -⟩ | hy | ⟨hy, hkept⟩
  · have hcovered := (hg.node hwhole x hx).rebuilt hne hg.built hold
    exact .inl (hcovered.image h hl hg.heads hne)
  · rcases hy.eq_or_below with rfl | ⟨e, he, hy⟩
    · exact .inr (.inr (Dag.same_refl _))
    · rcases mem_withChild he with he | rfl
      · exact (hg.below h hwhole he hy).imp_right .inl
      · exact (hchild y hy).complete.imp Complete.covered .inl
  · have hyw := hy.wellBuilt hg.wellBuilt
    exact ((hg.node hwhole y hy).kept h hg.heads hyw hkept).imp_right .inl

theorem Filling.head_replaced (hg : Filling c whole q root b current rest)
    (h : Dag.NodeReplaced current new root .empty r) (hl : new.label = current.label) :
    (b.rekey order r.2).AllHeads fun k => k.WellBuilt ∧
      (c.Covered (b.rekey order r.2) k ∨ (k == new) = true) := by
  refine BackEdges.AllHeads.rekey fun entry hentry => ?_
  obtain ⟨hw, hcovered⟩ := hg.head entry hentry
  refine ⟨h.imageOf_wellBuilt hw, ?_⟩
  by_cases hbusy : (entry.1 == current) = true
  · right
    have himages := Dag.Memo.imageOf_congr (m := r.2) hw hbusy
    rwa [h.imageOf_old hg.wellBuilt hg.built hg.reached] at himages
  · left
    exact (hcovered.resolve_right hbusy).image h hl hg.heads (by simpa using hbusy)

theorem Filling.done_replaced (hg : Filling c whole q root b current (d :: rest))
    (h : Dag.NodeReplaced current (withChild current dep child tag) root .empty r)
    (hdep : dep.initial = d) :
    ∀ d' ∈ c.needs (withChild current dep child tag), d' ∈ rest ∨
      HasEdge (withChild current dep child tag) d' ∨
      HasBackEdge (b.rekey order r.2) (withChild current dep child tag) d' := by
  intro d' hd'
  rw [needs_withChild] at hd'
  rcases hg.done d' hd' with hd' | ⟨e, he, hed⟩ | hback
  · rcases List.mem_cons.1 hd' with rfl | hd'
    · obtain ⟨f, hf, hfd, _⟩ := exists_withChild current dep child tag
      exact .inr (.inl ⟨f, hf, hdep ▸ Dependency.initial_beq hfd⟩)
    · exact .inl hd'
  · exact .inr (.inl ⟨e, subset_withChild he, hed⟩)
  · have himage := h.imageOf_old hg.wellBuilt hg.built hg.reached
    exact .inr (.inr (hback.rekey hg.heads (fun e he => h.imageOf_wellBuilt (hg.heads e he))
      (himage ▸ Dag.same_refl _)))

theorem Filling.replaced (hg : Filling c whole q root b current (d :: rest))
    (h : Dag.NodeReplaced current (withChild current dep child tag) root .empty r)
    (hdep : dep.initial = d) (hchild : ∀ y, child.Has y → c.Raw (Waits q) y) :
    Filling c whole q r.1 (b.rekey order r.2) (withChild current dep child tag) rest where
  wellBuilt := h.wellBuilt
  head := hg.head_replaced h (withChild_label current dep child tag)
  node hwhole _ hy := hg.node_replaced h hchild hwhole hy
  built := withChild_wellBuilt hg.built dep (hchild child (.self _)).wellBuilt tag
  reached := by
    obtain ⟨x, hx, hcx⟩ := Dag.reaches_iff.1 hg.reached
    obtain ⟨i, hi, hir, himage⟩ := h.image
    have hbelow : ∀ e ∈ current.edges, (withChild current dep child tag).reaches e.2 = true :=
      fun e he => Dag.reaches_of_edge (subset_withChild he) (Dag.Has.self _).reaches
    have hreach := h.image_reaches hbelow hg.built hx hg.wellBuilt hcx hi hir
    rwa [himage, h.imageOf_old hg.wellBuilt hg.built hg.reached] at hreach
  done := hg.done_replaced h hdep

end Replace

/-! ## Closing a cycle -/

theorem Catalog.Tended.append {es : List GraphEdge} (h : c.Tended b q busy y)
    (hheads : b.AllHeads Dag.WellBuilt) (hk : k.WellBuilt) : c.Tended (b.append k es) q busy y :=
  h.imp_left (·.append hheads hk)

theorem Filling.closed (hg : Filling c whole q root b current (d :: rest))
    (hdep : dep.initial = d) (child : Graph) :
    Filling c whole q root (b.append current [⟨current, child, dep⟩]) current rest where
  wellBuilt := hg.wellBuilt
  head := by
    refine BackEdges.AllHeads.append (fun e he => ?_) ⟨hg.built, .inr (Dag.same_refl current)⟩
    obtain ⟨hw, hcovered⟩ := hg.head e he
    exact ⟨hw, hcovered.imp_left (·.append hg.heads hg.built)⟩
  node hwhole y hy := (hg.node hwhole y hy).append hg.heads hg.built
  built := hg.built
  reached := hg.reached
  done d' hd' := by
    rcases hg.done d' hd' with hd' | hedge | hback
    · rcases List.mem_cons.1 hd' with rfl | hd'
      · refine .inr (.inr ⟨⟨current, child, dep⟩, ?_, hdep ▸ BEq.rfl⟩)
        rw [BackEdges.edgesOf_append hg.heads hg.built, if_pos (Dag.same_refl current)]
        simp
      · exact .inl hd'
    · exact .inr (.inl hedge)
    · exact .inr (.inr (hback.append hg.heads hg.built))

/-! ## One deferral -/

abbrev Tending.Idle (c : Catalog) (whole : Prop) (q : List Deferral) (root : Graph)
    (b : BackEdges) : Prop :=
  Tending c whole (fun _ => False) q root b

variable {f : Deferral}

theorem Tending.start (h : Tending.Idle c whole (f :: q) root b) (hf : f.node.WellBuilt)
    (hreach : root.reaches f.node = true) :
    Filling c whole q root b f.node (c.needs f.node) where
  wellBuilt := h.wellBuilt
  head e he := ⟨(h.head e he).1, .inl ((h.head e he).2.resolve_right id)⟩
  node hwhole y hy := by
    rcases h.node hwhole y hy with hcovered | ⟨hedges, g, hg, hgy⟩ | hfalse
    · exact .inl hcovered
    · rcases List.mem_cons.1 hg with rfl | hg
      · exact .inr (.inr (Dag.beq_symm hf hgy))
      · exact .inr (.inl ⟨hedges, g, hg, hgy⟩)
    · exact hfalse.elim
  built := hf
  reached := hreach
  done _ hd := .inl hd

theorem Filling.finish (h : Filling c whole q root b current []) :
    Tending.Idle c whole q root b := by
  have hcovered : c.Covered b current := fun d hd => (h.done d hd).resolve_left (by simp)
  have hequal : ∀ y : Graph, y.WellBuilt → (y == current) = true → c.Covered b y :=
    fun y hyw hy => hcovered.of_beq h.built (Dag.beq_symm hyw hy)
  refine ⟨h.wellBuilt, fun e he => ?_, fun hwhole y hy => ?_⟩
  · obtain ⟨hw, hhead⟩ := h.head e he
    exact ⟨hw, .inl (hhead.elim id (hequal e.1 hw))⟩
  · rcases h.node hwhole y hy with hnode | hwaits | hbusy
    · exact .inl hnode
    · exact .inr (.inl hwaits)
    · exact .inl (hequal y (hy.wellBuilt h.wellBuilt) hbusy)

theorem Tending.drop (h : Tending.Idle c whole (f :: q) root b)
    (hskip : (b.contains f.node || !root.reaches f.node) = true) :
    Tending.Idle c whole q root b := by
  refine ⟨h.wellBuilt, h.head, fun hwhole y hy => ?_⟩
  rcases h.node hwhole y hy with hcovered | ⟨hedges, g, hg, hgy⟩ | hfalse
  · exact .inl hcovered
  · rcases List.mem_cons.1 hg with rfl | hg
    · rw [Bool.or_eq_true] at hskip
      rcases hskip with hcontains | hreach
      · obtain ⟨entry, hentry, hk⟩ := BackEdges.contains_iff.1 hcontains
        obtain ⟨hw, hcovered⟩ := h.head entry hentry
        exact .inl ((hcovered.resolve_right id).of_beq hw (Dag.beq_trans hk hgy))
      · have := Dag.reaches_of_beq hy.reaches hgy
        simp [this] at hreach
    · exact .inr (.inl ⟨hedges, g, hg, hgy⟩)
  · exact hfalse.elim

theorem Catalog.Covered.set {children : List Resolved} (hb : b.AllHeads Dag.WellBuilt)
    (hnode : node.WellBuilt)
    (hchildren : ∀ d ∈ c.needs node, ∃ e ∈ children, (e.1.initial == d) = true)
    (hy : c.Covered b y ∨ (node == y) = true) :
    c.Covered (b.set node (children.map fun e => ⟨node, e.2, e.1⟩)) y := by
  intro d hd
  by_cases hny : (node == y) = true
  · obtain ⟨d', hd', hdd⟩ := needs_of_label (BEq.symm (Dag.label_beq hny)) hd
    obtain ⟨e, he, hed⟩ := hchildren d' hd'
    refine .inr ⟨⟨node, e.2, e.1⟩, ?_, BEq.trans hed (BEq.symm hdd)⟩
    rw [BackEdges.edgesOf_set hb hnode, if_pos hny]
    exact List.mem_map_of_mem he
  · refine ((hy.resolve_right hny) d hd).imp_right fun ⟨e, he, hed⟩ => ⟨e, ?_, hed⟩
    rw [BackEdges.edgesOf_set hb hnode, if_neg hny]
    exact he

theorem Tending.again {children : List Resolved} (h : Tending.Idle c whole (f :: q) root b)
    (hf : f.node.WellBuilt)
    (hchildren : ∀ d ∈ c.needs f.node, ∃ e ∈ children, (e.1.initial == d) = true) :
    Tending.Idle c whole q root (b.set f.node (children.map fun e => ⟨f.node, e.2, e.1⟩)) := by
  have hcovered : ∀ y, c.Covered b y ∨ (f.node == y) = true →
      c.Covered (b.set f.node (children.map fun e => ⟨f.node, e.2, e.1⟩)) y :=
    fun y hy => Covered.set h.heads hf hchildren hy
  refine ⟨h.wellBuilt, ?_, fun hwhole y hy => ?_⟩
  · refine BackEdges.AllHeads.set (fun e he => ?_)
      ⟨hf, .inl (hcovered f.node (.inr (Dag.same_refl _)))⟩
    obtain ⟨hw, hhead⟩ := h.head e he
    exact ⟨hw, .inl (hcovered e.1 (.inl (hhead.resolve_right id)))⟩
  · rcases h.node hwhole y hy with hnode | ⟨hedges, g, hg, hgy⟩ | hfalse
    · exact .inl (hcovered y (.inl hnode))
    · rcases List.mem_cons.1 hg with rfl | hg
      · exact .inl (hcovered y (.inr hgy))
      · exact .inr (.inl ⟨hedges, g, hg, hgy⟩)
    · exact hfalse.elim

end Wiring
