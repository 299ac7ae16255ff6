import Wiring.Proofs.Solver.Tending

/-!
# What a pass over the deferrals keeps

Between two deferrals every node of the graph has its edges and back-edges, or it is bare and waits
in the queue. While a node is expanded it is the one exception. A back-edge leads to a node of the
graph or to a tree as it was resolved.
-/

namespace Wiring

open Settings Catalog

variable {c : Catalog} {q : List Deferral} {p : Pass} {busy : Graph → Prop}
  {x y k current new child parent : Graph} {dep : Dependency} {d : Desire} {rest : List Desire}
  {b : BackEdges} {m : Dag.Memo Component Dependency}

def RawTree (c : Catalog) (g : Graph) : Prop := ∀ y, g.Has y → c.Raw (fun _ => True) y

/-- An edge that closes a cycle: it is for a declared dependency of its head, and it leads to a node
of the graph or to a tree as it was resolved. -/
structure StoredEdge (c : Catalog) (root k : Graph) (e : GraphEdge) : Prop where
  head : (e.head == k) = true
  declared : ∃ d ∈ c.needs k, (e.label.initial == d) = true
  wellBuilt : e.tail.WellBuilt
  tail : root.Under e.tail ∨ RawTree c e.tail

structure FoundChildren (c : Catalog) (parent : Graph) (children : List Resolved) : Prop where
  declared : ∀ e ∈ children, ∃ d ∈ c.needs parent, (e.1.initial == d) = true
  complete : ∀ d ∈ c.needs parent, ∃ e ∈ children, (e.1.initial == d) = true
  tree : ∀ e ∈ children, RawTree c e.2

/-- What holds of a graph and its back-edges with a queue, where `busy` are the nodes that are being
expanded. -/
structure Wired (c : Catalog) (busy : Graph → Prop) (q : List Deferral) (root : Graph)
    (b : BackEdges) : Prop where
  wellBuilt : root.WellBuilt
  needs : c.needs root = []
  node : ∀ y, root.Has y → (y == root) = false →
    c.Declared y ∧ (c.Covered b y ∨ y.edges = [] ∧ Waits q y ∨ busy y)
  head : b.AllHeads fun k => k.WellBuilt ∧ root.Under k ∧ (c.Covered b k ∨ busy k)
  edge : b.AllEdges (StoredEdge c root)

structure Pass.Sound (c : Catalog) (busy : Graph → Prop) (q : List Deferral) (p : Pass) : Prop
    extends Wired c busy q p.root p.backEdges where
  rooted : p.root.edges ≠ []
  children : ∀ e ∈ p.expanded, FoundChildren c e.1 e.2

structure Growing (c : Catalog) (q : List Deferral) (p : Pass) (current : Graph)
    (rest : List Desire) : Prop where
  sound : p.Sound c (fun y => (y == current) = true) q
  wellBuilt : current.WellBuilt
  reached : p.root.Under current
  declared : c.Declared current
  done : ∀ d ∈ c.needs current, d ∈ rest ∨ HasEdge current d ∨ HasBackEdge p.backEdges current d

theorem Wired.heads {root : Graph} (h : Wired c busy q root b) : b.AllHeads Dag.WellBuilt :=
  fun e he => (h.head e he).1

theorem Wired.tending {root : Graph} (h : Wired c busy q root b) :
    Tending c True busy q root b where
  wellBuilt := h.wellBuilt
  head e he := ⟨(h.head e he).1, (h.head e he).2.2⟩
  node _ y hy := by
    by_cases hroot : (y == root) = true
    · refine .inl fun d hd => ?_
      obtain ⟨d', hd', _⟩ := needs_of_beq hroot hd
      simp [h.needs] at hd'
    · exact (h.node y hy (by simpa using hroot)).2

theorem Growing.filling (h : Growing c q p current rest) :
    Filling c True q p.root p.backEdges current rest :=
  ⟨h.sound.tending, h.wellBuilt, h.reached.reaches, h.done⟩

theorem Pass.Sound.mono {q' : List Deferral} (h : p.Sound c busy q) (hq : ∀ f ∈ q, f ∈ q') :
    p.Sound c busy q' where
  wellBuilt := h.wellBuilt
  needs := h.needs
  rooted := h.rooted
  node y hy hne := by
    obtain ⟨hdeclared, hy⟩ := h.node y hy hne
    refine ⟨hdeclared, hy.imp_right (Or.imp_left ?_)⟩
    rintro ⟨hedges, f, hf, hfy⟩
    exact ⟨hedges, f, hq f hf, hfy⟩
  head := h.head
  edge := h.edge
  children := h.children

theorem Growing.mono {q' : List Deferral} (h : Growing c q p current rest)
    (hq : ∀ f ∈ q, f ∈ q') : Growing c q' p current rest :=
  ⟨h.sound.mono hq, h.wellBuilt, h.reached, h.declared, h.done⟩

/-! ## Replacing a node -/

theorem Pass.Sound.raw_not_root {P : Graph → Prop} (h : p.Sound c busy q) (hx : c.Raw P x) :
    (x == p.root) = false := by
  rw [Bool.eq_false_iff]
  intro hxr
  obtain ⟨e, he⟩ := List.exists_mem_of_ne_nil _ h.rooted
  obtain ⟨f, hf, _⟩ := Dag.edge_of_beq_symm hx.wellBuilt hxr he
  obtain ⟨d, hd, _⟩ := hx.declared f hf
  obtain ⟨d', hd', _⟩ := needs_of_beq hxr hd
  simp [h.needs] at hd'

section Replace

variable {r : Graph × Dag.Memo Component Dependency} {order : BackEdges.Order}

theorem Growing.declared_kept (hg : Growing c q p current rest) (hx : p.root.Has x)
    (hkept : x.reaches current = false) : c.Declared x := by
  have hxw := hx.wellBuilt hg.sound.wellBuilt
  have hne : (x == p.root) = false := by
    rw [Bool.eq_false_iff]
    intro hxr
    have := Dag.reaches_congr_left hg.reached.reaches (Dag.beq_symm hxw hxr)
    simp [hkept] at this
  exact (hg.sound.node x hx hne).1

theorem Growing.declared_below (hg : Growing c q p current rest) {e : Resolved}
    (he : e ∈ current.edges) (hy : e.2.Has y) : c.Declared y := by
  obtain ⟨x, hx, hcx⟩ := Dag.reaches_iff.1 hg.reached.reaches
  obtain ⟨f, hf, _, hef⟩ := Dag.edge_of_beq hcx he
  obtain ⟨z, hz, hyz⟩ := hy.congr hef
  have hzx : p.root.Has z := hx.trans (.step hf hz)
  have hzy := Dag.beq_symm (hy.wellBuilt (hg.wellBuilt.tail he)) hyz
  have hkept := Dag.reaches_below (Dag.beq_symm hg.wellBuilt hcx) hf hz
  exact (hg.declared_kept hzx hkept).of_beq (hzx.wellBuilt hg.sound.wellBuilt) hzy

theorem Growing.declared_rebuilt (hg : Growing c q p current rest)
    (h : Dag.NodeReplaced current new p.root .empty r) (hx : p.root.Has x)
    (himage : r.2.imageOf x = y) (hb : Dag.Rebuilt r.2 x y) (hy : (y == r.1) = false) :
    c.Declared y := by
  have hnr : (x == p.root) = false := by
    rw [Bool.eq_false_iff]
    intro hxr
    have himages := Dag.Memo.imageOf_congr (m := r.2) (hx.wellBuilt hg.sound.wellBuilt) hxr
    rw [himage, h.imageOf_root] at himages
    simp [himages] at hy
  intro f hf
  obtain ⟨e, he, hfe, _⟩ := hb.origin f hf
  obtain ⟨d, hd, hed⟩ := (hg.sound.node x hx hnr).1 e he
  exact ⟨d, needs_congr hb.label ▸ hd, hfe ▸ hed⟩

theorem Growing.declared_replaced {tag : Nat} (hg : Growing c q p current rest)
    (h : Dag.NodeReplaced current (withChild current dep child tag) p.root .empty r)
    (hdeclared : c.Declared (withChild current dep child tag))
    (hchild : ∀ y, child.Has y → c.Raw (Waits q) y) (hy : r.1.Has y) (hne : (y == r.1) = false) :
    c.Declared y := by
  rcases h.has_cases hy with ⟨x, hx, -, -, himage, hb⟩ | hy | ⟨hy, hkept⟩
  · exact hg.declared_rebuilt h hx himage hb hne
  · rcases hy.eq_or_below with rfl | ⟨e, he, hy⟩
    · exact hdeclared
    · rcases mem_withChild he with he | rfl
      · exact hg.declared_below he hy
      · exact (hchild y hy).declared
  · exact hg.declared_kept hy hkept

theorem Growing.needs_root (hg : Growing c q p current rest)
    (h : Dag.NodeReplaced current new p.root .empty r) (hl : new.label = current.label) :
    c.needs r.1 = [] := by
  refine List.eq_nil_iff_forall_not_mem.2 fun d hd => ?_
  have hlabel := BEq.symm (label_imageOf h hl p.root)
  rw [h.imageOf_root] at hlabel
  obtain ⟨d', hd', _⟩ := needs_of_label hlabel hd
  simp [hg.sound.needs] at hd'

theorem Growing.heads (hg : Growing c q p current rest)
    (h : Dag.NodeReplaced current new p.root .empty r) (hl : new.label = current.label)
    (hbelow : ∀ e ∈ current.edges, new.reaches e.2 = true) :
    (p.backEdges.rekey order r.2).AllHeads fun k => k.WellBuilt ∧ r.1.Under k ∧
      (c.Covered (p.backEdges.rekey order r.2) k ∨ (k == new) = true) := by
  have hunder : (p.backEdges.rekey order r.2).AllHeads r.1.Under := by
    refine BackEdges.AllHeads.rekey fun entry hentry => ?_
    obtain ⟨hw, hreach, _⟩ := hg.sound.head entry hentry
    exact h.under_imageOf hbelow hw hg.sound.wellBuilt hg.reached.not_beq hreach
  intro e he
  obtain ⟨hw, hcovered⟩ := hg.filling.head_replaced h hl e he
  exact ⟨hw, hunder e he, hcovered⟩

theorem Growing.edges (hg : Growing c q p current rest)
    (h : Dag.NodeReplaced current new p.root .empty r) (hl : new.label = current.label)
    (hbelow : ∀ e ∈ current.edges, new.reaches e.2 = true) :
    (p.backEdges.rekey order r.2).AllEdges (StoredEdge c r.1) := by
  have hheads := hg.sound.heads
  refine BackEdges.AllEdges.rekey (fun entry hentry => h.imageOf_wellBuilt (hheads entry hentry))
    fun entry hentry e he k hkw hk => ?_
  have hkimage := Dag.beq_symm hkw hk
  obtain ⟨_, ⟨d, hd, hed⟩, htw, htail⟩ := hg.sound.edge entry hentry e he
  refine ⟨hkimage, ?_, h.imageOf_wellBuilt htw, ?_⟩
  · have hlabel := BEq.trans (label_imageOf h hl _) (Dag.label_beq hkimage)
    obtain ⟨d', hd', hdd⟩ := needs_of_label hlabel hd
    exact ⟨d', hd', BEq.trans hed hdd⟩
  · show r.1.Under (r.2.imageOf e.tail) ∨ RawTree c (r.2.imageOf e.tail)
    by_cases hreach : p.root.reaches e.tail = true
    · have hunder := htail.elim id fun hraw =>
        Dag.under_of_reaches hreach (hg.sound.raw_not_root (hraw e.tail (.self _)))
      exact .inl (h.under_imageOf hbelow htw hg.sound.wellBuilt hg.reached.not_beq hunder)
    · rcases r.2.imageOf_cases e.tail with ⟨i, hi, hit, _⟩ | ⟨_, himage⟩
      · have hir := Dag.beq_symm (h.replacing.source i hi) hit
        exact absurd (Dag.reaches_iff.2 ⟨i.1, h.has_source hi, hir⟩) hreach
      · rw [himage]
        exact .inr (htail.resolve_left fun hunder => hreach hunder.reaches)

end Replace

/-! ## Adding a child -/

theorem replaced_node (hroot : p.root.WellBuilt) (hnew : new.WellBuilt)
    (order : BackEdges.Order) (tag : Nat) :
    Dag.NodeReplaced current new p.root .empty
      ((replaced p current new order tag).root,
        ((Dag.replaceNode current new p.root .empty).run tag).1.2) :=
  Dag.replaceNode_root hroot hnew tag

theorem Growing.replaced (hg : Growing c q p current (d :: rest)) (hd : d ∈ c.needs current)
    (hdep : dep.initial = d) (hchild : ∀ y, child.Has y → c.Raw (Waits q) y)
    (tag : Nat) (order : BackEdges.Order) (tag' : Nat) :
    Growing c q (replaced p current (withChild current dep child tag) order tag')
      (withChild current dep child tag) rest := by
  have hnew : (withChild current dep child tag).WellBuilt :=
    withChild_wellBuilt hg.wellBuilt dep (hchild child (.self _)).wellBuilt tag
  have h : Dag.NodeReplaced current (withChild current dep child tag) p.root .empty _ :=
    replaced_node hg.sound.wellBuilt hnew order tag'
  have hfilling : Filling c True q _ (p.backEdges.rekey order _) _ rest :=
    hg.filling.replaced h hdep hchild
  have hl := withChild_label current dep child tag
  have hbelow : ∀ e ∈ current.edges, (withChild current dep child tag).reaches e.2 = true :=
    fun e he => Dag.reaches_of_edge (subset_withChild he) (Dag.Has.self _).reaches
  have hdeclared : c.Declared (withChild current dep child tag) := by
    intro e he
    rw [needs_withChild]
    rcases mem_withChild he with he | rfl
    · exact hg.declared e he
    · exact ⟨d, hd, hdep ▸ BEq.rfl⟩
  refine ⟨⟨⟨h.wellBuilt, hg.needs_root h hl, fun y hy hne => ?_, hg.heads h hl hbelow,
    hg.edges h hl hbelow⟩, ?_, hg.sound.children⟩, hnew, ?_, hdeclared, hfilling.done⟩
  · exact ⟨hg.declared_replaced h hdeclared hchild hy hne, hfilling.node trivial y hy⟩
  · obtain ⟨e, he⟩ := List.exists_mem_of_ne_nil _ hg.sound.rooted
    obtain ⟨f, hf, _⟩ := h.imageOf_edges hg.reached.not_beq he
    rw [h.imageOf_root] at hf
    exact List.ne_nil_of_mem hf
  · have hreach := h.under_imageOf hbelow hg.wellBuilt hg.sound.wellBuilt hg.reached.not_beq
      hg.reached
    rwa [h.imageOf_old hg.sound.wellBuilt hg.wellBuilt hg.reached.reaches] at hreach

theorem Growing.closed (hg : Growing c q p current (d :: rest)) (hd : d ∈ c.needs current)
    (hdep : dep.initial = d) (hchild : RawTree c child) :
    Growing c q (closed p current dep child) current rest := by
  have hheads := hg.sound.heads
  have hfilling := hg.filling.closed hdep child
  refine ⟨⟨⟨hg.sound.wellBuilt, hg.sound.needs, fun y hy hne => ?_, ?_, ?_⟩, hg.sound.rooted,
    hg.sound.children⟩, hg.wellBuilt, hg.reached, hg.declared, hfilling.done⟩
  · exact ⟨(hg.sound.node y hy hne).1, hfilling.node trivial y hy⟩
  · refine BackEdges.AllHeads.append (fun e he => ?_)
      ⟨hg.wellBuilt, hg.reached, .inr (Dag.same_refl current)⟩
    obtain ⟨hw, hreach, hnode⟩ := hg.sound.head e he
    exact ⟨hw, hreach, hnode.imp_left (·.append hheads hg.wellBuilt)⟩
  · refine hg.sound.edge.append hheads hg.wellBuilt fun k hkw hk e he => ?_
    cases List.mem_singleton.1 he
    have hck := Dag.beq_symm hkw hk
    obtain ⟨d', hd', hdd⟩ := needs_of_beq hck hd
    exact ⟨hck, ⟨d', hd', hdep ▸ hdd⟩, (hchild child (.self _)).wellBuilt, .inr hchild⟩

end Wiring
