import Wiring.Proofs.Dag.Transform

/-!
# Labels of merged and of changed graphs

Merging and replacing give no node a label that was not there before, and no edge an end with
another label. So what holds of all labels, and of all edges with the labels of their ends, holds
of the merged graph and of the graph with the replacement. It holds of a transformed graph if it
also holds of the edges that are put in.
-/

namespace Wiring.Dag

variable {V E : Type} {P : V → Prop} {Q : E → Prop} {R : E → V → Prop} {d x y : Dag V E}

/-- Every node has a label in `P`, and every edge has one that `R` relates to the label of its
end. -/
def Each (P : V → Prop) (R : E → V → Prop) (d : Dag V E) : Prop :=
  ∀ x, d.Has x → P x.label ∧ ∀ e ∈ x.edges, R e.1 e.2.label

structure EachBeyond (P : V → Prop) (R : E → V → Prop) (e : E × Dag V E) : Prop where
  edge : R e.1 e.2.label
  tail : e.2.Each P R

def All (P : V → Prop) (Q : E → Prop) (d : Dag V E) : Prop :=
  ∀ x, d.Has x → P x.label ∧ ∀ e ∈ x.edges, Q e.1

theorem each_iff : d.Each P R ↔ P d.label ∧ ∀ e ∈ d.edges, EachBeyond P R e := by
  constructor
  · intro h
    obtain ⟨hlabel, hedges⟩ := h d (.self d)
    exact ⟨hlabel, fun e he => ⟨hedges e he, fun x hx => h x (.step he hx)⟩⟩
  · rintro ⟨hlabel, hedges⟩ x hx
    rcases hx.eq_or_below with rfl | ⟨e, he, hx⟩
    · exact ⟨hlabel, fun e he => (hedges e he).edge⟩
    · exact (hedges e he).tail x hx

theorem Each.has (h : d.Each P R) (hx : d.Has x) : x.Each P R := fun y hy => h y (hx.trans hy)

theorem Each.edge {e : E × Dag V E} (h : d.Each P R) (he : e ∈ d.edges) : EachBeyond P R e :=
  (each_iff.1 h).2 e he

theorem all_iff_each : d.All P Q ↔ d.Each P fun e _ => Q e := Iff.rfl

theorem all_iff : d.All P Q ↔ P d.label ∧ ∀ e ∈ d.edges, Q e.1 ∧ e.2.All P Q := by
  rw [all_iff_each, each_iff]
  exact and_congr_right fun _ => forall₂_congr fun e _ =>
    ⟨fun h => ⟨h.edge, h.tail⟩, fun h => ⟨h.1, h.2⟩⟩

variable [Hashable V] [Hashable E]

theorem each_build {b : Draft V E} (hlabel : P b.label) (hedges : ∀ e ∈ b.edges, EachBeyond P R e)
    (tag : Nat) : (b.build.run tag).1.Each P R :=
  each_iff.2 ⟨hlabel, hedges⟩

variable [BEq V] [EquivBEq V] [BEq E] [EquivBEq E]

theorem each_over {l : V} {es : List (E × Dag V E)} (hlabel : P l)
    (hes : ∀ e ∈ es, EachBeyond P R e) (tag : Nat) :
    (((Draft.ofLabel l).addEdges es).build.run tag).1.Each P R := by
  refine each_build ?_ (fun e he => ?_) tag
  · rw [Draft.label_addEdges]
    exact hlabel
  · rcases Draft.mem_addEdges he with he | he
    · cases he
    · exact hes e he

theorem all_over {l : V} {es : List (E × Dag V E)} (hlabel : P l)
    (hes : ∀ e ∈ es, Q e.1 ∧ e.2.All P Q) (tag : Nat) :
    (((Draft.ofLabel l).addEdges es).build.run tag).1.All P Q :=
  each_over (R := fun e _ => Q e) hlabel (fun e he => ⟨(hes e he).1, (hes e he).2⟩) tag

omit [Hashable V] [Hashable E] [BEq E] [EquivBEq E] in
/-- `R` cannot tell equal labels of ends apart. -/
def RespectsEnds (R : E → V → Prop) : Prop := ∀ ⦃e l l'⦄, R e l → (l == l') = true → R e l'

omit [Hashable V] [Hashable E] [BEq E] [EquivBEq E] in
def Memo.Each (P : V → Prop) (R : E → V → Prop) (m : Memo V E) : Prop :=
  ∀ i ∈ m.images, i.2.Each P R ∧ (i.1.label == i.2.label) = true

omit [Hashable V] [Hashable E] in
theorem Memo.Each.image {m : Memo V E} {i : Dag V E × Dag V E} (h : m.Each P R)
    (hi : i ∈ m.images) (hid : (i.1 == d) = true) :
    i.2.Each P R ∧ (d.label == i.2.label) = true := by
  obtain ⟨heach, hlabel⟩ := h i hi
  exact ⟨heach, BEq.trans (BEq.symm (label_beq hid)) hlabel⟩

omit [Hashable V] [Hashable E] [EquivBEq V] [BEq E] [EquivBEq E] in
theorem Memo.Each.insert {m : Memo V E} {image : Dag V E} (h : m.Each P R)
    (himage : image.Each P R ∧ (d.label == image.label) = true) :
    (m.insert d image).Each P R := by
  intro i hi
  rcases List.mem_cons.1 hi with rfl | hi
  · exact himage
  · exact h i hi

/-! ## Merging -/

namespace Pool

variable {p : Pool V E} {memo : Memo V E} {tag : Nat}

def Each (P : V → Prop) (R : E → V → Prop) (p : Pool V E) : Prop := ∀ n ∈ p.nodes, n.Each P R

def All (P : V → Prop) (Q : E → Prop) (p : Pool V E) : Prop := ∀ n ∈ p.nodes, n.All P Q

structure Kept (P : V → Prop) (R : E → V → Prop) (r : Pool V E × Memo V E) : Prop where
  pool : r.1.Each P R
  images : r.2.Each P R

omit [Hashable V] [Hashable E] in
theorem Kept.imageOf (h : Kept P R (p, memo)) (hd : d.Each P R) :
    (memo.imageOf d).Each P R ∧ (d.label == (memo.imageOf d).label) = true := by
  rcases memo.imageOf_cases d with ⟨i, hi, hid, he⟩ | ⟨-, he⟩
  · rw [he]
    exact h.images.image hi hid
  · rw [he]
    exact ⟨hd, BEq.rfl⟩

omit [Hashable V] [Hashable E] in
theorem Kept.intern (h : Kept P R (p, memo)) (hx : x.Each P R) (hlabel : x.label = d.label) :
    Kept P R ((p.intern x).2, memo.insert d (p.intern x).1) := by
  have hkept : ((p.intern x).1.Each P R ∧ (d.label == (p.intern x).1.label) = true) ∧
      (p.intern x).2.Each P R := by
    unfold Pool.intern
    cases hfound : p.canonical? x with
    | some found =>
      have hbeq : (found == x) = true := by simpa using List.find?_some hfound
      refine ⟨⟨h.pool found (List.mem_of_find?_eq_some hfound), ?_⟩, h.pool⟩
      exact hlabel ▸ BEq.symm (label_beq hbeq)
    | none =>
      refine ⟨⟨hx, hlabel ▸ BEq.rfl⟩, fun n hn => ?_⟩
      rcases List.mem_append.1 hn with hn | hn
      · exact h.pool n hn
      · exact List.mem_singleton.1 hn ▸ hx
  exact ⟨hkept.2, h.images.insert hkept.1⟩

theorem Kept.mergeNode (hR : RespectsEnds R) (h : Kept P R (p, memo)) (hd : d.Each P R) (tag : Nat) :
    Kept P R ((p.mergeNode memo d).run tag).1 := by
  unfold Pool.mergeNode
  dsimp only
  split
  · refine h.intern (each_over (each_iff.1 hd).1 (fun e he => ?_) tag) (Draft.label_addEdges _ _)
    obtain ⟨f, hf, rfl⟩ := List.mem_map.1 he
    obtain ⟨hedge, htail⟩ := hd.edge hf
    obtain ⟨himage, hlabel⟩ := h.imageOf htail
    exact ⟨hR hedge hlabel, himage⟩
  · exact h.intern hd rfl

theorem Kept.mergeNodes (hR : RespectsEnds R) {ds : List (Dag V E)} (hds : ∀ d ∈ ds, d.Each P R) :
    ∀ {p : Pool V E} {memo : Memo V E} (tag : Nat), Kept P R (p, memo) →
      Kept P R ((p.mergeNodes memo ds).run tag).1 := by
  induction ds with
  | nil => exact fun _ h => h
  | cons d ds ih =>
    intro p memo tag h
    exact ih (fun x hx => hds x (List.mem_cons_of_mem d hx)) _
      (h.mergeNode hR (hds d List.mem_cons_self) tag)

theorem Each.merge (hR : RespectsEnds R) (hp : p.Each P R) (hd : d.Each P R) (tag : Nat) :
    (((p.merge d).run tag).1.1.Each P R ∧ (d.label == ((p.merge d).run tag).1.1.label) = true) ∧
      ((p.merge d).run tag).1.2.Each P R := by
  have hempty : Kept P R (p, .empty) := ⟨hp, by simp [Memo.Each]⟩
  have hkept := Kept.mergeNodes hR (fun x hx => hd.has (has_of_mem_sorted hx)) tag hempty
  exact ⟨hkept.imageOf hd, hkept.pool⟩

theorem All.merge (hp : p.All P Q) (hd : d.All P Q) (tag : Nat) :
    ((p.merge d).run tag).1.1.All P Q ∧ ((p.merge d).run tag).1.2.All P Q := by
  obtain ⟨⟨hnode, -⟩, hpool⟩ := Each.merge (R := fun e _ => Q e) (fun _ _ _ h _ => h) hp hd tag
  exact ⟨hnode, hpool⟩

end Pool

/-! ## Replacing -/

namespace NodeReplaced

variable {old new root : Dag V E} {r : Dag V E × Memo V E}
  (h : NodeReplaced old new root .empty r) (hl : (old.label == new.label) = true)
  (hR : RespectsEnds R) (hroot : root.Each P R) (hnew : new.Each P R)
include h hl hR hroot hnew

theorem each_image {i : Dag V E × Dag V E} (hi : i ∈ r.2.images) : i.2.Each P R := by
  intro y hy
  rcases h.image_has_cases hi hy with ⟨x, hx, -, -, -, hb⟩ | hy | ⟨hy, -⟩
  · obtain ⟨hlabel, hedges⟩ := hroot x hx
    refine ⟨hb.label ▸ hlabel, fun f hf => ?_⟩
    obtain ⟨e, he, hfe, j, hj, hje, hjf⟩ := hb.origin f hf
    have himage := h.imageOf_label hl e.2
    rw [h.replacing.imageOf_eq hj hje, hjf] at himage
    exact hfe ▸ hR (hedges e he) himage
  · exact hnew y hy
  · exact hroot y hy

theorem each : r.1.Each P R := by
  obtain ⟨i, hi, -, hir⟩ := h.image
  exact hir ▸ h.each_image hl hR hroot hnew hi

theorem each_imageOf {e : E × Dag V E} (he : EachBeyond P R e) :
    EachBeyond P R (e.1, r.2.imageOf e.2) := by
  refine ⟨hR he.edge (h.imageOf_label hl e.2), ?_⟩
  dsimp only
  rcases r.2.imageOf_cases e.2 with ⟨i, hi, -, himage⟩ | ⟨-, himage⟩
  · rw [himage]
    exact h.each_image hl hR hroot hnew hi
  · rw [himage]
    exact he.tail

end NodeReplaced

theorem NodeReplaced.imageOf_edge {old new root : Dag V E} {r : Dag V E × Memo V E}
    {e : E × Dag V E} (h : NodeReplaced old new root .empty r)
    (hl : (old.label == new.label) = true) (hedges : ∀ e ∈ old.edges, e ∈ new.edges)
    (he : e ∈ x.edges) :
    ∃ f ∈ (r.2.imageOf x).edges, (f.1 == e.1) = true ∧ (f.2.label == e.2.label) = true := by
  rcases r.2.imageOf_cases x with ⟨⟨d, b⟩, hi, hdx, himage⟩ | ⟨-, himage⟩
  · rw [himage]
    obtain ⟨g, hg, hlabel, htail⟩ := edge_of_beq (beq_symm (h.replacing.source _ hi) hdx) he
    have hend := label_beq htail
    cases h.replacing.image _ hi with
    | replaced hold =>
      obtain ⟨f, hf, hlabel', htail'⟩ := edge_of_beq hold hg
      exact ⟨f, hedges f hf, BEq.symm (BEq.trans hlabel hlabel'),
        BEq.symm (BEq.trans hend (label_beq htail'))⟩
    | kept _ => exact ⟨g, hg, BEq.symm hlabel, BEq.symm hend⟩
    | rebuilt _ _ hb =>
      obtain ⟨f, hf, hlabel', j, hj, hjg, htail'⟩ := hb.edge g hg
      have hlabels := h.imageOf_label hl g.2
      rw [h.replacing.imageOf_eq hj hjg] at hlabels
      exact ⟨f, hf, BEq.trans hlabel' (BEq.symm hlabel),
        BEq.trans (label_beq htail') (BEq.symm (BEq.trans hend hlabels))⟩
  · rw [himage]
    exact ⟨e, he, BEq.rfl, BEq.rfl⟩

/-! ## Transforming -/

section Transform

variable {f : Edge V E → Option (Edge V E)}

mutual

theorem transformNode_each (hR : RespectsEnds R)
    (hf : ∀ e k, f e = some k → EachBeyond P R (k.label, k.tail)) : ∀ (d : Dag V E)
    {memo : Memo V E} (tag : Nat), d.Each P R → memo.Each P R →
    (((transformNode f d memo).run tag).1.1.Each P R ∧
      (d.label == ((transformNode f d memo).run tag).1.1.label) = true) ∧
      ((transformNode f d memo).run tag).1.2.Each P R
  | node t h l es, memo, tag, hd, hmemo => by
    rw [transformNode]
    cases hget : memo.get? _ with
    | some image =>
      obtain ⟨i, hi, hid, rfl⟩ := Memo.exists_of_get? hget
      exact ⟨hmemo.image hi hid, hmemo⟩
    | none =>
      obtain ⟨hes, hmemo'⟩ :=
        transformEdges_each hR hf (node t h l es) es tag (each_iff.1 hd).2 hmemo
      rw [Fresh.run_bind]
      generalize (transformEdges f (node t h l es) es memo).run tag = out at hes hmemo' ⊢
      dsimp only
      split
      · have hlabel : (l == ((Draft.ofLabel l).addEdges out.1.1).label) = true := by
          rw [Draft.label_addEdges]
          exact BEq.rfl
        have himage := each_over (each_iff.1 hd).1 hes out.2
        exact ⟨⟨himage, hlabel⟩, hmemo'.insert ⟨himage, hlabel⟩⟩
      · exact ⟨⟨hd, BEq.rfl⟩, hmemo'.insert ⟨hd, BEq.rfl⟩⟩

theorem transformEdges_each (hR : RespectsEnds R)
    (hf : ∀ e k, f e = some k → EachBeyond P R (k.label, k.tail)) (head : Dag V E) :
    ∀ (es : List (E × Dag V E)) {memo : Memo V E} (tag : Nat), (∀ e ∈ es, EachBeyond P R e) →
    memo.Each P R →
    (∀ e ∈ ((transformEdges f head es memo).run tag).1.1, EachBeyond P R e) ∧
      ((transformEdges f head es memo).run tag).1.2.Each P R
  | [], memo, tag, hes, hmemo => by
    rw [transformEdges]
    exact ⟨hes, hmemo⟩
  | (l, d) :: rest, memo, tag, hes, hmemo => by
    rw [transformEdges]
    obtain ⟨hd, hrest⟩ := List.forall_mem_cons.1 hes
    split
    · rename_i k hk
      obtain ⟨himages, hmemo'⟩ := transformEdges_each hR hf head rest tag hrest hmemo
      exact ⟨List.forall_mem_cons.2 ⟨hf _ k hk, himages⟩, hmemo'⟩
    · obtain ⟨⟨himage, hlabel⟩, hmemo1⟩ := transformNode_each hR hf d tag hd.tail hmemo
      obtain ⟨himages, hmemo2⟩ := transformEdges_each hR hf head rest _ hrest hmemo1
      exact ⟨List.forall_mem_cons.2 ⟨⟨hR hd.edge hlabel, himage⟩, himages⟩, hmemo2⟩

end

theorem Each.transform (hR : RespectsEnds R)
    (hf : ∀ e k, f e = some k → EachBeyond P R (k.label, k.tail)) (hd : d.Each P R) (tag : Nat) :
    ((transform f d).run tag).1.Each P R := by
  have hempty : Memo.Each P R (.empty : Memo V E) := by simp [Memo.Each]
  exact (transformNode_each hR hf d tag hd hempty).1.1

end Transform

end Wiring.Dag
