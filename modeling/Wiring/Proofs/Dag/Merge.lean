import Wiring.Dag.Pool
import Wiring.Proofs.Dag.Reach
import Mathlib.Data.List.Forall2

/-!
# Merging keeps equality

A merge gives a node equal to the one that was merged, and the nodes of the pool stay well built.
-/

namespace Wiring.Dag

variable {V E : Type}

/-! ## Memos -/

namespace Memo

@[simp] theorem images_empty : (empty : Memo V E).images = [] := rfl

@[simp] theorem images_insert (m : Memo V E) (d image : Dag V E) :
    (m.insert d image).images = (d, image) :: m.images := rfl

variable [BEq V] [EquivBEq V] [BEq E] [EquivBEq E] {m : Memo V E} {d image : Dag V E}

theorem exists_of_get? (h : m.get? d = some image) :
    ∃ i ∈ m.images, (i.1 == d) = true ∧ i.2 = image := by
  unfold get? at h
  obtain ⟨i, hi, rfl⟩ := Option.map_eq_some_iff.1 h
  have hid := List.find?_some hi
  exact ⟨i, List.mem_of_find?_eq_some hi, hid, rfl⟩

theorem get?_eq_none (h : m.get? d = none) : ∀ i ∈ m.images, (i.1 == d) = false := by
  unfold get? at h
  rw [Option.map_eq_none_iff, List.find?_eq_none] at h
  exact fun i hi => Bool.eq_false_iff.2 (h i hi)

theorem imageOf_cases (m : Memo V E) (d : Dag V E) :
    (∃ i ∈ m.images, (i.1 == d) = true ∧ m.imageOf d = i.2) ∨
      (∀ i ∈ m.images, (i.1 == d) = false) ∧ m.imageOf d = d := by
  unfold imageOf
  cases h : m.get? d with
  | none => exact .inr ⟨get?_eq_none h, rfl⟩
  | some image =>
    obtain ⟨i, hi, hid, rfl⟩ := exists_of_get? h
    exact .inl ⟨i, hi, hid, rfl⟩

theorem imageOf_congr [Hashable V] [Hashable E] {x y : Dag V E} (hx : x.WellBuilt)
    (hxy : (x == y) = true) : (m.imageOf x == m.imageOf y) = true := by
  unfold imageOf get?
  simp only [beq_right_congr hx hxy]
  cases m.images.find? fun i => i.1 == y with
  | none => exact hxy
  | some i => exact same_refl i.2

end Memo

/-! ## Nodes with equal parts -/

variable [BEq V] [EquivBEq V] [BEq E] [EquivBEq E]

theorem Draft.edges_addEdges_of_distinct {b : Draft V E} {es : List (E × Dag V E)}
    (h : (b.edges ++ es).Pairwise (fun e f => (e == f) = false)) :
    (b.addEdges es).edges = b.edges ++ es := by
  induction es generalizing b with
  | nil => rw [List.append_nil]; rfl
  | cons e es ih =>
    have hnew : ∀ f ∈ b.edges, ¬ (f.1 == e.1 && f.2 == e.2) = true := by
      intro f hf
      rw [Bool.not_eq_true]
      exact (List.pairwise_append.1 h).2.2 f hf e (by simp)
    have hadd : (b.addEdge e.1 e.2).edges = b.edges ++ [e] := by
      rw [Draft.addEdge, if_neg (by simpa using hnew)]
    have happ : b.edges ++ e :: es = (b.addEdge e.1 e.2).edges ++ es := by simp [hadd]
    rw [Draft.addEdges_cons, ih (happ ▸ h), happ]

variable [Hashable V] [LawfulHashable V] [Hashable E] [LawfulHashable E]

theorem digest_congr {es fs : List (E × Dag V E)} {l k : V} (hl : (l == k) = true)
    (h : List.Forall₂ (fun e f => (e == f) = true) es fs) :
    (⟨l, es⟩ : Draft V E).digest = (⟨k, fs⟩ : Draft V E).digest := by
  have hsum : ∀ n : UInt64, es.foldl (fun sum e => sum + Digest.mix (hash e.1) e.2.digest) n =
      fs.foldl (fun sum e => sum + Digest.mix (hash e.1) e.2.digest) n := by
    induction h with
    | nil => exact fun _ => rfl
    | cons hef _ ih =>
      intro n
      rw [edge_beq_iff] at hef
      rw [List.foldl_cons, List.foldl_cons, hash_eq hef.1, (Dag.beq_iff.1 hef.2).1]
      exact ih _
  unfold Draft.digest
  simp only [hash_eq hl, h.length_eq, hsum]

theorem exists_of_forall₂ {α β : Type} {R : α → β → Prop} {as : List α} {bs : List β}
    (h : List.Forall₂ R as bs) : ∀ a ∈ as, ∃ b ∈ bs, R a b := by
  induction h with
  | nil => simp
  | cons hab _ ih =>
    intro a ha
    rcases List.mem_cons.1 ha with rfl | ha
    · exact ⟨_, by simp, hab⟩
    · obtain ⟨b, hb, h⟩ := ih a ha
      exact ⟨b, by simp [hb], h⟩

theorem beq_of_forall₂ {a b : Dag V E} (ha : a.WellBuilt) (hb : b.WellBuilt)
    (hl : (a.label == b.label) = true)
    (h : List.Forall₂ (fun e f => (e == f) = true) a.edges b.edges) : (a == b) = true :=
  beq_iff.2 ⟨by rw [ha.digest_eq, hb.digest_eq, digest_congr hl h], h.length_eq, hl,
    exists_of_forall₂ h⟩

structure SameEdge (e f : E × Dag V E) : Prop where
  beq : (e == f) = true
  left : e.2.WellBuilt
  right : f.2.WellBuilt

section SameEdge

variable {e e' f f' : E × Dag V E} {es fs : List (E × Dag V E)} {b k : Draft V E}

omit [LawfulHashable V] [LawfulHashable E]

theorem SameEdge.beq_congr (h : SameEdge e f) (h' : SameEdge e' f') : (e == e') = (f == f') := by
  obtain ⟨hlabel, htail⟩ := (edge_beq_iff e f).1 h.beq
  obtain ⟨hlabel', htail'⟩ := (edge_beq_iff e' f').1 h'.beq
  rw [Bool.eq_iff_iff, edge_beq_iff, edge_beq_iff]
  refine and_congr ⟨fun hl => ?_, fun hl => ?_⟩ ⟨fun ht => ?_, fun ht => ?_⟩
  · exact BEq.trans (BEq.symm hlabel) (BEq.trans hl hlabel')
  · exact BEq.trans hlabel (BEq.trans hl (BEq.symm hlabel'))
  · exact beq_trans (beq_symm h.left htail) (beq_trans ht htail')
  · exact beq_trans htail (beq_trans ht (beq_symm h'.left htail'))

theorem SameEdge.any_congr (h : List.Forall₂ SameEdge es fs) (he : SameEdge e f) :
    (es.any fun x => x.1 == e.1 && x.2 == e.2) = fs.any fun x => x.1 == f.1 && x.2 == f.2 := by
  induction h with
  | nil => rfl
  | cons hxy _ ih =>
    rw [List.any_cons, List.any_cons, ih]
    exact congrArg (· || _) (hxy.beq_congr he)

theorem SameEdge.addEdge (h : List.Forall₂ SameEdge b.edges k.edges) (he : SameEdge e f) :
    List.Forall₂ SameEdge (b.addEdge e.1 e.2).edges (k.addEdge f.1 f.2).edges := by
  have hany := SameEdge.any_congr h he
  unfold Draft.addEdge
  split
  · rename_i hb
    rw [if_pos (hany ▸ hb)]
    exact h
  · rename_i hb
    rw [if_neg (hany ▸ hb)]
    exact List.rel_append h (.cons he .nil)

theorem SameEdge.addEdges (h : List.Forall₂ SameEdge b.edges k.edges)
    (hes : List.Forall₂ SameEdge es fs) :
    List.Forall₂ SameEdge (b.addEdges es).edges (k.addEdges fs).edges := by
  induction hes generalizing b k with
  | nil => exact h
  | cons he _ ih => exact ih (he.addEdge h)

end SameEdge

theorem build_addEdges_beq {l k : V} {es fs : List (E × Dag V E)} (hl : (l == k) = true)
    (h : List.Forall₂ SameEdge es fs) (t t' : Nat) :
    let a := (((Draft.ofLabel l).addEdges es).build.run t).1
    let b := (((Draft.ofLabel k).addEdges fs).build.run t').1
    a.WellBuilt ∧ b.WellBuilt ∧ (a == b) = true := by
  intro a b
  have ha : a.WellBuilt := by
    refine ((Draft.ready_ofLabel l).addEdges fun e he => ?_).build t
    obtain ⟨_, _, hef⟩ := exists_of_forall₂ h e he
    exact hef.left
  have hb : b.WellBuilt := by
    refine ((Draft.ready_ofLabel k).addEdges fun f hf => ?_).build t'
    obtain ⟨_, _, hef⟩ := exists_of_forall₂ h.flip f hf
    exact hef.right
  refine ⟨ha, hb, beq_of_forall₂ ha hb ?_ ?_⟩
  · show (((Draft.ofLabel l).addEdges es).label == ((Draft.ofLabel k).addEdges fs).label) = true
    rw [Draft.label_addEdges, Draft.label_addEdges]
    exact hl
  · exact (SameEdge.addEdges .nil h).imp fun _ _ h => h.beq

/-! ## Merging -/

namespace Pool

/-- Each node of the memo equals its image, and the images are well built. -/
def Faithful (m : Memo V E) : Prop :=
  ∀ i ∈ m.images, (i.2 == i.1) = true ∧ i.2.WellBuilt

omit [LawfulHashable V] [LawfulHashable E] in
theorem Faithful.imageOf {m : Memo V E} (h : Faithful m) {d : Dag V E} (hd : d.WellBuilt) :
    (m.imageOf d == d) = true ∧ (m.imageOf d).WellBuilt := by
  rcases m.imageOf_cases d with ⟨i, hi, hid, he⟩ | ⟨_, he⟩
  · rw [he]
    exact ⟨beq_trans (h i hi).1 hid, (h i hi).2⟩
  · rw [he]
    exact ⟨same_refl d, hd⟩

omit [LawfulHashable V] [LawfulHashable E] in
theorem Faithful.forall₂ {m : Memo V E} (h : Faithful m) :
    ∀ {es : List (E × Dag V E)}, (∀ e ∈ es, e.2.WellBuilt) →
      List.Forall₂ (fun e f => (e == f) = true) (es.map fun e => (e.1, m.imageOf e.2)) es
  | [], _ => .nil
  | e :: es, hes => by
    refine .cons ?_ (h.forall₂ fun f hf => hes f (by simp [hf]))
    exact (edge_beq_iff _ _).2 ⟨BEq.rfl, (h.imageOf (hes e (by simp))).1⟩

theorem Faithful.rebuilt {m : Memo V E} (h : Faithful m) {d : Dag V E} (hd : d.WellBuilt)
    (tag : Nat) :
    let b := (Draft.ofLabel d.label).addEdges (d.edges.map fun e => (e.1, m.imageOf e.2))
    (((b.build).run tag).1 == d) = true ∧ ((b.build).run tag).1.WellBuilt := by
  intro b
  have htails : ∀ e ∈ d.edges, e.2.WellBuilt := fun e he => hd.tail he
  have hb : ((b.build).run tag).1.WellBuilt := by
    refine ((Draft.ready_ofLabel d.label).addEdges fun e he => ?_).build tag
    obtain ⟨f, hf, rfl⟩ := List.mem_map.1 he
    exact (h.imageOf (htails f hf)).2
  refine ⟨beq_of_forall₂ hb hd ?_ ?_, hb⟩
  · show (b.label == d.label) = true
    rw [Draft.label_addEdges]
    exact BEq.rfl
  · show List.Forall₂ _ b.edges d.edges
    rw [Draft.edges_addEdges_of_distinct]
    · exact h.forall₂ htails
    · rw [Draft.edges_ofLabel, List.nil_append, List.pairwise_map]
      -- Edges that differ have images that differ, for each edge equals its image.
      refine hd.distinct.imp_of_mem fun {e f} he hf hne => ?_
      rw [Bool.eq_false_iff] at hne ⊢
      intro heq
      rw [edge_beq_iff] at heq
      have himage := h.imageOf (htails e he)
      exact hne ((edge_beq_iff e f).2
        ⟨heq.1, beq_trans (beq_symm himage.2 himage.1)
          (beq_trans heq.2 (h.imageOf (htails f hf)).1)⟩)

omit [LawfulHashable V] [LawfulHashable E] in
theorem intern_spec {p : Pool V E} (hp : ∀ n ∈ p.nodes, n.WellBuilt) {d : Dag V E}
    (hd : d.WellBuilt) :
    ((p.intern d).1 == d) = true ∧ (p.intern d).1.WellBuilt ∧
      ∀ n ∈ (p.intern d).2.nodes, n.WellBuilt := by
  unfold intern
  cases h : p.canonical? d with
  | some found =>
    have heq := List.find?_some h
    exact ⟨heq, hp found (List.mem_of_find?_eq_some h), hp⟩
  | none =>
    refine ⟨same_refl d, hd, fun n hn => ?_⟩
    rcases List.mem_append.1 hn with hn | hn
    · exact hp n hn
    · exact List.mem_singleton.1 hn ▸ hd

theorem mergeNode_spec {p : Pool V E} (hp : ∀ n ∈ p.nodes, n.WellBuilt) {m : Memo V E}
    (hm : Faithful m) {d : Dag V E} (hd : d.WellBuilt) (tag : Nat) :
    (∀ n ∈ ((mergeNode p m d).run tag).1.1.nodes, n.WellBuilt) ∧
      Faithful ((mergeNode p m d).run tag).1.2 := by
  have key : ∀ candidate : Dag V E, (candidate == d) = true → candidate.WellBuilt →
      (∀ n ∈ (p.intern candidate).2.nodes, n.WellBuilt) ∧
        Faithful (m.insert d (p.intern candidate).1) := by
    intro candidate heq hb
    obtain ⟨h1, h2, h3⟩ := intern_spec hp hb
    refine ⟨h3, fun i hi => ?_⟩
    rcases List.mem_cons.1 hi with rfl | hi
    · exact ⟨beq_trans h1 heq, h2⟩
    · exact hm i hi
  unfold mergeNode
  dsimp only
  split
  · obtain ⟨h1, h2⟩ := hm.rebuilt hd tag
    exact key _ h1 h2
  · exact key d (same_refl d) hd

theorem mergeNodes_spec {ds : List (Dag V E)} (hds : ∀ d ∈ ds, d.WellBuilt) :
    ∀ {p : Pool V E} {m : Memo V E} (tag : Nat), (∀ n ∈ p.nodes, n.WellBuilt) → Faithful m →
      (∀ n ∈ ((mergeNodes p m ds).run tag).1.1.nodes, n.WellBuilt) ∧
        Faithful ((mergeNodes p m ds).run tag).1.2 := by
  induction ds with
  | nil => exact fun _ hp hm => ⟨hp, hm⟩
  | cons d ds ih =>
    intro p m tag hp hm
    obtain ⟨h1, h2⟩ := mergeNode_spec hp hm (hds d (by simp)) tag
    exact ih (fun x hx => hds x (by simp [hx])) _ h1 h2

theorem merge_spec {p : Pool V E} (hp : ∀ n ∈ p.nodes, n.WellBuilt) {d : Dag V E}
    (hd : d.WellBuilt) (tag : Nat) :
    (((p.merge d).run tag).1.1 == d) = true ∧ ((p.merge d).run tag).1.1.WellBuilt ∧
      ∀ n ∈ ((p.merge d).run tag).1.2.nodes, n.WellBuilt := by
  obtain ⟨h1, h2⟩ := mergeNodes_spec (fun x hx => (has_of_mem_sorted hx).wellBuilt hd) tag hp
    (m := .empty) (by simp [Faithful])
  exact ⟨(h2.imageOf hd).1, (h2.imageOf hd).2, h1⟩

end Pool

end Wiring.Dag
