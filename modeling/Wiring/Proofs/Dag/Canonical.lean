import Wiring.Proofs.Dag.Memory

/-!
# Canonical pools

A pool holds one node of each structure, and whatever a node of the pool leads to is in the pool. A
merge keeps that: it adds one node for each structure that the pool has not met, and to merge a node
of the pool gives the node itself.
-/

namespace Wiring.Dag

variable {V E : Type} [BEq V] [EquivBEq V] [BEq E] [EquivBEq E] {d x y : Dag V E}

/-! ## The order of a merge -/

inductive Ordered : List (Dag V E) → Prop
  | nil : Ordered []
  | snoc {order : List (Dag V E)} {d : Dag V E} : Ordered order →
      (∀ e ∈ d.edges, ∃ z ∈ order, (e.2 == z) = true) → Ordered (order ++ [d])

theorem Ordered.closed {order : List (Dag V E)} (h : Ordered order) : Closed order := by
  induction h with
  | nil => exact closed_nil
  | @snoc order d _ htails ih =>
    have hmem : ∀ y ∈ order ++ [d], ∀ e ∈ y.edges, ∃ z ∈ order, (e.2 == z) = true := by
      intro y hy
      rcases List.mem_append.mp hy with hy | hy
      · exact ih y hy
      · rw [List.mem_singleton.mp hy]
        exact htails
    intro y hy e he
    obtain ⟨z, hz, hez⟩ := hmem y hy e he
    exact ⟨z, List.mem_append_left _ hz, hez⟩

mutual

theorem visit_ordered : ∀ (d : Dag V E) {order : List (Dag V E)}, Ordered order →
    Ordered (visit d order)
  | node t h l es, order, ho => by
    rw [visit]
    split
    · exact ho
    · exact .snoc (visitAll_ordered es ho) (visitAll_extends es ho.closed).2

theorem visitAll_ordered : ∀ (es : List (E × Dag V E)) {order : List (Dag V E)}, Ordered order →
    Ordered (visitAll es order)
  | [], _, ho => by
    rw [visitAll]
    exact ho
  | (_, d) :: rest, _, ho => by
    rw [visitAll]
    exact visitAll_ordered rest (visit_ordered d ho)

end

theorem ordered_sorted (d : Dag V E) : Ordered d.sorted := visit_ordered d .nil

variable [Hashable V] [Hashable E]

namespace Pool

theorem mergeNodes_append_singleton (p : Pool V E) (memo : Memo V E) (ds : List (Dag V E))
    (d : Dag V E) : p.mergeNodes memo (ds ++ [d]) =
      p.mergeNodes memo ds >>= fun r => r.1.mergeNode r.2 d := by
  induction ds generalizing p memo with
  | nil => simp [mergeNodes]
  | cons x ds ih =>
    rw [List.cons_append]
    unfold mergeNodes
    simp [ih]

/-! ## Canonical pools -/

/-- One node of each structure, and nothing below that is not in the pool. -/
structure Canonical (p : Pool V E) : Prop where
  wellBuilt : ∀ n ∈ p.nodes, n.WellBuilt
  nodup : p.nodes.Nodup
  own : ∀ x ∈ p.nodes, ∀ y ∈ p.nodes, (x == y) = true → x = y
  tails : ∀ n ∈ p.nodes, ∀ e ∈ n.edges, e.2 ∈ p.nodes

theorem canonical_empty : (empty : Pool V E).Canonical :=
  ⟨by simp [empty], .nil, by simp [empty], by simp [empty]⟩

variable {p : Pool V E}

theorem Canonical.has (h : p.Canonical) (hd : d ∈ p.nodes) (hx : d.Has x) : x ∈ p.nodes := by
  induction hx with
  | self => exact hd
  | step he _ ih => exact ih (h.tails _ hd _ he)

theorem Canonical.canonical?_eq (h : p.Canonical) (hd : d ∈ p.nodes) : p.canonical? d = some d := by
  unfold canonical?
  cases hfound : p.nodes.find? (· == d) with
  | none =>
    rw [List.find?_eq_none] at hfound
    exact absurd (same_refl d) (hfound d hd)
  | some x =>
    have hbeq := List.find?_some hfound
    rw [h.own x (List.mem_of_find?_eq_some hfound) d hd hbeq]

theorem Canonical.intern (h : p.Canonical) (hd : d.WellBuilt)
    (htails : ∀ e ∈ d.edges, e.2 ∈ p.nodes) :
    (p.intern d).2.Canonical ∧ (p.intern d).1 ∈ (p.intern d).2.nodes ∧
      ((p.intern d).1 == d) = true ∧ (∀ n ∈ p.nodes, n ∈ (p.intern d).2.nodes) ∧
        ∀ n ∈ (p.intern d).2.nodes, n ∈ p.nodes ∨ n = d := by
  unfold Pool.intern
  cases hfound : p.canonical? d with
  | some found =>
    have hbeq := List.find?_some hfound
    exact ⟨h, List.mem_of_find?_eq_some hfound, hbeq, fun _ => id, fun _ => .inl⟩
  | none =>
    have hnew : ∀ n ∈ p.nodes, (n == d) = false := by
      unfold canonical? at hfound
      simpa using hfound
    have hmem : ∀ n, n ∈ p.nodes ++ [d] ↔ n ∈ p.nodes ∨ n = d := by simp
    refine ⟨⟨?_, ?_, ?_, ?_⟩, by simp, same_refl d, by simp +contextual, by simp⟩
    · intro n hn
      rcases (hmem n).mp hn with hn | rfl
      · exact h.wellBuilt n hn
      · exact hd
    · refine List.nodup_append.mpr ⟨h.nodup, List.pairwise_singleton _ d, ?_⟩
      rintro n hn x hx rfl
      rw [List.mem_singleton.mp hx] at hn
      have := hnew d hn
      simp at this
    · intro x hx y hy hxy
      rcases (hmem x).mp hx with hold | rfl
      · rcases (hmem y).mp hy with hold' | rfl
        · exact h.own x hold y hold' hxy
        · have := hnew x hold
          simp [hxy] at this
      · rcases (hmem y).mp hy with hold' | rfl
        · have := hnew y hold'
          simp [beq_symm hd hxy] at this
        · rfl
    · intro n hn e he
      rcases (hmem n).mp hn with hn | rfl
      · exact (hmem _).mpr (.inl (h.tails n hn e he))
      · exact (hmem _).mpr (.inl (htails e he))

/-! ## One merge -/

structure Merging (m : Memory V E) (p p' : Pool V E) (memo : Memo V E) (done : List (Dag V E)) :
    Prop where
  holds : m.Holds p'
  canonical : p'.Canonical
  images : ∀ i ∈ memo.images, i.2 ∈ p'.nodes ∧ (i.2 == i.1) = true
  reached : ∀ x ∈ done, ∃ i ∈ memo.images, (i.1 == x) = true
  keeps : ∀ n ∈ p.nodes, n ∈ p'.nodes
  adds : ∀ n ∈ p'.nodes, n ∈ p.nodes ∨ ∃ x ∈ done, (n == x) = true

namespace Merging

variable {m m' : Memory V E} {p' : Pool V E} {memo : Memo V E} {done : List (Dag V E)}

theorem start (hp : m.Holds p) (h : p.Canonical) : Merging m p p .empty [] where
  holds := hp
  canonical := h
  images := by simp
  reached := by simp
  keeps _ := id
  adds _ := .inl

theorem imageOf (h : Merging m p p' memo done) (hx : x.WellBuilt)
    (hdone : ∃ z ∈ done, (x == z) = true) :
    memo.imageOf x ∈ p'.nodes ∧ (memo.imageOf x == x) = true := by
  rcases memo.imageOf_cases x with ⟨i, hi, hix, heq⟩ | ⟨hnone, -⟩
  · obtain ⟨hmem, hbeq⟩ := h.images i hi
    rw [heq]
    exact ⟨hmem, beq_trans hbeq hix⟩
  · obtain ⟨z, hz, hxz⟩ := hdone
    obtain ⟨i, hi, hiz⟩ := h.reached z hz
    have hix := hnone i hi
    rw [beq_trans hiz (beq_symm hx hxz)] at hix
    cases hix

theorem faithful (h : Merging m p p' memo done) : Faithful memo := by
  intro i hi
  obtain ⟨hmem, hbeq⟩ := h.images i hi
  exact ⟨hbeq, h.canonical.wellBuilt _ hmem⟩

theorem intern (h : Merging m p p' memo done) (hm : m.Extends m') (hx : m'.nodes x)
    (hxd : (x == d) = true) (htails : ∀ e ∈ x.edges, e.2 ∈ p'.nodes) :
    Merging m' p (p'.intern x).2 (memo.insert d (p'.intern x).1) (done ++ [d]) := by
  obtain ⟨hcanonical, hfound, hbeq, hkeeps, hadds⟩ := h.canonical.intern (m'.wellBuilt hx) htails
  refine ⟨((h.holds.mono hm).intern hx).2, hcanonical, ?_, ?_,
    fun n hn => hkeeps n (h.keeps n hn), ?_⟩
  · intro i hi
    rcases List.mem_cons.mp hi with rfl | hi
    · exact ⟨hfound, beq_trans hbeq hxd⟩
    · exact ⟨hkeeps _ (h.images i hi).1, (h.images i hi).2⟩
  · intro z hz
    rcases List.mem_append.mp hz with hz | hz
    · obtain ⟨i, hi, hiz⟩ := h.reached z hz
      exact ⟨i, .tail _ hi, hiz⟩
    · rw [List.mem_singleton.mp hz]
      exact ⟨_, .head _, same_refl d⟩
  · intro n hn
    rcases hadds n hn with hn | rfl
    · rcases h.adds n hn with hn | ⟨z, hz, hnz⟩
      · exact .inl hn
      · exact .inr ⟨z, List.mem_append_left _ hz, hnz⟩
    · exact .inr ⟨d, by simp, hxd⟩

variable [LawfulHashable V] [LawfulHashable E]

theorem mergeNode (h : Merging m p p' memo done) (hd : m.nodes d)
    (htails : ∀ e ∈ d.edges, ∃ z ∈ done, (e.2 == z) = true) :
    m.Allows (p'.mergeNode memo d) fun m' r => Merging m' p r.1 r.2 (done ++ [d]) := by
  have himage : ∀ e ∈ d.edges, memo.imageOf e.2 ∈ p'.nodes := fun e he =>
    (h.imageOf (m.wellBuilt (m.tail hd e he)) (htails e he)).1
  unfold Pool.mergeNode
  dsimp only
  split
  · -- the node is built again over the images
    have hbuild : m.Allows
        ((Draft.ofLabel d.label).addEdges (d.edges.map fun e => (e.1, memo.imageOf e.2))).build
          fun m' x => m'.nodes x := by
      refine Memory.allows_over fun e he => ?_
      obtain ⟨f, hf, rfl⟩ := List.mem_map.mp he
      exact h.holds _ (himage f hf)
    refine hbuild.result.bind fun m' x hm' hx => Memory.allows_pure ?_
    obtain ⟨hx, rfl⟩ := hx
    refine h.intern hm' hx (h.faithful.rebuilt (m.wellBuilt hd) m.next).1 fun e he => ?_
    rcases Draft.mem_addEdges he with he | he
    · simp at he
    · obtain ⟨f, hf, rfl⟩ := List.mem_map.mp he
      exact himage f hf
  · -- the nodes it leads to are their own images
    next hmoved =>
    refine Memory.allows_pure (h.intern (.refl m) hd (same_refl d) fun e he => ?_)
    have hidentical : (memo.imageOf e.2).identical e.2 = true := by
      simp only [List.any_eq_true, Bool.not_eq_true', not_exists, not_and,
        Bool.not_eq_false] at hmoved
      exact hmoved e he
    have heq := Memory.eq_of_identical (h.holds _ (himage e he)) (m.tail hd e he) hidentical
    exact heq ▸ himage e he

theorem mergeNodes {ds : List (Dag V E)} (hp : m.Holds p) (h : p.Canonical) (hds : Ordered ds)
    (hmem : ∀ d ∈ ds, m.nodes d) :
    m.Allows (p.mergeNodes .empty ds) fun m' r => Merging m' p r.1 r.2 ds := by
  induction hds with
  | nil => exact Memory.allows_pure (.start hp h)
  | @snoc ds d _ htails ih =>
    rw [mergeNodes_append_singleton]
    refine (ih fun x hx => hmem x (List.mem_append_left _ hx)).bind fun m' r hm' hr => ?_
    exact hr.mergeNode (hm'.nodes (hmem d (by simp))) htails

end Merging

structure Merged (m : Memory V E) (p : Pool V E) (d : Dag V E) (r : Dag V E × Pool V E) : Prop where
  holds : m.Holds r.2
  canonical : r.2.Canonical
  mem : r.1 ∈ r.2.nodes
  beq : (r.1 == d) = true
  keeps : ∀ n ∈ p.nodes, n ∈ r.2.nodes
  adds : ∀ n ∈ r.2.nodes, n ∈ p.nodes ∨ ∃ x, d.Has x ∧ (n == x) = true

theorem allows_merged [LawfulHashable V] [LawfulHashable E] {m : Memory V E} (hp : m.Holds p)
    (h : p.Canonical) (hd : m.nodes d) : m.Allows (p.merge d) fun m' r => Merged m' p d r := by
  have hsorted := Merging.mergeNodes hp h (ordered_sorted d) fun x hx =>
    Memory.has hd (has_of_mem_sorted hx)
  refine hsorted.bind fun m' r _ hr => Memory.allows_pure ?_
  obtain ⟨hmem, hbeq⟩ := hr.imageOf (m.wellBuilt hd) (Has.self d).mem_sorted
  refine ⟨hr.holds, hr.canonical, hmem, hbeq, hr.keeps, fun n hn => ?_⟩
  rcases hr.adds n hn with hn | ⟨x, hx, hnx⟩
  · exact .inl hn
  · exact .inr ⟨x, has_of_mem_sorted hx, hnx⟩

/-! ## Nodes of the pool -/

def Fixed (p : Pool V E) (memo : Memo V E) : Prop :=
  ∀ i ∈ memo.images, i.1 = i.2 ∧ i.2 ∈ p.nodes

variable {memo : Memo V E}

theorem Fixed.imageOf (hmemo : Fixed p memo) (h : p.Canonical) (hx : x ∈ p.nodes) :
    memo.imageOf x = x := by
  rcases memo.imageOf_cases x with ⟨i, hi, hix, heq⟩ | ⟨-, heq⟩
  · obtain ⟨hown, hmem⟩ := hmemo i hi
    rw [hown] at hix
    exact heq.trans (h.own _ hmem x hx hix)
  · exact heq

theorem Canonical.mergeNode (h : p.Canonical) (hmemo : Fixed p memo) (hd : d ∈ p.nodes) :
    p.mergeNode memo d = pure (p, memo.insert d d) := by
  have himage : ∀ e ∈ d.edges, (memo.imageOf e.2).identical e.2 = true := by
    intro e he
    rw [hmemo.imageOf h (h.tails d hd e he)]
    exact beq_self_eq_true _
  have hmoved : (d.edges.any fun e => !(memo.imageOf e.2).identical e.2) = false := by
    simpa using himage
  unfold Pool.mergeNode Pool.intern
  simp [hmoved, h.canonical?_eq hd]

theorem Canonical.mergeNodes {ds : List (Dag V E)} (h : p.Canonical) (hmemo : Fixed p memo)
    (hds : ∀ d ∈ ds, d ∈ p.nodes) :
    ∃ memo', p.mergeNodes memo ds = pure (p, memo') ∧ Fixed p memo' := by
  induction ds generalizing memo with
  | nil => exact ⟨memo, rfl, hmemo⟩
  | cons d ds ih =>
    obtain ⟨hd, hds⟩ := List.forall_mem_cons.mp hds
    have hinsert : Fixed p (memo.insert d d) := List.forall_mem_cons.mpr ⟨⟨rfl, hd⟩, hmemo⟩
    obtain ⟨memo', hmerge, hmemo'⟩ := ih hinsert hds
    refine ⟨memo', ?_, hmemo'⟩
    unfold Pool.mergeNodes
    rw [h.mergeNode hmemo hd]
    exact hmerge

theorem Canonical.merge_self (h : p.Canonical) (hd : d ∈ p.nodes) : p.merge d = pure (d, p) := by
  have hempty : Fixed p .empty := by simp [Fixed]
  obtain ⟨memo, hmerge, hmemo⟩ :=
    h.mergeNodes hempty fun x hx => h.has hd (has_of_mem_sorted hx)
  unfold merge
  rw [hmerge, pure_bind]
  dsimp only
  rw [hmemo.imageOf h hd]

end Pool

end Wiring.Dag
