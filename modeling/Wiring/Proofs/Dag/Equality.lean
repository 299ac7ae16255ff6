import Wiring.Dag
import Mathlib.Tactic.Common

/-!
# Equality of graphs

The test of equality looks at one inclusion of edges and at their number. On nodes that were built,
where no two edges are equal, that makes it an equivalence.
-/

namespace Wiring.Dag

variable {V E : Type}

theorem sizeOf_tail_lt {d : Dag V E} {e : E × Dag V E} (he : e ∈ d.edges) :
    sizeOf e.2 < sizeOf d := by
  obtain ⟨_, _, _, es⟩ := d
  obtain ⟨l, x⟩ := e
  have hlt := List.sizeOf_lt_of_mem (show (l, x) ∈ es from he)
  simp only [Prod.mk.sizeOf_spec, node.sizeOf_spec] at hlt ⊢
  omega

theorem induction {P : Dag V E → Prop} (step : ∀ d, (∀ e ∈ d.edges, P e.2) → P d)
    (d : Dag V E) : P d :=
  step d fun e _ => induction step e.2
termination_by sizeOf d
decreasing_by exact sizeOf_tail_lt ‹_›

/-- If lists are equally long and distinct members of the first have no partner in common, then
partners for all of the first are partners for all of the second. -/
theorem covered_of_length_eq {α β : Type} {R : α → β → Prop} {as : List α} :
    ∀ {bs : List β}, as.length = bs.length → as.Pairwise (fun a a' => ∀ b ∈ bs, R a b → ¬ R a' b) →
      (∀ a ∈ as, ∃ b ∈ bs, R a b) → ∀ b ∈ bs, ∃ a ∈ as, R a b := by
  induction as with
  | nil =>
    intro bs hlen _ _ b hb
    rw [List.length_nil, eq_comm, List.length_eq_zero_iff] at hlen
    simp [hlen] at hb
  | cons a as ih =>
    intro bs hlen hsep hcov b hb
    obtain ⟨b₀, hb₀, hab₀⟩ := hcov a (by simp)
    obtain ⟨left, right, rfl⟩ := List.append_of_mem hb₀
    rw [List.pairwise_cons] at hsep
    by_cases h : R a b
    · exact ⟨a, by simp, h⟩
    · have hb' : b ∈ left ++ right := by
        simp only [List.mem_append, List.mem_cons] at hb ⊢
        rcases hb with hb | rfl | hb
        · exact .inl hb
        · exact absurd hab₀ h
        · exact .inr hb
      have hsub : ∀ x ∈ left ++ right, x ∈ left ++ b₀ :: right := by
        intro x hx
        simp only [List.mem_append, List.mem_cons] at hx ⊢
        tauto
      obtain ⟨a', ha', h'⟩ := @ih (left ++ right) (by simp at hlen ⊢; omega)
        (hsep.2.imp fun hx x hxm => hx x (hsub x hxm))
        (fun x hx => by
          obtain ⟨y, hy, hxy⟩ := hcov x (by simp [hx])
          refine ⟨y, ?_, hxy⟩
          -- The partner of `x` is not `b₀`, which is the partner of `a`.
          have hne : y ≠ b₀ := fun e => hsep.1 x hx b₀ hb₀ hab₀ (e ▸ hxy)
          simp only [List.mem_append, List.mem_cons] at hy ⊢
          tauto)
        b hb'
      exact ⟨a', by simp [ha'], h'⟩

section Equality

variable [BEq V] [EquivBEq V] [BEq E] [EquivBEq E] {a b c : Dag V E}

theorem edge_beq_iff (e f : E × Dag V E) :
    (e == f) = true ↔ (e.1 == f.1) = true ∧ (e.2 == f.2) = true := by
  show (e.1 == f.1 && e.2 == f.2) = true ↔ _
  simp

theorem beq_iff : (a == b) = true ↔
    a.digest = b.digest ∧ a.edges.length = b.edges.length ∧ (a.label == b.label) = true ∧
      ∀ e ∈ a.edges, ∃ f ∈ b.edges, (e == f) = true := by
  obtain ⟨t, h, l, es⟩ := a
  obtain ⟨t', h', l', es'⟩ := b
  rw [same_node]
  simp only [Bool.and_eq_true, beq_iff_eq, List.all_eq_true, List.any_eq_true, digest, edges,
    label, and_assoc, edge_beq_iff]

theorem label_beq (h : (a == b) = true) : (a.label == b.label) = true := (beq_iff.1 h).2.2.1

theorem edges_eq_nil_iff (h : (a == b) = true) : a.edges = [] ↔ b.edges = [] := by
  rw [← List.length_eq_zero_iff, ← List.length_eq_zero_iff, (beq_iff.1 h).2.1]

theorem edge_of_beq (h : (a == b) = true) {e : E × Dag V E} (he : e ∈ a.edges) :
    ∃ f ∈ b.edges, (e.1 == f.1) = true ∧ (e.2 == f.2) = true := by
  obtain ⟨f, hf, hef⟩ := (beq_iff.1 h).2.2.2 e he
  exact ⟨f, hf, (edge_beq_iff e f).1 hef⟩

theorem beq_trans : ∀ {a b c : Dag V E}, (a == b) = true → (b == c) = true → (a == c) = true := by
  intro a
  induction a using induction with
  | step a ih =>
    intro b c hab hbc
    obtain ⟨hd, hn, hl, hcov⟩ := beq_iff.1 hab
    obtain ⟨hd', hn', hl', hcov'⟩ := beq_iff.1 hbc
    refine beq_iff.2 ⟨hd.trans hd', hn.trans hn', BEq.trans hl hl', fun e he => ?_⟩
    obtain ⟨f, hf, hef⟩ := hcov e he
    obtain ⟨g, hg, hfg⟩ := hcov' f hf
    rw [edge_beq_iff] at hef hfg
    exact ⟨g, hg, (edge_beq_iff e g).2 ⟨BEq.trans hef.1 hfg.1, ih e he hef.2 hfg.2⟩⟩

/-! ## Nodes that were built -/

/-- No two edges of the node are equal and its digest is that of its parts, all the way down. -/
inductive WellBuilt [Hashable V] [Hashable E] : Dag V E → Prop
  | node {t : Nat} {l : V} {es : List (E × Dag V E)} :
    es.Pairwise (fun e f => (e == f) = false) → (∀ e ∈ es, WellBuilt e.2) →
      WellBuilt (node t (Draft.digest ⟨l, es⟩) l es)

variable [Hashable V] [Hashable E]

theorem WellBuilt.distinct (h : a.WellBuilt) :
    a.edges.Pairwise (fun e f => (e == f) = false) := by
  cases h with
  | node hd _ => exact hd

theorem WellBuilt.tail (h : a.WellBuilt) {e : E × Dag V E} (he : e ∈ a.edges) :
    e.2.WellBuilt := by
  cases h with
  | node _ ht => exact ht e he

theorem WellBuilt.digest_eq (h : a.WellBuilt) : a.digest = Draft.digest ⟨a.label, a.edges⟩ := by
  cases h
  rfl

theorem beq_symm : ∀ {a b : Dag V E}, a.WellBuilt → (a == b) = true → (b == a) = true := by
  intro a
  induction a using induction with
  | step a ih =>
    intro b ha hab
    obtain ⟨hd, hn, hl, hcov⟩ := beq_iff.1 hab
    have symm_edge : ∀ e ∈ a.edges, ∀ f, (e == f) = true → (f == e) = true := by
      intro e he f hef
      rw [edge_beq_iff] at hef ⊢
      exact ⟨BEq.symm hef.1, ih e he (ha.tail he) hef.2⟩
    refine beq_iff.2 ⟨hd.symm, hn.symm, BEq.symm hl, fun f hf => ?_⟩
    have hsep : a.edges.Pairwise fun e e' =>
        ∀ g ∈ b.edges, (e == g) = true → ¬ (e' == g) = true := by
      refine ha.distinct.imp_of_mem fun {e e'} he he' hne g _ heg he'g => ?_
      have hge' := symm_edge e' he' g he'g
      rw [edge_beq_iff] at heg hge'
      have : (e == e') = true :=
        (edge_beq_iff e e').2 ⟨BEq.trans heg.1 hge'.1, beq_trans heg.2 hge'.2⟩
      simp [hne] at this
    obtain ⟨e, he, hef⟩ := covered_of_length_eq (R := fun e f => (e == f) = true) hn hsep hcov f hf
    exact ⟨e, he, symm_edge e he f hef⟩

theorem beq_right_congr (ha : a.WellBuilt) (hab : (a == b) = true) (c : Dag V E) :
    (c == a) = (c == b) := by
  rw [Bool.eq_iff_iff]
  exact ⟨fun hc => beq_trans hc hab, fun hc => beq_trans hc (beq_symm ha hab)⟩

theorem edge_of_beq_symm (ha : a.WellBuilt) (h : (a == b) = true) {f : E × Dag V E}
    (hf : f ∈ b.edges) : ∃ e ∈ a.edges, (f.1 == e.1) = true ∧ (f.2 == e.2) = true :=
  edge_of_beq (beq_symm ha h) hf

end Equality

/-! ## Drafts -/

namespace Draft

@[simp] theorem label_ofLabel (l : V) : (ofLabel l : Draft V E).label = l := rfl

@[simp] theorem edges_ofLabel (l : V) : (ofLabel l : Draft V E).edges = [] := rfl

variable [BEq V] [EquivBEq V] [BEq E] [EquivBEq E]

@[simp] theorem label_addEdge (b : Draft V E) (l : E) (d : Dag V E) :
    (b.addEdge l d).label = b.label := by
  unfold addEdge
  split <;> rfl

@[simp] theorem label_addEdges (b : Draft V E) (es : List (E × Dag V E)) :
    (b.addEdges es).label = b.label := by
  induction es generalizing b with
  | nil => rfl
  | cons e es ih =>
    show ((b.addEdge e.1 e.2).addEdges es).label = _
    rw [ih, label_addEdge]

theorem addEdges_cons (b : Draft V E) (e : E × Dag V E) (es : List (E × Dag V E)) :
    b.addEdges (e :: es) = (b.addEdge e.1 e.2).addEdges es := rfl

theorem mem_addEdge {b : Draft V E} {l : E} {d : Dag V E} {f : E × Dag V E}
    (h : f ∈ (b.addEdge l d).edges) : f ∈ b.edges ∨ f = (l, d) := by
  unfold addEdge at h
  split at h
  · exact .inl h
  · simpa using h

theorem subset_addEdge {b : Draft V E} {l : E} {d : Dag V E} {f : E × Dag V E}
    (h : f ∈ b.edges) : f ∈ (b.addEdge l d).edges := by
  unfold addEdge
  split
  · exact h
  · simp [h]

theorem exists_addEdge (b : Draft V E) (l : E) (d : Dag V E) :
    ∃ f ∈ (b.addEdge l d).edges, (f.1 == l) = true ∧ (f.2 == d) = true := by
  unfold addEdge
  split
  · rename_i h
    simpa only [List.any_eq_true, Bool.and_eq_true] using h
  · exact ⟨(l, d), by simp, BEq.rfl, same_refl d⟩

theorem mem_addEdges {b : Draft V E} {es : List (E × Dag V E)} {f : E × Dag V E}
    (h : f ∈ (b.addEdges es).edges) : f ∈ b.edges ∨ f ∈ es := by
  induction es generalizing b with
  | nil => exact .inl h
  | cons e es ih =>
    rcases ih (addEdges_cons b e es ▸ h) with h | h
    · rcases mem_addEdge h with h | rfl
      · exact .inl h
      · exact .inr (by simp)
    · exact .inr (by simp [h])

theorem subset_addEdges {b : Draft V E} {es : List (E × Dag V E)} {f : E × Dag V E}
    (h : f ∈ b.edges) : f ∈ (b.addEdges es).edges := by
  induction es generalizing b with
  | nil => exact h
  | cons e es ih => exact addEdges_cons b e es ▸ ih (subset_addEdge h)

theorem exists_addEdges (b : Draft V E) {es : List (E × Dag V E)} {e : E × Dag V E}
    (h : e ∈ es) : ∃ f ∈ (b.addEdges es).edges, (f.1 == e.1) = true ∧ (f.2 == e.2) = true := by
  induction es generalizing b with
  | nil => simp at h
  | cons e' es ih =>
    rw [addEdges_cons]
    rcases List.mem_cons.1 h with rfl | h
    · obtain ⟨f, hf, hfe⟩ := exists_addEdge b e.1 e.2
      exact ⟨f, subset_addEdges hf, hfe⟩
    · exact ih _ h

structure Ready [Hashable V] [Hashable E] (b : Draft V E) : Prop where
  distinct : b.edges.Pairwise (fun e f => (e == f) = false)
  tails : ∀ e ∈ b.edges, e.2.WellBuilt

variable [Hashable V] [Hashable E]

theorem ready_ofLabel (l : V) : (ofLabel l : Draft V E).Ready := ⟨.nil, by simp⟩

theorem Ready.addEdge {b : Draft V E} (h : b.Ready) (l : E) {d : Dag V E} (hd : d.WellBuilt) :
    (b.addEdge l d).Ready := by
  constructor
  · unfold Draft.addEdge
    split
    · exact h.distinct
    · rename_i hnew
      refine List.pairwise_append.2 ⟨h.distinct, List.pairwise_singleton _ _, ?_⟩
      intro e he f hf
      rw [List.mem_singleton] at hf
      simp only [List.any_eq_true, not_exists, not_and, Bool.not_eq_true] at hnew
      exact hf ▸ hnew e he
  · intro e he
    rcases mem_addEdge he with he | rfl
    · exact h.tails e he
    · exact hd

theorem Ready.addEdges {b : Draft V E} (h : b.Ready) {es : List (E × Dag V E)}
    (hes : ∀ e ∈ es, e.2.WellBuilt) : (b.addEdges es).Ready := by
  induction es generalizing b with
  | nil => exact h
  | cons e es ih =>
    rw [addEdges_cons]
    exact ih (h.addEdge e.1 (hes e (by simp))) fun f hf => hes f (by simp [hf])

theorem Ready.setLabel {b : Draft V E} (h : b.Ready) (l : V) : (b.setLabel l).Ready :=
  ⟨h.distinct, h.tails⟩

theorem Ready.removeEdges {b : Draft V E} (h : b.Ready) (p : E → Bool) :
    (b.removeEdges p).Ready :=
  ⟨h.distinct.sublist List.filter_sublist, fun e he => h.tails e (List.mem_filter.1 he).1⟩

theorem Ready.build {b : Draft V E} (h : b.Ready) (tag : Nat) : (b.build.run tag).1.WellBuilt :=
  .node h.distinct h.tails

end Draft

theorem WellBuilt.copy [BEq V] [EquivBEq V] [BEq E] [EquivBEq E] [Hashable V] [Hashable E]
    {d : Dag V E} (h : d.WellBuilt) : d.copy.Ready :=
  ⟨h.distinct, fun _ he => h.tail he⟩

end Wiring.Dag
