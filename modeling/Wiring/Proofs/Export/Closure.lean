import Wiring.Export
import Wiring.Proofs.Dag.Walking
import Wiring.Proofs.Solver.Completeness

/-!
# All nodes of a graph with back-edges

The parts of a graph that hang together by edges are listed one after the other. Whatever the order
in which they wait, every node that edges and back-edges lead to is listed once and nothing else is:
a part waits for each back-edge of a node listed and no node is listed twice, so there are no more
parts than back-edges.
-/

namespace Wiring

open Dag

variable {b : BackEdges} {g x y start : Graph} {o : PartOrder}
  {found waiting listed nodes : List Graph} {fuel : Nat}

theorem PartOrder.mem_add : x ∈ o.add found waiting ↔ x ∈ found ∨ x ∈ waiting := by
  cases o <;> simp [add, or_comm]

theorem PartOrder.length_add :
    (o.add found waiting).length = found.length + waiting.length := by
  cases o <;> simp [add, Nat.add_comm]

theorem backTargets_append (b : BackEdges) (xs ys : List Graph) :
    backTargets b (xs ++ ys) = backTargets b xs ++ backTargets b ys := by
  simp [backTargets]

theorem backTargets_cons (b : BackEdges) (n : Graph) (ns : List Graph) :
    backTargets b (n :: ns) = (b.edgesOf n).map (·.tail) ++ backTargets b ns := rfl

theorem mem_backTargets : x ∈ backTargets b nodes ↔ ∃ n ∈ nodes, ∃ e ∈ b.edgesOf n, e.tail = x := by
  simp [backTargets]

/-! ## How many parts there are -/

def BackEdges.total (b : BackEdges) : Nat := (b.entries.flatMap (·.2)).length

theorem length_backTargets_cons (entry : Graph × List GraphEdge)
    (rest : List (Graph × List GraphEdge)) (ns : List Graph) :
    (backTargets ⟨entry :: rest⟩ ns).length ≤
      ns.countP (entry.1 == ·) * entry.2.length + (backTargets ⟨rest⟩ ns).length := by
  induction ns with
  | nil => simp [backTargets]
  | cons n ns ih =>
    rw [backTargets_cons, backTargets_cons, BackEdges.edgesOf_cons, List.countP_cons,
      Nat.add_mul, List.length_append, List.length_append]
    split <;> simp only [List.length_map, one_mul] <;> omega

theorem length_backTargets_le (hb : b.AllHeads WellBuilt)
    (hnodes : nodes.Pairwise fun y z => (z == y) = false) :
    (backTargets b nodes).length ≤ b.total := by
  obtain ⟨entries⟩ := b
  induction entries with
  | nil =>
    have hnone : ∀ n, BackEdges.edgesOf ⟨[]⟩ n = [] := fun n => rfl
    simp [backTargets, hnone]
  | cons entry rest ih =>
    obtain ⟨hhead, hrest⟩ := List.forall_mem_cons.mp hb
    have ih : (backTargets ⟨rest⟩ nodes).length ≤ BackEdges.total ⟨rest⟩ := ih hrest
    have hone : nodes.countP (entry.1 == ·) * entry.2.length ≤ 1 * entry.2.length :=
      Nat.mul_le_mul_right _ (countP_le_one hhead hnodes)
    have hcons := length_backTargets_cons entry rest nodes
    simp only [BackEdges.total, List.flatMap_cons, List.length_append] at ih ⊢
    omega

/-! ## What is listed -/

/-- Nodes are listed once, tails included, and they are those of the graph; what the graph and the
back-edges of those listed lead to is listed or waits. -/
structure Listing (b : BackEdges) (g : Graph) (waiting listed : List Graph) : Prop where
  distinct : listed.Pairwise fun x y => (y == x) = false
  closed : Closed listed
  linked : ∀ x, x ∈ listed ∨ x ∈ waiting → Linked b g x
  due : ∀ x, x = g ∨ x ∈ backTargets b listed → x ∈ waiting ∨ ∃ z ∈ listed, (x == z) = true

theorem listing_start (b : BackEdges) (g : Graph) : Listing b g [g] [] where
  distinct := .nil
  closed := closed_nil
  linked x hx := by
    rcases hx with hx | hx
    · cases hx
    · exact List.mem_singleton.mp hx ▸ .root
  due x hx := by
    rcases hx with rfl | hx
    · exact .inl List.mem_cons_self
    · cases hx

theorem Listing.next (h : Listing b g (start :: waiting) listed) :
    Listing b g (o.add (backTargets b (unseen listed start.sorted)) waiting)
      (listed ++ unseen listed start.sorted) := by
  have hstart : Linked b g start := h.linked start (.inr List.mem_cons_self)
  have hnew : ∀ x ∈ unseen listed start.sorted, Linked b g x := fun x hx =>
    linked_of_has hstart (has_of_mem_sorted (mem_unseen hx).1)
  -- what the part has is listed before or now
  have hpart : ∀ {x}, start.Has x →
      ∃ z ∈ listed ++ unseen listed start.sorted, (x == z) = true := by
    intro x hx
    obtain ⟨y, hy, hxy⟩ := hx.mem_sorted
    obtain ⟨z, hz, hyz⟩ : ∃ z ∈ listed ++ unseen listed start.sorted, (y == z) = true :=
      exists_of_unseen hy
    exact ⟨z, hz, beq_trans hxy hyz⟩
  refine ⟨?_, ?_, ?_, ?_⟩
  · refine List.pairwise_append.mpr ⟨h.distinct, distinct_unseen _ _, fun x hx y hy => ?_⟩
    rw [Bool.eq_false_iff]
    intro hyx
    have hseen := (mem_unseen hy).2
    rw [contains_iff.mpr ⟨x, hx, hyx⟩] at hseen
    cases hseen
  · intro y hy e he
    rcases List.mem_append.mp hy with hy | hy
    · obtain ⟨z, hz, hez⟩ := h.closed y hy e he
      exact ⟨z, List.mem_append_left _ hz, hez⟩
    · exact hpart ((has_of_mem_sorted (mem_unseen hy).1).edge he)
  · intro x hx
    rw [List.mem_append, PartOrder.mem_add] at hx
    rcases hx with (hx | hx) | hx | hx
    · exact h.linked x (.inl hx)
    · exact hnew x hx
    · obtain ⟨n, hn, e, he, rfl⟩ := mem_backTargets.mp hx
      exact .back (hnew n hn) he
    · exact h.linked x (.inr (List.mem_cons_of_mem _ hx))
  · intro x hx
    rw [backTargets_append, List.mem_append, ← or_assoc] at hx
    rw [PartOrder.mem_add]
    rcases hx with hx | hx
    · rcases h.due x hx with hx | ⟨z, hz, hxz⟩
      · rcases List.mem_cons.mp hx with rfl | hx
        · exact .inr (hpart (.self x))
        · exact .inl (.inr hx)
      · exact .inr ⟨z, List.mem_append_left _ hz, hxz⟩
    · exact .inl (.inl hx)

theorem Listing.finish (hb : b.AllHeads WellBuilt) (h : Listing b g waiting listed)
    (hroom : waiting.length + b.total ≤ fuel + (backTargets b listed).length) :
    Listing b g [] (listParts b o fuel waiting listed) := by
  induction fuel generalizing waiting listed with
  | zero =>
    have hle := length_backTargets_le hb h.distinct
    obtain rfl := List.length_eq_zero_iff.mp (show waiting.length = 0 by omega)
    exact h
  | succ fuel ih =>
    cases waiting with
    | nil => exact h
    | cons start waiting =>
      apply ih h.next
      rw [backTargets_append, List.length_append, PartOrder.length_add]
      simp only [List.length_cons] at hroom
      omega

theorem listing_allNodes (hb : b.AllHeads WellBuilt) (g : Graph) (o : PartOrder) :
    Listing b g [] (allNodes g b o) := by
  apply (listing_start b g).finish hb
  simp [BackEdges.total, backTargets]

section

variable (hg : g.WellBuilt) (hb : b.AllEdges fun _ e => e.tail.WellBuilt)
  (h : Listing b g [] listed)
include hg hb h

theorem Listing.exists_of_linked (hx : Linked b g x) : ∃ z ∈ listed, (x == z) = true := by
  have hdue : ∀ x, x = g ∨ x ∈ backTargets b listed → ∃ z ∈ listed, (x == z) = true :=
    fun x hx => (h.due x hx).resolve_left List.not_mem_nil
  induction hx with
  | root => exact hdue g (.inl rfl)
  | edge _ he ih =>
    obtain ⟨z, hz, hxz⟩ := ih
    obtain ⟨f, hf, -, hef⟩ := edge_of_beq hxz he
    obtain ⟨w, hw, hfw⟩ := h.closed z hz f hf
    exact ⟨w, hw, beq_trans hef hfw⟩
  | @back x e hx he ih =>
    obtain ⟨z, hz, hxz⟩ := ih
    rw [BackEdges.edgesOf_congr (linked_wellBuilt hg hb hx) hxz] at he
    exact hdue e.tail (.inr (mem_backTargets.mpr ⟨z, hz, e, he, rfl⟩))

theorem Listing.once (hx : Linked b g x) : listed.countP (x == ·) = 1 := by
  obtain ⟨z, hz, hxz⟩ := h.exists_of_linked hg hb hx
  exact countP_eq_one (linked_wellBuilt hg hb hx) h.distinct hz hxz

end

end Wiring
