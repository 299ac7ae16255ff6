import Wiring.BackEdges
import Wiring.Proofs.Dag.Merge
import Wiring.Proofs.Labels

/-!
# What the back-edges hold

The edges under a head after each operation, and what holds of all heads and edges.
-/

namespace Wiring.BackEdges

variable {b : BackEdges} {h k head : Graph} {es : List GraphEdge} {e : GraphEdge}
  {entry : Graph × List GraphEdge} {K : Graph → Prop} {P : Graph → GraphEdge → Prop}

def AllHeads (K : Graph → Prop) (b : BackEdges) : Prop := ∀ entry ∈ b.entries, K entry.1

def AllEdges (P : Graph → GraphEdge → Prop) (b : BackEdges) : Prop :=
  ∀ entry ∈ b.entries, ∀ e ∈ entry.2, P entry.1 e

theorem contains_iff : b.contains h = true ↔ ∃ entry ∈ b.entries, (entry.1 == h) = true := by
  unfold contains
  rw [List.any_eq_true]

theorem mem_edgesOf (he : e ∈ b.edgesOf h) :
    ∃ entry ∈ b.entries, (entry.1 == h) = true ∧ e ∈ entry.2 := by
  unfold edgesOf get? at he
  cases hfind : b.entries.find? fun e => e.1 == h with
  | none => simp [hfind] at he
  | some entry =>
    rw [hfind] at he
    exact ⟨entry, List.mem_of_find?_eq_some hfind, by simpa using List.find?_some hfind, he⟩

theorem AllEdges.edgesOf (hb : b.AllEdges P) (he : e ∈ b.edgesOf h) :
    ∃ k, (k == h) = true ∧ P k e := by
  obtain ⟨entry, hentry, hk, he⟩ := mem_edgesOf he
  exact ⟨entry.1, hk, hb entry hentry e he⟩

theorem edgesOf_cons (entry : Graph × List GraphEdge) (rest : List (Graph × List GraphEdge)) :
    edgesOf ⟨entry :: rest⟩ h = if entry.1 == h then entry.2 else edgesOf ⟨rest⟩ h := by
  unfold edgesOf get?
  rw [List.find?_cons]
  split <;> simp [*]

theorem edgesOf_congr (hh : h.WellBuilt) (hk : (h == k) = true) : b.edgesOf h = b.edgesOf k := by
  unfold edgesOf get?
  simp only [Dag.beq_right_congr hh hk]

/-! ## Changing the edges under a head -/

theorem mem_updateEntries {change : List GraphEdge → List GraphEdge}
    {entries : List (Graph × List GraphEdge)} (h : entry ∈ updateEntries head change entries) :
    entry ∈ entries ∨ entry = (head, change []) ∨
      ∃ old, (entry.1, old) ∈ entries ∧ (entry.1 == head) = true ∧ entry.2 = change old := by
  induction entries with
  | nil => exact .inr (.inl (List.mem_singleton.1 h))
  | cons first rest ih =>
    rw [updateEntries] at h
    split at h
    · rename_i hfirst
      rcases List.mem_cons.1 h with rfl | h
      · exact .inr (.inr ⟨first.2, by simp, hfirst, rfl⟩)
      · exact .inl (by simp [h])
    · rcases List.mem_cons.1 h with rfl | h
      · exact .inl (by simp)
      · rcases ih h with h | h | ⟨old, hold, h⟩
        · exact .inl (by simp [h])
        · exact .inr (.inl h)
        · exact .inr (.inr ⟨old, by simp [hold], h⟩)

theorem AllHeads.update (hb : b.AllHeads K) {change : List GraphEdge → List GraphEdge}
    (hhead : K head) : AllHeads K ⟨updateEntries head change b.entries⟩ := by
  intro entry hentry
  rcases mem_updateEntries hentry with h | rfl | ⟨old, hold, _, _⟩
  · exact hb entry h
  · exact hhead
  · exact hb (entry.1, old) hold

theorem AllHeads.append (hb : b.AllHeads K) (hhead : K head) : (b.append head es).AllHeads K :=
  hb.update hhead

theorem AllHeads.set (hb : b.AllHeads K) (hhead : K head) : (b.set head es).AllHeads K :=
  hb.update hhead

theorem AllEdges.append (hb : b.AllEdges P) (hheads : b.AllHeads Dag.WellBuilt)
    (hhead : head.WellBuilt) (hes : ∀ k, k.WellBuilt → (k == head) = true → ∀ e ∈ es, P k e) :
    (b.append head es).AllEdges P := by
  intro entry hentry e he
  rcases mem_updateEntries hentry with h | rfl | ⟨old, hold, hk, hedges⟩
  · exact hb entry h e he
  · exact hes head hhead (Dag.same_refl head) e (by simpa using he)
  · rw [hedges] at he
    rcases List.mem_append.1 he with he | he
    · exact hb (entry.1, old) hold e he
    · exact hes entry.1 (hheads (entry.1, old) hold) hk e he

theorem AllEdges.set (hb : b.AllEdges P) (hheads : b.AllHeads Dag.WellBuilt)
    (hhead : head.WellBuilt) (hes : ∀ k, k.WellBuilt → (k == head) = true → ∀ e ∈ es, P k e) :
    (b.set head es).AllEdges P := by
  intro entry hentry e he
  rcases mem_updateEntries hentry with h | rfl | ⟨old, hold, hk, hedges⟩
  · exact hb entry h e he
  · exact hes head hhead (Dag.same_refl head) e he
  · exact hes entry.1 (hheads (entry.1, old) hold) hk e (hedges ▸ he)

theorem find?_updateEntries {change : List GraphEdge → List GraphEdge} (hhead : head.WellBuilt)
    {entries : List (Graph × List GraphEdge)} (hkeys : ∀ entry ∈ entries, entry.1.WellBuilt) :
    (((updateEntries head change entries).find? fun e => e.1 == h).map (·.2)).getD [] =
      if head == h then change (((entries.find? fun e => e.1 == head).map (·.2)).getD [])
      else ((entries.find? fun e => e.1 == h).map (·.2)).getD [] := by
  induction entries with
  | nil =>
    rw [updateEntries]
    cases hh : head == h <;> simp [hh]
  | cons first rest ih =>
    have ih := ih fun entry hentry => hkeys entry (by simp [hentry])
    have hfirst := hkeys first (by simp)
    rw [updateEntries]
    split
    · rename_i hfh
      by_cases hh : (head == h) = true
      · simp [Dag.beq_trans hfh hh, hh, hfh]
      · have : (first.1 == h) = false := by
          rw [Bool.eq_false_iff]
          exact fun h' => hh (Dag.beq_trans (Dag.beq_symm hfirst hfh) h')
        simp [this, hh]
    · rename_i hfh
      by_cases hfh' : (first.1 == h) = true
      · have : (head == h) = false := by
          rw [Bool.eq_false_iff]
          exact fun h' => hfh (Dag.beq_trans hfh' (Dag.beq_symm hhead h'))
        simp [hfh', this]
      · simp [hfh, hfh', ih]

theorem edgesOf_append (hb : b.AllHeads Dag.WellBuilt) (hhead : head.WellBuilt) :
    (b.append head es).edgesOf h = if head == h then b.edgesOf h ++ es else b.edgesOf h := by
  unfold append
  show (((updateEntries head _ b.entries).find? _).map _).getD [] = _
  rw [find?_updateEntries hhead hb]
  split
  · rename_i hh
    rw [← edgesOf_congr hhead hh]
    rfl
  · rfl

theorem edgesOf_set (hb : b.AllHeads Dag.WellBuilt) (hhead : head.WellBuilt) :
    (b.set head es).edgesOf h = if head == h then es else b.edgesOf h :=
  find?_updateEntries hhead hb

/-! ## Taking heads and tails to their images -/

variable {m : Dag.Memo Component Dependency} {order : Order}

@[simp] theorem Order.mem_arrange {entries : List (Graph × List GraphEdge)} :
    entry ∈ order.arrange entries ↔ entry ∈ entries := (order.perm entries).mem_iff

def moved (m : Dag.Memo Component Dependency) (head : Graph) (e : GraphEdge) : GraphEdge :=
  ⟨m.imageOf head, m.imageOf e.tail, e.label⟩

theorem rekey_eq (b : BackEdges) (order : Order) (m : Dag.Memo Component Dependency) :
    b.rekey order m = (order.arrange b.entries).foldl
      (fun found entry => found.append (m.imageOf entry.1) (entry.2.map (moved m entry.1))) empty :=
  rfl

theorem AllHeads.rekey (hb : ∀ entry ∈ b.entries, K (m.imageOf entry.1)) :
    (b.rekey order m).AllHeads K := by
  rw [rekey_eq]
  refine List.foldlRecOn _ _ (by simp [AllHeads, empty]) fun found hfound entry hentry => ?_
  exact hfound.append (hb entry (Order.mem_arrange.1 hentry))

theorem AllEdges.rekey (himages : ∀ entry ∈ b.entries, (m.imageOf entry.1).WellBuilt)
    (hb : ∀ entry ∈ b.entries, ∀ e ∈ entry.2, ∀ k, k.WellBuilt →
      (k == m.imageOf entry.1) = true → P k (moved m entry.1 e)) :
    (b.rekey order m).AllEdges P := by
  rw [rekey_eq]
  have key : ∀ found : BackEdges, found.AllHeads Dag.WellBuilt ∧ found.AllEdges P →
      ∀ entry ∈ order.arrange b.entries,
        (found.append (m.imageOf entry.1) (entry.2.map (moved m entry.1))).AllHeads Dag.WellBuilt ∧
        (found.append (m.imageOf entry.1) (entry.2.map (moved m entry.1))).AllEdges P := by
    rintro found ⟨hheads, hedges⟩ entry hentry
    have hentry := Order.mem_arrange.1 hentry
    refine ⟨hheads.append (himages entry hentry),
      hedges.append hheads (himages entry hentry) fun k hkw hk e he => ?_⟩
    obtain ⟨f, hf, rfl⟩ := List.mem_map.1 he
    exact hb entry hentry f hf k hkw hk
  exact (List.foldlRecOn _ _ (by simp [AllHeads, AllEdges, empty]) key).2

theorem edgesOf_rekey (hb : ∀ entry ∈ b.entries, (m.imageOf entry.1).WellBuilt) :
    (b.rekey order m).edgesOf h = (order.arrange b.entries).flatMap fun entry =>
      if m.imageOf entry.1 == h then entry.2.map (moved m entry.1) else [] := by
  have key : ∀ (entries : List (Graph × List GraphEdge)) (found : BackEdges),
      (∀ entry ∈ entries, (m.imageOf entry.1).WellBuilt) → found.AllHeads Dag.WellBuilt →
        (entries.foldl (fun found entry =>
          found.append (m.imageOf entry.1) (entry.2.map (moved m entry.1))) found).edgesOf h =
        found.edgesOf h ++ entries.flatMap fun entry =>
          if m.imageOf entry.1 == h then entry.2.map (moved m entry.1) else [] := by
    intro entries
    induction entries with
    | nil => simp
    | cons entry rest ih =>
      intro found hentries hfound
      have hentry := hentries entry (by simp)
      rw [List.foldl_cons, ih _ (fun e he => hentries e (by simp [he])) (hfound.append hentry),
        edgesOf_append hfound hentry, List.flatMap_cons]
      split <;> simp
  rw [rekey_eq, key _ empty (fun entry hentry => hb entry (Order.mem_arrange.1 hentry))
    (by simp [AllHeads, empty])]
  rfl

theorem moved_mem_edgesOf_rekey (hb : ∀ entry ∈ b.entries, (m.imageOf entry.1).WellBuilt)
    (hheads : b.AllHeads Dag.WellBuilt) (he : e ∈ b.edgesOf h) (hk : (m.imageOf h == k) = true) :
    ∃ f ∈ (b.rekey order m).edgesOf k, f.label = e.label := by
  obtain ⟨entry, hentry, hh, he⟩ := mem_edgesOf he
  refine ⟨moved m entry.1 e, ?_, rfl⟩
  rw [edgesOf_rekey hb]
  refine List.mem_flatMap.2 ⟨entry, Order.mem_arrange.2 hentry, ?_⟩
  rw [if_pos (Dag.beq_trans (Dag.Memo.imageOf_congr (hheads entry hentry) hh) hk)]
  exact List.mem_map_of_mem he

/-! ## Empty ones -/

theorem updateEntries_ne_nil (head : Graph) (change : List GraphEdge → List GraphEdge)
    (entries : List (Graph × List GraphEdge)) : updateEntries head change entries ≠ [] := by
  cases entries with
  | nil => exact List.cons_ne_nil _ _
  | cons entry rest =>
    rw [updateEntries]
    split <;> exact List.cons_ne_nil _ _

theorem entries_of_rekey {m : Dag.Memo Component Dependency} {order : Order}
    (h : (b.rekey order m).entries = []) : b.entries = [] := by
  have hfold : ∀ (entries : List (Graph × List GraphEdge)) (found : BackEdges),
      (entries.foldl (fun found entry =>
        let head := m.imageOf entry.1
        found.append head (entry.2.map fun e => ⟨head, m.imageOf e.tail, e.label⟩))
        found).entries = [] → found.entries = [] ∧ entries = [] := by
    intro entries
    induction entries with
    | nil => exact fun found h => ⟨h, rfl⟩
    | cons entry rest ih =>
      intro found h
      exact absurd (ih _ h).1 (updateEntries_ne_nil _ _ _)
  have hnil : order.arrange b.entries = [] := (hfold _ empty h).2
  exact List.nil_perm.1 (hnil ▸ order.perm b.entries)

end Wiring.BackEdges
