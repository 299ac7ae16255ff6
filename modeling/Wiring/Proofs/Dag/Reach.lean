import Wiring.Dag.Search
import Wiring.Proofs.Dag.Equality

/-!
# Nodes below a node

`Has` says that a node is another one or below it. The walk `sorted` lists all of them up to
equality, so `reaches` decides it up to equality. No node equals one below it.
-/

namespace Wiring.Dag

variable {V E : Type}

inductive Has : Dag V E → Dag V E → Prop
  | self (d : Dag V E) : Has d d
  | step {d x : Dag V E} {e : E × Dag V E} : e ∈ d.edges → Has e.2 x → Has d x

namespace Has

variable {a b c d x y : Dag V E}

theorem trans (h : a.Has b) (h' : b.Has c) : a.Has c := by
  induction h with
  | self => exact h'
  | step he _ ih => exact .step he (ih h')

theorem edge {e : E × Dag V E} (h : d.Has x) (he : e ∈ x.edges) : d.Has e.2 :=
  h.trans (.step he (.self _))

theorem eq_or_below (h : d.Has x) : x = d ∨ ∃ e ∈ d.edges, e.2.Has x := by
  cases h with
  | self => exact .inl rfl
  | step he hx => exact .inr ⟨_, he, hx⟩

variable [BEq V] [EquivBEq V] [BEq E] [EquivBEq E]

theorem congr (h : a.Has x) (hab : (a == b) = true) : ∃ y, b.Has y ∧ (x == y) = true := by
  induction h generalizing b with
  | self => exact ⟨b, .self b, hab⟩
  | step he _ ih =>
    obtain ⟨f, hf, _, hef⟩ := edge_of_beq hab he
    obtain ⟨y, hy, hxy⟩ := ih hef
    exact ⟨y, .step hf hy, hxy⟩

variable [Hashable V] [Hashable E]

theorem wellBuilt (h : d.Has x) (hd : d.WellBuilt) : x.WellBuilt := by
  induction h with
  | self => exact hd
  | step he _ ih => exact ih (hd.tail he)

end Has

mutual

/-- The node and all below it, each as often as there is a way to it. -/
def subnodes : Dag V E → List (Dag V E)
  | node t h l es => node t h l es :: subnodesAll es

def subnodesAll : List (E × Dag V E) → List (Dag V E)
  | [] => []
  | (_, d) :: rest => d.subnodes ++ subnodesAll rest

end

section Listed

variable {d x : Dag V E}

theorem mem_subnodesAll {es : List (E × Dag V E)} :
    x ∈ subnodesAll es ↔ ∃ e ∈ es, x ∈ e.2.subnodes := by
  induction es with
  | nil => simp [subnodesAll]
  | cons e es ih => simp [subnodesAll, ih]

theorem mem_subnodes : x ∈ d.subnodes ↔ d.Has x := by
  induction d using induction with
  | step d ih =>
    obtain ⟨t, h, l, es⟩ := d
    rw [subnodes, List.mem_cons, mem_subnodesAll]
    constructor
    · rintro (rfl | ⟨e, he, hx⟩)
      · exact .self _
      · exact .step he ((ih e he).1 hx)
    · intro hx
      refine hx.eq_or_below.imp_right fun ⟨e, he, hx⟩ => ⟨e, he, (ih e he).2 hx⟩

end Listed

section Walk

variable [BEq V] [EquivBEq V] [BEq E] [EquivBEq E] {a b d x y : Dag V E}

theorem beq_below : ∀ {d : Dag V E} {e : E × Dag V E} {x : Dag V E}, e ∈ d.edges → e.2.Has x →
    (d == x) = false := by
  intro d
  induction d using induction with
  | step d ih =>
    intro e x he hx
    rw [Bool.eq_false_iff]
    intro hdx
    -- Then `e.2` equals a tail of `x`, which is properly below `e.2`.
    obtain ⟨f, hf, _, hef⟩ := edge_of_beq hdx he
    rcases (hx.edge hf).eq_or_below with heq | ⟨g, hg, hfg⟩
    · rcases hx.eq_or_below with rfl | ⟨g, hg, hgx⟩
      · have := ih e he hf (.self _)
        simp [hef] at this
      · have := ih e he hg (hgx.edge hf)
        simp [hef] at this
    · have := ih e he hg hfg
      simp [hef] at this

/-! ## The walk -/

def Closed (order : List (Dag V E)) : Prop :=
  ∀ y ∈ order, ∀ e ∈ y.edges, ∃ z ∈ order, (e.2 == z) = true

theorem Closed.has {order : List (Dag V E)} (hc : Closed order) (h : d.Has x) :
    ∀ {w}, w ∈ order → (d == w) = true → ∃ z ∈ order, (x == z) = true := by
  induction h with
  | self => exact fun hw hdw => ⟨_, hw, hdw⟩
  | step he _ ih =>
    intro w hw hdw
    obtain ⟨f, hf, _, hef⟩ := edge_of_beq hdw he
    obtain ⟨z, hz, hfz⟩ := hc w hw f hf
    exact ih hz (beq_trans hef hfz)

theorem contains_iff {order : List (Dag V E)} :
    order.contains d = true ↔ ∃ z ∈ order, (d == z) = true := by
  rw [List.contains_eq_any_beq, List.any_eq_true]

/-- What a walk makes of an order: it keeps all members, adds only what `p` holds of, and leaves
nothing open. -/
structure Extends (p : Dag V E → Prop) (before after : List (Dag V E)) : Prop where
  keeps : ∀ y ∈ before, y ∈ after
  adds : ∀ y ∈ after, y ∈ before ∨ p y
  closed : Closed after

mutual

theorem visit_extends : ∀ (d : Dag V E) {order : List (Dag V E)}, Closed order →
    Extends d.Has order (visit d order) ∧ ∃ z ∈ visit d order, (d == z) = true
  | node t h l es, order, hc => by
    rw [visit]
    split
    · rename_i hin
      exact ⟨⟨fun _ hy => hy, fun _ hy => .inl hy, hc⟩, contains_iff.1 hin⟩
    · obtain ⟨hes, htails⟩ := visitAll_extends es hc
      refine ⟨⟨fun y hy => by simp [hes.keeps y hy], fun y hy => ?_, fun y hy e he => ?_⟩,
        ⟨_, by simp, same_refl _⟩⟩
      · rw [List.mem_append, List.mem_singleton] at hy
        rcases hy with hy | rfl
        · rcases hes.adds y hy with hy | ⟨e, he, hy⟩
          · exact .inl hy
          · exact .inr (.step he hy)
        · exact .inr (.self _)
      · rw [List.mem_append, List.mem_singleton] at hy
        rcases hy with hy | rfl
        · obtain ⟨z, hz, hez⟩ := hes.closed y hy e he
          exact ⟨z, by simp [hz], hez⟩
        · obtain ⟨z, hz, hez⟩ := htails e he
          exact ⟨z, by simp [hz], hez⟩

theorem visitAll_extends : ∀ (es : List (E × Dag V E)) {order : List (Dag V E)}, Closed order →
    Extends (fun y => ∃ e ∈ es, e.2.Has y) order (visitAll es order) ∧
      ∀ e ∈ es, ∃ z ∈ visitAll es order, (e.2 == z) = true
  | [], order, hc => by
    rw [visitAll]
    exact ⟨⟨fun _ hy => hy, fun _ hy => .inl hy, hc⟩, by simp⟩
  | (l, d) :: rest, order, hc => by
    rw [visitAll]
    obtain ⟨hd, z, hz, hdz⟩ := visit_extends d hc
    obtain ⟨hrest, htails⟩ := visitAll_extends rest hd.closed
    refine ⟨⟨fun y hy => hrest.keeps y (hd.keeps y hy), fun y hy => ?_, hrest.closed⟩, ?_⟩
    · rcases hrest.adds y hy with hy | ⟨e, he, hy⟩
      · rcases hd.adds y hy with hy | hy
        · exact .inl hy
        · exact .inr ⟨(l, d), by simp, hy⟩
      · exact .inr ⟨e, by simp [he], hy⟩
    · intro e he
      rcases List.mem_cons.1 he with rfl | he
      · exact ⟨z, hrest.keeps z hz, hdz⟩
      · exact htails e he

end

theorem closed_nil : Closed ([] : List (Dag V E)) := by simp [Closed]

theorem has_of_mem_sorted (h : x ∈ d.sorted) : d.Has x := by
  rcases (visit_extends d closed_nil).1.adds x h with h | h
  · simp at h
  · exact h

theorem reaches_iff : d.reaches x = true ↔ ∃ y, d.Has y ∧ (x == y) = true := by
  rw [reaches, contains_iff]
  constructor
  · rintro ⟨z, hz, hxz⟩
    exact ⟨z, has_of_mem_sorted hz, hxz⟩
  · rintro ⟨y, hy, hxy⟩
    obtain ⟨hext, w, hw, hdw⟩ := visit_extends d closed_nil
    obtain ⟨z, hz, hyz⟩ := hext.closed.has hy hw hdw
    exact ⟨z, hz, beq_trans hxy hyz⟩

theorem Has.reaches (h : d.Has x) : d.reaches x = true := reaches_iff.2 ⟨x, h, same_refl x⟩

theorem reaches_of_has (h : d.Has y) (h' : y.reaches x = true) : d.reaches x = true := by
  obtain ⟨z, hz, hxz⟩ := reaches_iff.1 h'
  exact reaches_iff.2 ⟨z, h.trans hz, hxz⟩

theorem reaches_of_edge {e : E × Dag V E} (he : e ∈ d.edges) (h : e.2.reaches x = true) :
    d.reaches x = true :=
  reaches_of_has (.step he (.self _)) h

theorem reaches_congr_left (h : d.reaches x = true) (hd : (d == b) = true) :
    b.reaches x = true := by
  obtain ⟨y, hy, hxy⟩ := reaches_iff.1 h
  obtain ⟨z, hz, hyz⟩ := hy.congr hd
  exact reaches_iff.2 ⟨z, hz, beq_trans hxy hyz⟩

theorem reaches_of_beq (h : d.reaches x = true) (hyx : (y == x) = true) : d.reaches y = true := by
  obtain ⟨z, hz, hxz⟩ := reaches_iff.1 h
  exact reaches_iff.2 ⟨z, hz, beq_trans hyx hxz⟩

theorem reaches_trans (h : d.reaches y = true) (h' : y.reaches x = true) : d.reaches x = true := by
  obtain ⟨z, hz, hyz⟩ := reaches_iff.1 h
  exact reaches_of_has hz (reaches_congr_left h' hyz)

theorem reaches_below {e : E × Dag V E} (hdx : (d == x) = true) (he : e ∈ d.edges)
    (hy : e.2.Has y) : y.reaches x = false := by
  rw [Bool.eq_false_iff]
  intro h
  obtain ⟨z, hz, hxz⟩ := reaches_iff.1 h
  have := beq_below he (hy.trans hz)
  simp [beq_trans hdx hxz] at this

/-! ## The order -/

mutual

theorem visit_distinct : ∀ (d : Dag V E) {order : List (Dag V E)}, Closed order →
    order.Pairwise (fun x y => (y == x) = false) →
    (visit d order).Pairwise (fun x y => (y == x) = false)
  | node t h l es, order, hc, hd => by
    rw [visit]
    split
    · exact hd
    · rename_i hnew
      apply List.pairwise_append.2 ⟨visitAll_distinct es hc hd, List.pairwise_singleton _ _, ?_⟩
      intro x hx y hy
      rw [List.mem_singleton.1 hy]
      rcases (visitAll_extends es hc).1.adds x hx with hold | ⟨e, he, hbelow⟩
      · rw [List.contains_eq_any_beq, Bool.not_eq_true, List.any_eq_false] at hnew
        simpa using hnew x hold
      · exact beq_below he hbelow

theorem visitAll_distinct : ∀ (es : List (E × Dag V E)) {order : List (Dag V E)}, Closed order →
    order.Pairwise (fun x y => (y == x) = false) →
    (visitAll es order).Pairwise (fun x y => (y == x) = false)
  | [], _, _, hd => by
    rw [visitAll]
    exact hd
  | (_, d) :: rest, _, hc, hd => by
    rw [visitAll]
    exact visitAll_distinct rest (visit_extends d hc).1.closed (visit_distinct d hc hd)

end

theorem sorted_eq (d : Dag V E) : d.sorted = visitAll d.edges [] ++ [d] := by
  obtain ⟨t, h, l, es⟩ := d
  rw [sorted, visit]
  rfl

theorem distinct_sorted (d : Dag V E) : d.sorted.Pairwise fun x y => (y == x) = false :=
  visit_distinct d closed_nil .nil

theorem Has.mem_sorted (h : d.Has x) : ∃ z ∈ d.sorted, (x == z) = true :=
  contains_iff.1 h.reaches

def Under (d x : Dag V E) : Prop := ∃ e ∈ d.edges, e.2.reaches x = true

theorem Under.reaches (h : Under d x) : d.reaches x = true := by
  obtain ⟨e, he, hx⟩ := h
  exact reaches_of_edge he hx

theorem Under.not_beq (h : Under d x) : (d == x) = false := by
  obtain ⟨e, he, hx⟩ := h
  obtain ⟨y, hy, hxy⟩ := reaches_iff.1 hx
  rw [Bool.eq_false_iff]
  intro hdx
  have := beq_below he hy
  simp [beq_trans hdx hxy] at this

theorem under_of_reaches (h : d.reaches x = true) (hne : (x == d) = false) : Under d x := by
  obtain ⟨y, hy, hxy⟩ := reaches_iff.1 h
  rcases hy.eq_or_below with rfl | ⟨e, he, hy⟩
  · simp [hxy] at hne
  · exact ⟨e, he, reaches_iff.2 ⟨y, hy, hxy⟩⟩

/-! ## Nodes that were not seen -/

variable {seen ds : List (Dag V E)}

theorem mem_unseen (h : x ∈ unseen seen ds) : x ∈ ds ∧ seen.contains x = false := by
  induction ds generalizing seen with
  | nil => cases h
  | cons d ds ih =>
    rw [unseen] at h
    split at h
    · exact ⟨List.mem_cons_of_mem _ (ih h).1, (ih h).2⟩
    · rename_i hnew
      rcases List.mem_cons.1 h with rfl | h
      · exact ⟨List.mem_cons_self, by simpa using hnew⟩
      · obtain ⟨hx, hseen⟩ := ih h
        simp only [List.contains_cons, Bool.or_eq_false_iff] at hseen
        exact ⟨List.mem_cons_of_mem _ hx, hseen.2⟩

theorem exists_of_unseen (h : x ∈ ds) : ∃ z ∈ seen ++ unseen seen ds, (x == z) = true := by
  induction ds generalizing seen with
  | nil => cases h
  | cons d ds ih =>
    rw [unseen]
    split
    · rename_i hseen
      rcases List.mem_cons.1 h with rfl | h
      · obtain ⟨z, hz, hxz⟩ := contains_iff.1 hseen
        exact ⟨z, List.mem_append_left _ hz, hxz⟩
      · exact ih h
    · rcases List.mem_cons.1 h with rfl | h
      · exact ⟨x, by simp, same_refl x⟩
      · obtain ⟨z, hz, hxz⟩ := @ih (d :: seen) h
        exact ⟨z, by simp at hz ⊢; tauto, hxz⟩

theorem distinct_unseen (seen ds : List (Dag V E)) :
    (unseen seen ds).Pairwise fun x y => (y == x) = false := by
  induction ds generalizing seen with
  | nil => exact .nil
  | cons d ds ih =>
    rw [unseen]
    split
    · exact ih seen
    · refine List.pairwise_cons.2 ⟨fun y hy => ?_, ih (d :: seen)⟩
      have hnew := (mem_unseen hy).2
      simp only [List.contains_cons, Bool.or_eq_false_iff] at hnew
      exact hnew.1

end Walk

theorem Has.not_root [BEq V] [EquivBEq V] [BEq E] [EquivBEq E] [Hashable V] [Hashable E]
    {d x y : Dag V E} (hd : d.WellBuilt) (hx : d.Has x) {e : E × Dag V E} (he : e ∈ x.edges)
    (hy : e.2.Has y) : (y == d) = false := by
  have hbelow : ∃ f ∈ d.edges, f.2.Has y := by
    rcases hx.eq_or_below with rfl | ⟨f, hf, hfx⟩
    · exact ⟨e, he, hy⟩
    · exact ⟨f, hf, hfx.trans (.step he hy)⟩
  obtain ⟨f, hf, hfy⟩ := hbelow
  rw [Bool.eq_false_iff]
  intro hyd
  have hdy := beq_symm ((hx.trans (.step he hy)).wellBuilt hd) hyd
  rw [beq_below hf hfy] at hdy
  cases hdy

end Wiring.Dag
