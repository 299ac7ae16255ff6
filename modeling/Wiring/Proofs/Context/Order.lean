import Wiring.Context.Match
import Mathlib.Order.Defs.LinearOrder

/-!
# The order of context matches

Matches are compared by three lists of numbers, one after the other. Read so, the order is a total
preorder, and a match that goes on where another one ends comes before it.
-/

namespace Wiring

section

variable {α : Type} {cmp : α → α → Ordering} [Std.OrientedCmp cmp]

theorem isLE_of_ne_lt {a b : α} (h : cmp b a ≠ .lt) : (cmp a b).isLE := by
  by_contra hgt
  exact h (Std.OrientedCmp.lt_of_not_isLE hgt)

theorem isLE_or_isLE (a b : α) : (cmp a b).isLE ∨ (cmp b a).isLE := by
  by_cases h : cmp b a = .lt
  · exact .inr (Ordering.isLE_of_eq_lt h)
  · exact .inl (isLE_of_ne_lt h)

end

namespace ContextMatch

/-- Of two lists the one with the smaller first difference comes first, and a list that ends counts
as larger there. -/
def closer : List Nat → List Nat → Ordering := flip (List.compareLex (flip compare))

theorem closer_cons (a b : Nat) (as bs : List Nat) :
    closer (a :: as) (b :: bs) = (compare a b).then (closer as bs) := by
  unfold closer flip
  rw [List.compareLex_cons_cons]

instance : Std.TransCmp closer := inferInstanceAs (Std.TransCmp (flip _))

theorem closer_eq (as bs : List Nat) :
    closer as bs = (pairwiseOrder as bs).then (compare bs.length as.length) := by
  induction as generalizing bs with
  | nil =>
    cases bs with
    | nil => rfl
    | cons b bs => exact (Nat.compare_eq_gt.mpr (Nat.succ_pos _)).symm
  | cons a as ih =>
    cases bs with
    | nil => exact (Nat.compare_eq_lt.mpr (Nat.succ_pos _)).symm
    | cons b bs =>
      have hlength : compare (b :: bs).length (a :: as).length = compare bs.length as.length := by
        simp [Nat.compare_eq_ite_lt]
      unfold pairwiseOrder
      rw [closer_cons, ih, hlength, Ordering.then_assoc]

theorem closer_append_singleton (as : List Nat) (a : Nat) : closer (as ++ [a]) as = .lt := by
  induction as with
  | nil => rfl
  | cons b as ih =>
    rw [List.cons_append, closer_cons, ih]
    simp

theorem pairwiseOrder_eq {as bs : List Nat} (h : as.length = bs.length) :
    pairwiseOrder as bs = compare as bs := by
  induction as generalizing bs with
  | nil =>
    cases bs with
    | nil => rfl
    | cons b bs => simp at h
  | cons a as ih =>
    cases bs with
    | nil => simp at h
    | cons b bs =>
      unfold pairwiseOrder
      rw [ih (by simpa using h), List.compare_cons_cons]

theorem closer_eq_eq_iff {as bs : List Nat} : closer as bs = .eq ↔ as = bs := by
  rw [closer_eq, Ordering.then_eq_eq, Nat.compare_eq_eq]
  constructor
  · rintro ⟨horder, hlength⟩
    rw [pairwiseOrder_eq hlength.symm] at horder
    exact Std.LawfulEqCmp.eq_of_compare horder
  · rintro rfl
    rw [pairwiseOrder_eq rfl]
    exact ⟨Std.ReflCmp.compare_self, rfl⟩

def distances (m : ContextMatch) : List Nat := m.frames.map m.distanceToEnd

def typeDistances (m : ContextMatch) : List Nat := m.frames.map (·.typeDistance)

def priorities (m : ContextMatch) : List Nat := m.frames.map (·.qualifierPriority)

theorem order_eq : order =
    compareLex (Ordering.byKey distances closer)
      (compareLex (compareOn typeDistances) (compareOn priorities)) := by
  funext a b
  have hfirst : closer a.distances b.distances =
      (pairwiseOrder a.distances b.distances).then (compare b.frames.length a.frames.length) := by
    rw [closer_eq]
    simp [distances]
  have horder : order a b = (closer a.distances b.distances).then
      ((pairwiseOrder a.typeDistances b.typeDistances).then
        (pairwiseOrder a.priorities b.priorities)) := by
    rw [hfirst, Ordering.then_assoc]
    rfl
  rw [horder]
  unfold compareLex Ordering.byKey compareOn
  cases hc : closer a.distances b.distances with
  | lt => rfl
  | gt => rfl
  | eq =>
    -- equally close matches take equally many frames
    have hlength : a.frames.length = b.frames.length := by
      rw [hfirst, Ordering.then_eq_eq, Nat.compare_eq_eq] at hc
      exact hc.2.symm
    rw [pairwiseOrder_eq (by simpa [typeDistances] using hlength),
      pairwiseOrder_eq (by simpa [priorities] using hlength)]

theorem order_eq_eq_iff {a b : ContextMatch} : order a b = .eq ↔
    a.distances = b.distances ∧ a.typeDistances = b.typeDistances ∧
      a.priorities = b.priorities := by
  rw [order_eq, compareLex_eq_eq, compareLex_eq_eq]
  unfold Ordering.byKey compareOn
  rw [closer_eq_eq_iff, Std.LawfulEqOrd.compare_eq_iff_eq, Std.LawfulEqOrd.compare_eq_iff_eq]

instance : Std.TransCmp order := by
  rw [order_eq]
  infer_instance

theorem order_eq_lt {a b : ContextMatch} (h : closer a.distances b.distances = .lt) :
    order a b = .lt := by
  rw [order_eq]
  unfold compareLex Ordering.byKey
  rw [h]
  rfl

theorem isLE_closer {a b : ContextMatch} (h : (order a b).isLE) :
    (closer a.distances b.distances).isLE := by
  rw [order_eq] at h
  unfold compareLex Ordering.byKey at h
  cases hc : closer a.distances b.distances with
  | gt =>
    rw [hc] at h
    cases h
  | _ => rfl

end ContextMatch

end Wiring
