import Wiring.Proofs.Catalog.Assignability
import Mathlib.Computability.StateTransition
import Mathlib.Order.Bounds.Basic

/-!
# Distances in the hierarchy

The levels of the walk up from a type are the types at one distance from it: the least number of
steps to declared supertypes. So what the queries tell of distances, supertypes and types between
is exact, in cyclic hierarchies too. A queue that takes in each type when it is first seen comes by
the types in the same order.
-/

namespace Wiring.Catalog

open Relation (ReflTransGen)
open StateTransition (Reaches eval mem_eval)

variable {c : Catalog} {distance k m n : Nat} {seen level ts : List TypeKey} {a b t x y : TypeKey}
  {found : List (TypeKey × Nat)}

/-- So many steps to a declared supertype lead from `a` to `b`. -/
inductive Hops (c : Catalog) (a : TypeKey) : Nat → TypeKey → Prop
  | here : Hops c a 0 a
  | up {n : Nat} {x y : TypeKey} : c.Hops a n x → c.Extends x y → Hops c a (n + 1) y

theorem hops_zero_iff : c.Hops a 0 b ↔ a = b := by
  constructor
  · intro h
    cases h
    rfl
  · rintro rfl
    exact .here

theorem Hops.trans (h : c.Hops a m b) (h' : c.Hops b n t) : c.Hops a (m + n) t := by
  induction h' with
  | here => exact h
  | up _ hxy ih => exact .up ih hxy

theorem reflTransGen_iff_hops : ReflTransGen c.Extends a b ↔ ∃ n, c.Hops a n b := by
  constructor
  · intro h
    induction h with
    | refl => exact ⟨0, .here⟩
    | tail _ hxy ih =>
      obtain ⟨n, hn⟩ := ih
      exact ⟨n + 1, .up hn hxy⟩
  · rintro ⟨n, h⟩
    induction h with
    | here => exact .refl
    | up _ hxy ih => exact ih.tail hxy

/-! ## Levels -/

/-- `b` is that far from `a`, and no nearer. -/
def Apart (c : Catalog) (a : TypeKey) (n : Nat) (b : TypeKey) : Prop :=
  IsLeast {m | c.Hops a m b} n

theorem Apart.unique (h : c.Apart a m b) (h' : c.Apart a n b) : m = n := IsLeast.unique h h'

theorem nodup_unseen (seen ts : List TypeKey) : (unseen seen ts).Nodup := by
  induction ts generalizing seen with
  | nil => exact .nil
  | cons t ts ih =>
    rw [unseen]
    split
    · exact ih seen
    · exact List.nodup_cons.2 ⟨fun h => (mem_unseen h).2 List.mem_cons_self, ih (t :: seen)⟩

/-- The walk up from `a` has come to distance `k`: the level is what is that far, and seen is what
is no farther. -/
structure AtDistance (c : Catalog) (a : TypeKey) (k : Nat) (seen level : List TypeKey) :
    Prop where
  nodup : level.Nodup
  level : ∀ x, x ∈ level ↔ c.Apart a k x
  seen : ∀ x, x ∈ seen ↔ ∃ m ≤ k, c.Hops a m x

theorem atDistance_start (c : Catalog) (a : TypeKey) : c.AtDistance a 0 [a] [a] where
  nodup := List.nodup_singleton a
  level x := by
    rw [List.mem_singleton]
    constructor
    · rintro rfl
      exact ⟨.here, fun _ _ => Nat.zero_le _⟩
    · intro h
      exact (hops_zero_iff.1 h.1).symm
  seen x := by
    rw [List.mem_singleton]
    constructor
    · rintro rfl
      exact ⟨0, Nat.le_refl 0, .here⟩
    · rintro ⟨m, hm, h⟩
      obtain rfl := Nat.le_zero.1 hm
      exact (hops_zero_iff.1 h).symm

theorem AtDistance.mem_nextLevel_iff (h : c.AtDistance a k seen level) :
    x ∈ c.nextLevel seen level ↔ c.Apart a (k + 1) x := by
  constructor
  · intro hx
    obtain ⟨hlevel, hnew⟩ := mem_unseen hx
    obtain ⟨y, hy, hyx⟩ := List.mem_flatMap.1 hlevel
    refine ⟨.up ((h.level y).1 hy).1 hyx, fun m hm => ?_⟩
    by_contra hlt
    exact hnew ((h.seen x).2 ⟨m, by omega, hm⟩)
  · rintro ⟨hx, hleast⟩
    have hnew : x ∉ seen := by
      intro hx
      obtain ⟨m, hm, hmx⟩ := (h.seen x).1 hx
      have : k + 1 ≤ m := hleast hmx
      omega
    cases hx with
    | @up _ y _ hy hyx =>
      -- A shorter way to `y` would be a shorter way to `x`.
      have hylevel : y ∈ level := (h.level y).2 ⟨hy, fun m hm => by
        have : k + 1 ≤ m + 1 := hleast (Hops.up hm hyx)
        omega⟩
      exact (mem_unseen_of_mem (List.mem_flatMap.2 ⟨y, hylevel, hyx⟩)).resolve_left hnew

theorem AtDistance.up (h : c.AtDistance a k seen level) :
    c.AtDistance a (k + 1) (seen ++ c.nextLevel seen level) (c.nextLevel seen level) where
  nodup := nodup_unseen _ _
  level _ := h.mem_nextLevel_iff
  seen x := by
    rw [List.mem_append, h.seen, h.mem_nextLevel_iff]
    constructor
    · rintro (⟨m, hm, hx⟩ | hx)
      · exact ⟨m, by omega, hx⟩
      · exact ⟨k + 1, Nat.le_refl _, hx.1⟩
    · rintro ⟨m, hm, hx⟩
      by_cases hnear : ∃ m ≤ k, c.Hops a m x
      · exact .inl hnear
      · obtain rfl : m = k + 1 := by
          by_contra hne
          exact hnear ⟨m, by omega, hx⟩
        refine .inr ⟨hx, fun l hl => ?_⟩
        by_contra hlt
        exact hnear ⟨l, by omega, hl⟩

structure Found (c : Catalog) (a : TypeKey) (k : Nat) (found : List (TypeKey × Nat)) : Prop where
  nodup : (found.map (·.1)).Nodup
  sorted : found.Pairwise fun p q => p.2 ≤ q.2
  apart : ∀ p ∈ found, c.Apart a p.2 p.1
  far : ∀ p ∈ found, k ≤ p.2

theorem AtDistance.finds (h : c.AtDistance a k seen level) :
    c.Found a k (level.map (·, k)) where
  nodup := by
    rw [List.map_map]
    exact h.nodup.map fun _ _ => id
  sorted := List.pairwise_map.2 (List.pairwise_of_forall fun _ _ => Nat.le_refl k)
  apart := List.forall_mem_map.2 fun x hx => (h.level x).1 hx
  far := List.forall_mem_map.2 fun _ _ => Nat.le_refl k

theorem Found.append {near far : List (TypeKey × Nat)} (h : c.Found a k near)
    (hk : ∀ p ∈ near, p.2 = k) (h' : c.Found a (k + 1) far) : c.Found a k (near ++ far) where
  nodup := by
    rw [List.map_append]
    refine List.nodup_append.2 ⟨h.nodup, h'.nodup, ?_⟩
    -- One type is not at two distances.
    intro x hx y hy hxy
    obtain ⟨p, hp, rfl⟩ := List.mem_map.1 hx
    obtain ⟨q, hq, rfl⟩ := List.mem_map.1 hy
    have hpq := (h.apart p hp).unique (hxy ▸ h'.apart q hq)
    have := hk p hp
    have := h'.far q hq
    omega
  sorted := by
    refine List.pairwise_append.2 ⟨h.sorted, h'.sorted, fun p hp q hq => ?_⟩
    have := hk p hp
    have := h'.far q hq
    omega
  apart := List.forall_mem_append.2 ⟨h.apart, h'.apart⟩
  far := List.forall_mem_append.2 ⟨h.far, fun q hq => Nat.le_of_succ_le (h'.far q hq)⟩

theorem Climbs.finds (h : c.Climbs k seen level found) (hk : c.AtDistance a k seen level) :
    c.Found a k found := by
  induction h with
  | top _ => exact hk.finds
  | up _ _ ih => exact hk.finds.append (List.forall_mem_map.2 fun _ _ => rfl) (ih hk.up)

theorem found_ascent (c : Catalog) (a : TypeKey) : c.Found a 0 (c.ascent a) :=
  (climbs_ascent c a).finds (atDistance_start c a)

/-! ## The queries -/

theorem mem_ascent_apart : (b, n) ∈ c.ascent a ↔ c.Apart a n b := by
  constructor
  · exact (found_ascent c a).apart (b, n)
  · intro h
    have hmem := mem_ascent_iff.2 (reflTransGen_iff_hops.2 ⟨n, h.1⟩)
    obtain ⟨⟨y, m⟩, hp, rfl⟩ := List.mem_map.1 hmem
    rw [h.unique ((found_ascent c a).apart _ hp)]
    exact hp

theorem typeDistance?_eq_some_iff : c.typeDistance? a b = some n ↔ c.Apart a n b := by
  unfold typeDistance?
  split
  · rename_i hab
    subst hab
    have hself : c.Apart a 0 a := ⟨.here, fun _ _ => Nat.zero_le _⟩
    rw [Option.some_inj]
    exact ⟨fun h => h ▸ hself, fun h => hself.unique h⟩
  · rw [Option.map_eq_some_iff]
    constructor
    · rintro ⟨p, hp, rfl⟩
      have hpb : p.1 = b := by simpa using List.find?_some hp
      exact hpb ▸ (found_ascent c a).apart p (List.mem_of_find?_eq_some hp)
    · intro h
      have hmem := mem_ascent_apart.2 h
      cases hp : (c.ascent a).find? (·.1 == b) with
      | none => simpa using List.find?_eq_none.1 hp _ hmem
      | some p =>
        have hpb : p.1 = b := by simpa using List.find?_some hp
        have hapart := (found_ascent c a).apart p (List.mem_of_find?_eq_some hp)
        exact ⟨p, rfl, (hpb ▸ hapart).unique h⟩

theorem typeDistance?_eq_none_iff : c.typeDistance? a b = none ↔ ∀ n, ¬ c.Hops a n b := by
  have hassignable : c.typeDistance? a b = none ↔ ¬ c.isAssignable a b = true := by
    unfold isAssignable
    simp
  rw [hassignable, isAssignable_iff, reflTransGen_iff_hops, not_exists]

theorem typeDistance?_triangle (hm : c.typeDistance? a b = some m)
    (hn : c.typeDistance? b t = some n) : ∃ k ≤ m + n, c.typeDistance? a t = some k := by
  have hway : c.Hops a (m + n) t :=
    (typeDistance?_eq_some_iff.1 hm).1.trans (typeDistance?_eq_some_iff.1 hn).1
  cases h : c.typeDistance? a t with
  | none => exact absurd hway (typeDistance?_eq_none_iff.1 h _)
  | some k => exact ⟨k, (typeDistance?_eq_some_iff.1 h).2 hway, rfl⟩

theorem mem_supertypes_iff : x ∈ c.supertypes a ↔ x ≠ a ∧ ReflTransGen c.Extends a x := by
  unfold supertypes
  rw [← mem_ascent_iff, List.mem_map, List.mem_map]
  have hpos : ∀ p ∈ c.ascent a, 0 < p.2 ↔ p.1 ≠ a := by
    intro p hp
    have hapart := (found_ascent c a).apart p hp
    rw [Nat.pos_iff_ne_zero]
    refine not_congr ⟨fun h => ?_, fun h => ?_⟩
    · exact (hops_zero_iff.1 (h ▸ hapart.1)).symm
    · exact Nat.le_zero.1 (hapart.2 (h ▸ Hops.here))
  constructor
  · rintro ⟨p, hp, rfl⟩
    obtain ⟨hp, h⟩ := List.mem_filter.1 hp
    exact ⟨(hpos p hp).1 (by simpa using h), p, hp, rfl⟩
  · rintro ⟨hne, p, hp, rfl⟩
    exact ⟨p, List.mem_filter.2 ⟨hp, by simpa using (hpos p hp).2 hne⟩, rfl⟩

theorem nodup_supertypes (c : Catalog) (a : TypeKey) : (c.supertypes a).Nodup :=
  (found_ascent c a).nodup.sublist (List.filter_sublist.map _)

theorem supertypes_sorted (c : Catalog) (a : TypeKey) :
    (c.supertypes a).Pairwise fun x y =>
      ∀ m n, c.typeDistance? a x = some m → c.typeDistance? a y = some n → m ≤ n := by
  have hfound := found_ascent c a
  refine List.pairwise_map.2 ((hfound.sorted.imp_of_mem ?_).sublist List.filter_sublist)
  intro p q hp hq hle m n hm hn
  rw [(typeDistance?_eq_some_iff.1 hm).unique (hfound.apart p hp),
    (typeDistance?_eq_some_iff.1 hn).unique (hfound.apart q hq)]
  exact hle

theorem mem_typesBetween_iff : x ∈ c.typesBetween a b ↔
    x ≠ a ∧ x ≠ b ∧ ReflTransGen c.Extends a x ∧ ReflTransGen c.Extends x b := by
  unfold typesBetween
  rw [List.mem_filter, mem_supertypes_iff, Bool.and_eq_true, isAssignable_iff, bne_iff_ne]
  tauto

/-! ## The walk with a queue -/

structure Climb where
  queue : List (TypeKey × Nat)
  seen : List TypeKey
  order : List (TypeKey × Nat)

namespace Climb

/-- Takes the first in the queue and queues those of its supertypes that are seen for the first
time. -/
def step? (c : Catalog) : Climb → Option Climb
  | ⟨[], _, _⟩ => none
  | ⟨(t, n) :: queue, seen, order⟩ =>
    let new := unseen seen (c.supertypesOf t)
    some ⟨queue ++ new.map (·, n + 1), seen ++ new, order ++ [(t, n)]⟩

def start (t : TypeKey) : Climb := ⟨[(t, 0)], [t], []⟩

end Climb

theorem unseen_congr {seen' : List TypeKey} (h : ∀ t, t ∈ seen ↔ t ∈ seen') :
    unseen seen ts = unseen seen' ts := by
  induction ts generalizing seen seen' with
  | nil => rfl
  | cons t ts ih =>
    have hcons : ∀ x, x ∈ t :: seen ↔ x ∈ t :: seen' := by simp [h]
    simp only [unseen, h, ih h, ih hcons]

theorem unseen_append (xs ys : List TypeKey) :
    unseen seen (xs ++ ys) = unseen seen xs ++ unseen (seen ++ unseen seen xs) ys := by
  induction xs generalizing seen with
  | nil => simp [unseen]
  | cons t xs ih =>
    rw [List.cons_append, unseen, unseen]
    split
    · exact ih
    · rw [ih, List.cons_append]
      congr 2
      exact unseen_congr fun x => by simp [or_left_comm]

theorem reaches_level (c : Catalog) (level behind seen : List TypeKey)
    (order : List (TypeKey × Nat)) :
    Reaches (Climb.step? c)
      ⟨level.map (·, k) ++ behind.map (·, k + 1), seen, order⟩
      ⟨(behind ++ c.nextLevel seen level).map (·, k + 1), seen ++ c.nextLevel seen level,
        order ++ level.map (·, k)⟩ := by
  unfold nextLevel
  induction level generalizing behind seen order with
  | nil => simpa [unseen, Reaches] using ReflTransGen.refl
  | cons t level ih =>
    refine .head (b := ⟨level.map (·, k) ++ (behind ++ unseen seen (c.supertypesOf t)).map
      (·, k + 1), seen ++ unseen seen (c.supertypesOf t), order ++ [(t, k)]⟩) ?_ ?_
    · simp [Climb.step?]
    · have hrest := ih (behind ++ unseen seen (c.supertypesOf t))
        (seen ++ unseen seen (c.supertypesOf t)) (order ++ [(t, k)])
      rw [List.flatMap_cons, unseen_append]
      simpa [Reaches] using hrest

theorem Climbs.reaches (h : c.Climbs k seen level found) (order : List (TypeKey × Nat)) :
    ∃ seen', Reaches (Climb.step? c) ⟨level.map (·, k), seen, order⟩
      ⟨[], seen', order ++ found⟩ := by
  induction h generalizing order with
  | @top k seen level htop =>
    have hlevel := reaches_level (k := k) c level [] seen order
    rw [htop] at hlevel
    exact ⟨_, by simpa using hlevel⟩
  | @up k seen level above _ _ ih =>
    obtain ⟨seen', hrest⟩ := ih (order ++ level.map (·, k))
    have hlevel := reaches_level (k := k) c level [] seen order
    exact ⟨seen', .trans (by simpa [Reaches] using hlevel) (by simpa [Reaches] using hrest)⟩

theorem eval_climb (c : Catalog) (a : TypeKey) :
    (eval (Climb.step? c) (Climb.start a)).map (·.order) = Part.some (c.ascent a) := by
  obtain ⟨seen, h⟩ := (climbs_ascent c a).reaches []
  rw [Part.eq_some_iff, Part.mem_map_iff]
  exact ⟨_, mem_eval.2 ⟨h, rfl⟩, rfl⟩

/-- What is told of distances is the least number of steps, what is told of assignability is
whether there is a way at all, and the lists of supertypes and of types between have what they
should, each type once and the nearest first. A walk with a queue ends, and tells the same. -/
theorem hierarchy_exact (c : Catalog) (a b t : TypeKey) :
    (∀ n, c.typeDistance? a b = some n ↔ IsLeast {m | c.Hops a m b} n) ∧
      (c.typeDistance? a b = none ↔ ∀ n, ¬ c.Hops a n b) ∧
      (c.isAssignable a b = true ↔ ReflTransGen c.Extends a b) ∧
      (∀ m n, c.typeDistance? a b = some m → c.typeDistance? b t = some n →
        ∃ k ≤ m + n, c.typeDistance? a t = some k) ∧
      ((c.supertypes a).Nodup ∧
        (∀ x, x ∈ c.supertypes a ↔ x ≠ a ∧ ReflTransGen c.Extends a x) ∧
        (c.supertypes a).Pairwise fun x y =>
          ∀ m n, c.typeDistance? a x = some m → c.typeDistance? a y = some n → m ≤ n) ∧
      ((c.typesBetween a b).Sublist (c.supertypes a) ∧
        ∀ x, x ∈ c.typesBetween a b ↔
          x ≠ a ∧ x ≠ b ∧ ReflTransGen c.Extends a x ∧ ReflTransGen c.Extends x b) ∧
      (eval (Climb.step? c) (Climb.start a)).map (·.order) = Part.some (c.ascent a) :=
  ⟨fun _ => typeDistance?_eq_some_iff, typeDistance?_eq_none_iff, isAssignable_iff,
    fun _ _ => typeDistance?_triangle,
    ⟨nodup_supertypes c a, fun _ => mem_supertypes_iff, supertypes_sorted c a⟩,
    ⟨List.filter_sublist, fun _ => mem_typesBetween_iff⟩, eval_climb c a⟩

/-- A diamond that leads back to where it starts. -/
example :
    let spec (name : String) (above : List String) : TypeSpec :=
      { key := .named name, instantiable := true, supertypes := above.map .named }
    let c := Catalog.freeze
      [spec "A" ["B", "C"], spec "B" ["D"], spec "C" ["D"], spec "D" ["A"]] []
    c.supertypes (.named "A") = [.named "B", .named "C", .named "D"] ∧
      c.typeDistance? (.named "D") (.named "C") = some 2 := by
  decide

end Wiring.Catalog
