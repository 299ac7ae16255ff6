import Wiring.Catalog.Hierarchy
import Mathlib.Tactic.Common

/-!
# Walks up the hierarchy end

`Climbs` walks up level by level, with no bound on the number of levels. Types may extend each other
in a cycle: every level has a declared supertype that none before it had, so there are only so many.
-/

namespace Wiring.Catalog

variable {c : Catalog} {distance fuel : Nat} {seen level : List TypeKey} {t : TypeKey}

inductive Climbs (c : Catalog) :
    Nat → List TypeKey → List TypeKey → List (TypeKey × Nat) → Prop
  | top {distance : Nat} {seen level : List TypeKey} : c.nextLevel seen level = [] →
      Climbs c distance seen level (level.map (·, distance))
  | up {distance : Nat} {seen level : List TypeKey} {above : List (TypeKey × Nat)} :
      c.nextLevel seen level ≠ [] →
      Climbs c (distance + 1) (seen ++ c.nextLevel seen level) (c.nextLevel seen level) above →
      Climbs c distance seen level (level.map (·, distance) ++ above)

theorem Climbs.unique {x y : List (TypeKey × Nat)} (hx : c.Climbs distance seen level x)
    (hy : c.Climbs distance seen level y) : x = y := by
  induction hx generalizing y with
  | top htop =>
    cases hy with
    | top _ => rfl
    | up hup _ => exact absurd htop hup
  | up hup _ ih =>
    cases hy with
    | top htop => exact absurd htop hup
    | up _ hy => rw [ih hy]

def ahead (c : Catalog) (seen : List TypeKey) : List TypeKey :=
  (c.types.flatMap (·.supertypes)).filter fun t => t ∉ seen

theorem mem_unseen {ts : List TypeKey} (h : t ∈ unseen seen ts) : t ∈ ts ∧ t ∉ seen := by
  induction ts generalizing seen with
  | nil => cases h
  | cons a ts ih =>
    rw [unseen] at h
    split at h
    · exact ⟨List.mem_cons_of_mem _ (ih h).1, (ih h).2⟩
    · rename_i ha
      rcases List.mem_cons.1 h with rfl | h
      · exact ⟨List.mem_cons_self, ha⟩
      · exact ⟨List.mem_cons_of_mem _ (ih h).1, fun ht => (ih h).2 (List.mem_cons_of_mem _ ht)⟩

theorem mem_ahead_of_nextLevel (h : t ∈ c.nextLevel seen level) : t ∈ c.ahead seen := by
  obtain ⟨hlevel, hseen⟩ := mem_unseen h
  obtain ⟨x, -, ht⟩ := List.mem_flatMap.1 hlevel
  unfold supertypesOf at ht
  cases hx : c.info? x with
  | none => simp [hx] at ht
  | some i =>
    rw [hx] at ht
    have hi : i ∈ c.types := List.mem_of_find?_eq_some hx
    exact List.mem_filter.2 ⟨List.mem_flatMap.2 ⟨i, hi, ht⟩, by simpa using hseen⟩

theorem length_ahead_lt (h : c.nextLevel seen level ≠ []) :
    (c.ahead (seen ++ c.nextLevel seen level)).length < (c.ahead seen).length := by
  have hahead : c.ahead (seen ++ c.nextLevel seen level) =
      (c.ahead seen).filter fun t => t ∉ c.nextLevel seen level := by
    unfold ahead
    rw [List.filter_filter]
    exact List.filter_congr fun t _ => by simp [Bool.and_comm]
  obtain ⟨t, ht⟩ := List.exists_mem_of_ne_nil _ h
  rw [hahead]
  exact List.length_filter_lt_length_iff_exists.2 ⟨t, mem_ahead_of_nextLevel ht, by simpa using ht⟩

theorem climbs_levels (h : (c.ahead seen).length < fuel) :
    c.Climbs distance seen level (c.levels fuel distance seen level) := by
  induction fuel generalizing distance seen level with
  | zero => omega
  | succ fuel ih =>
    rw [levels]
    split
    · rename_i htop
      rw [List.append_nil]
      exact .top (List.isEmpty_iff.1 htop)
    · rename_i hup
      have hup : c.nextLevel seen level ≠ [] := by simpa using hup
      have := length_ahead_lt hup
      exact .up hup (ih (by omega))

theorem climbs_ascent (c : Catalog) (t : TypeKey) : c.Climbs 0 [t] [t] (c.ascent t) := by
  refine climbs_levels ?_
  have := List.length_filter_le (fun x => decide (x ∉ [t])) (c.types.flatMap (·.supertypes))
  unfold levelBound ahead
  omega

end Wiring.Catalog
