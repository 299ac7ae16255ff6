import Wiring.Proofs.Catalog.Hierarchy
import Mathlib.Logic.Relation

/-!
# What can stand in for what

The walk up from a type comes by all that lies above it and by nothing else, so a type can stand in
for another iff declared supertypes lead from the one to the other. Hence every type can stand in
for itself, and what stands in for a type stands in for what that stands in for.
-/

namespace Wiring.Catalog

open Relation (ReflTransGen)

variable {c : Catalog} {distance : Nat} {seen level : List TypeKey} {t a b x : TypeKey}
  {found : List (TypeKey × Nat)}

def Extends (c : Catalog) (a b : TypeKey) : Prop := b ∈ c.supertypesOf a

theorem mem_unseen_of_mem {ts : List TypeKey} (h : t ∈ ts) : t ∈ seen ∨ t ∈ unseen seen ts := by
  induction ts generalizing seen with
  | nil => cases h
  | cons a ts ih =>
    rw [unseen]
    rcases List.mem_cons.1 h with rfl | h
    · by_cases ht : t ∈ seen
      · exact .inl ht
      · rw [if_neg ht]
        exact .inr List.mem_cons_self
    · split
      · exact ih h
      · have hrest : t ∈ a :: seen ∨ t ∈ unseen (a :: seen) ts := ih h
        rcases hrest with hseen | hmem
        · rcases List.mem_cons.1 hseen with rfl | hseen
          · exact .inr List.mem_cons_self
          · exact .inl hseen
        · exact .inr (List.mem_cons_of_mem _ hmem)

theorem Climbs.sound (h : c.Climbs distance seen level found) {p : TypeKey × Nat}
    (hp : p ∈ found) : ∃ x ∈ level, ReflTransGen c.Extends x p.1 := by
  have hlevel : ∀ {distance : Nat} {level : List TypeKey}, p ∈ level.map (·, distance) →
      ∃ x ∈ level, ReflTransGen c.Extends x p.1 := by
    intro distance level hp
    obtain ⟨x, hx, rfl⟩ := List.mem_map.1 hp
    exact ⟨x, hx, .refl⟩
  induction h with
  | top _ => exact hlevel hp
  | up _ _ ih =>
    rcases List.mem_append.1 hp with hp | hp
    · exact hlevel hp
    · obtain ⟨y, hy, hyp⟩ := ih hp
      obtain ⟨x, hx, hxy⟩ := List.mem_flatMap.1 (mem_unseen hy).1
      exact ⟨x, hx, .head hxy hyp⟩

theorem Climbs.level_subset (h : c.Climbs distance seen level found) (hx : x ∈ level) :
    x ∈ found.map (·.1) := by
  cases h with
  | top _ => simpa using hx
  | up _ _ => simp [hx]

theorem Climbs.closed (h : c.Climbs distance seen level found)
    (hseen : ∀ a ∈ seen, ∀ b, c.Extends a b → a ∈ level ∨ b ∈ seen) :
    ∀ a, a ∈ seen ∨ a ∈ found.map (·.1) → ∀ b, c.Extends a b → b ∈ seen ∨ b ∈ found.map (·.1) := by
  have hlevel : ∀ {seen level : List TypeKey} {a b}, a ∈ level → c.Extends a b →
      b ∈ seen ∨ b ∈ c.nextLevel seen level :=
    fun ha hb => mem_unseen_of_mem (List.mem_flatMap.2 ⟨_, ha, hb⟩)
  induction h with
  | top htop =>
    intro a ha b hb
    rcases ha with ha | ha
    · rcases hseen a ha b hb with ha | hb
      · rcases hlevel ha hb with hb | hb
        · exact .inl hb
        · simp [htop] at hb
      · exact .inl hb
    · rcases hlevel (by simpa using ha) hb with hb | hb
      · exact .inl hb
      · simp [htop] at hb
  | @up distance seen level above _ habove ih =>
    have hnext : ∀ a ∈ seen ++ c.nextLevel seen level, ∀ b, c.Extends a b →
        a ∈ c.nextLevel seen level ∨ b ∈ seen ++ c.nextLevel seen level := by
      intro a ha b hb
      rcases List.mem_append.1 ha with ha | ha
      · rcases hseen a ha b hb with ha | hb
        · exact .inr (List.mem_append.2 (hlevel ha hb))
        · exact .inr (List.mem_append_left _ hb)
      · exact .inl ha
    have hsplit : ∀ b, b ∈ seen ++ c.nextLevel seen level ∨ b ∈ above.map (·.1) →
        b ∈ seen ∨ b ∈ (level.map (·, distance) ++ above).map (·.1) := by
      rintro b (hb | hb)
      · rcases List.mem_append.1 hb with hb | hb
        · exact .inl hb
        · exact .inr (by simpa using .inr (by simpa using habove.level_subset hb))
      · exact .inr (by simpa using .inr (by simpa using hb))
    intro a ha b hb
    refine hsplit b ?_
    rcases ha with ha | ha
    · exact ih hnext a (.inl (List.mem_append_left _ ha)) b hb
    · rw [List.map_append, List.mem_append] at ha
      rcases ha with ha | ha
      · exact .inl (List.mem_append.2 (hlevel (by simpa using ha) hb))
      · exact ih hnext a (.inr ha) b hb

theorem mem_ascent_iff : b ∈ (c.ascent a).map (·.1) ↔ ReflTransGen c.Extends a b := by
  have h := climbs_ascent c a
  constructor
  · intro hb
    obtain ⟨p, hp, rfl⟩ := List.mem_map.1 hb
    obtain ⟨x, hx, hxp⟩ := h.sound hp
    exact List.mem_singleton.1 hx ▸ hxp
  · intro hab
    have hself : a ∈ (c.ascent a).map (·.1) := h.level_subset List.mem_cons_self
    induction hab with
    | refl => exact hself
    | @tail x y _ hxy ih =>
      rcases h.closed (fun a ha _ _ => .inl ha) x (.inr ih) y hxy with hy | hy
      · exact List.mem_singleton.1 hy ▸ hself
      · exact hy

theorem isAssignable_iff : c.isAssignable a b = true ↔ ReflTransGen c.Extends a b := by
  rw [← mem_ascent_iff]
  unfold isAssignable typeDistance?
  split
  · rename_i hab
    subst hab
    simp [(climbs_ascent c a).level_subset List.mem_cons_self]
  · rw [Option.isSome_map, List.find?_isSome, List.mem_map]
    simp

@[simp] theorem isAssignable_self (c : Catalog) (a : TypeKey) : c.isAssignable a a = true :=
  isAssignable_iff.2 .refl

theorem isAssignable_trans (h : c.isAssignable a b = true) (h' : c.isAssignable b t = true) :
    c.isAssignable a t = true :=
  isAssignable_iff.2 ((isAssignable_iff.1 h).trans (isAssignable_iff.1 h'))

theorem isAssignable_of_mem_supertypes (h : b ∈ c.supertypes a) : c.isAssignable a b = true := by
  obtain ⟨p, hp, rfl⟩ := List.mem_map.1 h
  exact isAssignable_iff.2 (mem_ascent_iff.1 (List.mem_map_of_mem (List.mem_filter.1 hp).1))

theorem isAssignable_of_mem_typesBetween (h : t ∈ c.typesBetween a b) :
    c.isAssignable a t = true :=
  isAssignable_of_mem_supertypes (List.mem_filter.1 h).1

end Wiring.Catalog
