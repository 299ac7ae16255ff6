import Wiring.Proofs.Dag.Transform
import Wiring.Proofs.Dag.Walking
import Mathlib.Order.Bounds.Basic

/-!
# Nearest nodes

`byDistance` lists one node of those that are equal, at the distance of the nearest of them, and
nearer nodes come first. So what is found first in that order is nearest, and what is not found is
nowhere in the graph. A queue that takes in the nodes at the far ends of the edges of each node,
equal ones again and again, finds the same.
-/

namespace Wiring.Dag

open Relation (ReflTransGen)
open StateTransition (Reaches eval mem_eval)

variable {V E α : Type}

inductive Away (d : Dag V E) : Nat → Dag V E → Prop
  | here : Away d 0 d
  | along {n : Nat} {x : Dag V E} {e : E × Dag V E} : d.Away n x → e ∈ x.edges → Away d (n + 1) e.2

theorem Away.has {d x : Dag V E} {n : Nat} (h : d.Away n x) : d.Has x := by
  induction h with
  | here => exact .self d
  | along _ he ih => exact ih.edge he

theorem Has.exists_away {d x y : Dag V E} {n : Nat} (hx : d.Away n x) (h : x.Has y) :
    ∃ m, d.Away m y := by
  induction h generalizing n with
  | self => exact ⟨n, hx⟩
  | step he _ ih => exact ih (hx.along he)

theorem has_iff_away {d x : Dag V E} : d.Has x ↔ ∃ n, d.Away n x :=
  ⟨Has.exists_away .here, fun ⟨_, h⟩ => h.has⟩

variable [BEq V] [EquivBEq V] [BEq E] [EquivBEq E] {d x y z : Dag V E} {k m n fuel : Nat}
  {seen level queue : List (Dag V E)} {found : List (Dag V E × Nat)} {g : Dag V E → Option α}

/-- Each edge leads to an earlier place in an order with tails first, so no node is farther away
than the order is long. -/
theorem Away.lt_length (h : d.Away n x) : n < d.sorted.length := by
  have hplace : ∃ before z after, d.sorted = before ++ z :: after ∧ (x == z) = true ∧
      before.length + n < d.sorted.length := by
    induction h with
    | here =>
      refine ⟨visitAll d.edges [], d, [], sorted_eq d, same_refl d, ?_⟩
      rw [sorted_eq, List.length_append]
      exact Nat.lt_succ_self _
    | along _ he ih =>
      obtain ⟨before, z, after, horder, hxz, hlt⟩ := ih
      obtain ⟨f, hf, -, hef⟩ := edge_of_beq hxz he
      obtain ⟨w, hw, hfw⟩ := (ordered_sorted d).tails horder hf
      obtain ⟨first, last, rfl⟩ := List.append_of_mem hw
      refine ⟨first, w, last ++ z :: after, by simp [horder], beq_trans hef hfw, ?_⟩
      rw [List.length_append, List.length_cons] at hlt
      omega
  obtain ⟨before, z, after, -, -, hlt⟩ := hplace
  omega

/-! ## Levels -/

theorem levelsFrom_nil (fuel : Nat) (seen : List (Dag V E)) : levelsFrom fuel seen [] = [] := by
  cases fuel <;> rfl

theorem levelsFrom_succ (fuel : Nat) (seen level : List (Dag V E)) :
    levelsFrom (fuel + 1) seen level = unseen seen level ++
      levelsFrom fuel (seen ++ unseen seen level) ((unseen seen level).flatMap (·.adjacent)) := by
  rw [levelsFrom]
  split
  · rename_i hnone
    rw [List.isEmpty_iff.mp hnone, List.flatMap_nil, levelsFrom_nil]
  · rfl

/-- The walk down from `d` has come to distance `k`: nodes that are nearer equal one that was seen,
and those at this distance equal one that was seen or is in the level. -/
structure AtDistance (d : Dag V E) (k : Nat) (seen level : List (Dag V E)) : Prop where
  behind : ∀ x ∈ seen, ∃ m < k, d.Away m x
  here : ∀ x ∈ level, d.Away k x
  near : ∀ m < k, ∀ x, d.Away m x → ∃ z ∈ seen, (x == z) = true
  front : ∀ x, d.Away k x → ∃ z ∈ seen ++ level, (x == z) = true

theorem atDistance_start (d : Dag V E) : d.AtDistance 0 [] [d] where
  behind := List.forall_mem_nil _
  here := List.forall_mem_singleton.mpr .here
  near _ h := absurd h (Nat.not_lt_zero _)
  front x h := by
    cases h
    exact ⟨d, List.mem_singleton_self d, same_refl d⟩

theorem AtDistance.down (h : d.AtDistance k seen level) :
    d.AtDistance (k + 1) (seen ++ unseen seen level)
      ((unseen seen level).flatMap (·.adjacent)) := by
  have hseen : ∀ x ∈ seen ++ unseen seen level, ∃ m < k + 1, d.Away m x := by
    intro x hx
    rcases List.mem_append.mp hx with hx | hx
    · obtain ⟨m, hm, hx⟩ := h.behind x hx
      exact ⟨m, by omega, hx⟩
    · exact ⟨k, by omega, h.here x (mem_unseen hx).1⟩
  have hnear : ∀ m < k + 1, ∀ x, d.Away m x →
      ∃ z ∈ seen ++ unseen seen level, (x == z) = true := by
    intro m hm x hx
    rcases Nat.lt_succ_iff_lt_or_eq.mp hm with hm | rfl
    · obtain ⟨z, hz, hxz⟩ := h.near m hm x hx
      exact ⟨z, List.mem_append_left _ hz, hxz⟩
    · obtain ⟨z, hz, hxz⟩ := h.front x hx
      rcases List.mem_append.mp hz with hz | hz
      · exact ⟨z, List.mem_append_left _ hz, hxz⟩
      · obtain ⟨w, hw, hzw⟩ : ∃ w ∈ seen ++ unseen seen level, (z == w) = true :=
          exists_of_unseen hz
        exact ⟨w, hw, beq_trans hxz hzw⟩
  refine ⟨hseen, fun x hx => ?_, hnear, fun x hx => ?_⟩
  · obtain ⟨y, hy, hyx⟩ := List.mem_flatMap.mp hx
    obtain ⟨e, he, rfl⟩ := List.mem_map.mp hyx
    exact (h.here y (mem_unseen hy).1).along he
  · cases hx with
    | @along _ y e hy he =>
      obtain ⟨z, hz, hyz⟩ := hnear k (Nat.lt_succ_self k) y hy
      obtain ⟨f, hf, -, hef⟩ := edge_of_beq hyz he
      rcases List.mem_append.mp hz with hz | hz
      · -- a node that is equal but nearer has its tails among those seen
        obtain ⟨m, hm, hz⟩ := h.behind z hz
        obtain ⟨w, hw, hfw⟩ := hnear (m + 1) (by omega) f.2 (hz.along hf)
        exact ⟨w, List.mem_append_left _ hw, beq_trans hef hfw⟩
      · exact ⟨f.2, List.mem_append_right _ (List.mem_flatMap.mpr ⟨z, hz, List.mem_map_of_mem hf⟩),
          hef⟩

structure Ranked (d : Dag V E) (k : Nat) (seen : List (Dag V E))
    (found : List (Dag V E × Nat)) : Prop where
  away : ∀ p ∈ found, d.Away p.2 p.1
  far : ∀ p ∈ found, k ≤ p.2
  sorted : found.Pairwise fun p q => p.2 ≤ q.2
  near : ∀ n x, d.Away n x →
    (∃ z ∈ seen, (x == z) = true) ∨ ∃ p ∈ found, p.2 ≤ n ∧ (x == p.1) = true

theorem AtDistance.ranked (h : d.AtDistance k seen level) (hfuel : d.sorted.length ≤ fuel + k) :
    ∃ found, found.map (·.1) = levelsFrom fuel seen level ∧ d.Ranked k seen found := by
  induction fuel generalizing k seen level with
  | zero =>
    refine ⟨[], rfl, List.forall_mem_nil _, List.forall_mem_nil _, .nil, fun n x hx => ?_⟩
    have := hx.lt_length
    exact .inl (h.near n (by omega) x hx)
  | succ fuel ih =>
    obtain ⟨found, hfound, hranked⟩ := ih h.down (by omega)
    refine ⟨(unseen seen level).map (·, k) ++ found, ?_, ?_, ?_, ?_, fun n x hx => ?_⟩
    · rw [levelsFrom_succ, List.map_append, hfound, List.map_map]
      exact congrArg (· ++ _) (List.map_id _)
    · refine List.forall_mem_append.mpr ⟨List.forall_mem_map.mpr fun x hx => ?_, hranked.away⟩
      exact h.here x (mem_unseen hx).1
    · refine List.forall_mem_append.mpr ⟨List.forall_mem_map.mpr fun _ _ => Nat.le_refl k, ?_⟩
      exact fun p hp => Nat.le_of_succ_le (hranked.far p hp)
    · refine List.pairwise_append.mpr ⟨?_, hranked.sorted, fun p hp q hq => ?_⟩
      · exact List.pairwise_map.mpr (List.pairwise_of_forall fun _ _ => Nat.le_refl k)
      · obtain ⟨x, -, rfl⟩ := List.mem_map.mp hp
        exact Nat.le_of_succ_le (hranked.far q hq)
    · by_cases hn : n < k
      · exact .inl (h.near n hn x hx)
      · rcases hranked.near n x hx with ⟨z, hz, hxz⟩ | ⟨p, hp, hpn, hxp⟩
        · rcases List.mem_append.mp hz with hz | hz
          · exact .inl ⟨z, hz, hxz⟩
          · exact .inr ⟨(z, k), List.mem_append_left _ (List.mem_map_of_mem hz),
              Nat.le_of_not_lt hn, hxz⟩
        · exact .inr ⟨p, List.mem_append_right _ hp, hpn, hxp⟩

theorem ranked_byDistance (d : Dag V E) :
    ∃ found, found.map (·.1) = d.byDistance ∧ d.Ranked 0 [] found :=
  (atDistance_start d).ranked (Nat.le_refl _)

/-! ## The first that is found -/

theorem findSome?_byDistance (hg : ∀ x y, d.Has x → d.Has y → (x == y) = true →
      (g x).isSome = true → (g y).isSome = true) :
    (d.byDistance.findSome? g = none ↔ ∀ x, d.Has x → g x = none) ∧
      ∀ a, d.byDistance.findSome? g = some a → ∃ n x, d.Away n x ∧ g x = some a ∧
        IsLeast {m | ∃ y, d.Away m y ∧ (g y).isSome = true} n := by
  obtain ⟨found, hfound, hranked⟩ := ranked_byDistance d
  have hnear : ∀ {n x}, d.Away n x → (g x).isSome = true →
      ∃ p ∈ found, p.2 ≤ n ∧ (g p.1).isSome = true := by
    intro n x hx hsome
    rcases hranked.near n x hx with ⟨z, hz, -⟩ | ⟨p, hp, hpn, hxp⟩
    · cases hz
    · exact ⟨p, hp, hpn, hg x p.1 hx.has (hranked.away p hp).has hxp hsome⟩
  rw [← hfound, List.findSome?_map]
  refine ⟨⟨fun hnone x hx => ?_, fun hnone => ?_⟩, fun a ha => ?_⟩
  · obtain ⟨n, hx⟩ := has_iff_away.mp hx
    rw [← Option.not_isSome_iff_eq_none]
    intro hsome
    obtain ⟨p, hp, -, hpsome⟩ := hnear hx hsome
    have hpnone : g p.1 = none := List.findSome?_eq_none_iff.mp hnone p hp
    simp [hpnone] at hpsome
  · exact List.findSome?_eq_none_iff.mpr fun p hp => hnone p.1 (hranked.away p hp).has
  · obtain ⟨before, p, after, rfl, hp, hbefore⟩ := List.findSome?_eq_some_iff.mp ha
    have hpaway : d.Away p.2 p.1 := hranked.away p (List.mem_append_right _ List.mem_cons_self)
    have hpsome : (g p.1).isSome = true := Option.isSome_of_eq_some hp
    refine ⟨p.2, p.1, hpaway, hp, ⟨p.1, hpaway, hpsome⟩, ?_⟩
    rintro m ⟨y, hy, hsome⟩
    obtain ⟨q, hq, hqm, hqsome⟩ := hnear hy hsome
    -- what is before `p` has nothing, so the partner of `y` is `p` or behind it
    refine Nat.le_trans ?_ hqm
    rcases List.mem_append.mp hq with hq | hq
    · have hqnone : g q.1 = none := hbefore q hq
      simp [hqnone] at hqsome
    · rcases List.mem_cons.mp hq with rfl | hq
      · exact Nat.le_refl _
      · exact List.rel_of_pairwise_cons (List.pairwise_append.mp hranked.sorted).2.1 hq

def nodeWith (p : Dag V E → Bool) (x : Dag V E) : Option (Dag V E) := if p x then some x else none

theorem findNode?_eq (p : Dag V E → Bool) :
    d.findNode? p = d.byDistance.findSome? (nodeWith p) := by
  unfold findNode?
  induction d.byDistance with
  | nil => rfl
  | cons x xs ih =>
    rw [List.find?_cons, List.findSome?_cons, nodeWith, ih]
    cases p x <;> rfl

def edgeWith (q : Edge V E → Bool) (x : Dag V E) : Option (Edge V E) := x.outgoing.find? q

theorem findEdge?_eq (q : Edge V E → Bool) :
    d.findEdge? q = d.byDistance.findSome? (edgeWith q) := List.find?_flatMap

/-! ## The search with a queue -/

structure Sweep (V E α : Type) where
  queue : List (Dag V E)
  seen : List (Dag V E)
  found : Option α

namespace Sweep

def start (d : Dag V E) : Sweep V E α := ⟨[d], [], none⟩

/-- Takes the first node out of the queue and looks at it, unless an equal one was looked at before.
Where nothing is found the nodes at the far ends of its edges are queued, whether they were seen or
not. -/
def step? (g : Dag V E → Option α) : Sweep V E α → Option (Sweep V E α)
  | ⟨_, _, some _⟩ | ⟨[], _, none⟩ => none
  | ⟨d :: queue, seen, none⟩ =>
    if seen.contains d then some ⟨queue, seen, none⟩
    else match g d with
      | some a => some ⟨queue, seen ++ [d], some a⟩
      | none => some ⟨queue ++ d.adjacent, seen ++ [d], none⟩

theorem unseen_congr {seen' : List (Dag V E)} (h : ∀ x, seen.contains x = seen'.contains x)
    (ds : List (Dag V E)) : unseen seen ds = unseen seen' ds := by
  induction ds generalizing seen seen' with
  | nil => rfl
  | cons d ds ih =>
    have hcons : ∀ x, (d :: seen).contains x = (d :: seen').contains x := by
      simp only [List.contains_cons, h, implies_true]
    simp only [unseen, h, ih h, ih hcons]

/-- The queue takes one level after the other: either something is found in a node of the level that
was not seen before, or the next level is behind what was queued behind this one. -/
theorem reaches_level (g : Dag V E → Option α) (level behind seen : List (Dag V E)) :
    ∃ s, Reaches (step? g) ⟨level ++ behind, seen, none⟩ s ∧
      s.found = (unseen seen level).findSome? g ∧ (s.found = none →
        s = ⟨behind ++ (unseen seen level).flatMap (·.adjacent),
          seen ++ unseen seen level, none⟩) := by
  induction level generalizing behind seen with
  | nil => exact ⟨_, .refl, rfl, fun _ => by simp [unseen]⟩
  | cons d level ih =>
    cases hseen : seen.contains d with
    | true =>
      obtain ⟨s, hreach, hfound, hnone⟩ := ih behind seen
      rw [unseen, if_pos hseen]
      refine ⟨s, hreach.head ?_, hfound, hnone⟩
      show step? g ⟨d :: (level ++ behind), seen, none⟩ = _
      rw [step?, if_pos hseen]
    | false =>
      have hunseen : unseen seen (d :: level) = d :: unseen (seen ++ [d]) level := by
        rw [unseen, if_neg (by simp [hseen])]
        refine congrArg (d :: ·) (unseen_congr (fun x => ?_) level)
        rw [List.contains_cons, List.contains_eq_any_beq, List.contains_eq_any_beq, List.any_append,
          Bool.or_comm]
        simp
      rw [hunseen, List.findSome?_cons]
      cases hg : g d with
      | some a =>
        have hstep : step? g ⟨d :: (level ++ behind), seen, none⟩ =
            some ⟨level ++ behind, seen ++ [d], some a⟩ := by
          rw [step?, if_neg (by simp [hseen]), hg]
        exact ⟨_, .single hstep, rfl, fun h => absurd h (Option.some_ne_none a)⟩
      | none =>
        have hstep : step? g ⟨d :: (level ++ behind), seen, none⟩ =
            some ⟨level ++ behind ++ d.adjacent, seen ++ [d], none⟩ := by
          rw [step?, if_neg (by simp [hseen]), hg]
        obtain ⟨s, hreach, hfound, hnone⟩ := ih (behind ++ d.adjacent) (seen ++ [d])
        rw [← List.append_assoc] at hreach
        exact ⟨s, hreach.head hstep, hfound, fun h => by simp [hnone h]⟩

theorem reaches_levelsFrom (g : Dag V E → Option α) (h : d.AtDistance k seen level)
    (hfuel : d.sorted.length ≤ fuel + k) :
    ∃ s, Reaches (step? g) ⟨level, seen, none⟩ s ∧ step? g s = none ∧
      s.found = (levelsFrom fuel seen level).findSome? g := by
  induction fuel generalizing k seen level with
  | zero =>
    have hlevel : level = [] := by
      rw [List.eq_nil_iff_forall_not_mem]
      intro x hx
      have := (h.here x hx).lt_length
      omega
    exact ⟨⟨level, seen, none⟩, .refl, hlevel ▸ rfl, rfl⟩
  | succ fuel ih =>
    obtain ⟨s, hreach, hfound, hnone⟩ := reaches_level g level [] seen
    rw [List.append_nil] at hreach
    rw [levelsFrom_succ, List.findSome?_append, ← hfound]
    cases hs : s.found with
    | some a =>
      obtain ⟨queue, seen, found⟩ := s
      obtain rfl : found = some a := hs
      exact ⟨_, hreach, rfl, rfl⟩
    | none =>
      obtain ⟨s', hreach', hhalt, hfound'⟩ := ih h.down (by omega)
      rw [hnone hs] at hreach
      exact ⟨s', hreach.trans hreach', hhalt, hfound'⟩

theorem eval_start (g : Dag V E → Option α) (d : Dag V E) :
    (eval (step? g) (start d)).map (·.found) = Part.some (d.byDistance.findSome? g) := by
  have hfuel : d.sorted.length ≤ d.sorted.length + 0 := Nat.le_refl _
  obtain ⟨s, hreach, hhalt, hfound⟩ := reaches_levelsFrom g (atDistance_start d) hfuel
  rw [Part.eq_some_iff, Part.mem_map_iff]
  exact ⟨s, mem_eval.2 ⟨hreach, hhalt⟩, hfound⟩

end Sweep

/-! ## Nodes and edges -/

theorem findNode?_nearest {p : Dag V E → Bool}
    (hp : ∀ x y, d.Has x → d.Has y → (x == y) = true → p x = p y) :
    (d.findNode? p = none ↔ ∀ x, d.Has x → p x = false) ∧
      ∀ x, d.findNode? p = some x → p x = true ∧
        ∃ n, d.Away n x ∧ IsLeast {m | ∃ y, d.Away m y ∧ p y = true} n := by
  have hsome : ∀ x, (nodeWith p x).isSome = p x := by
    intro x
    unfold nodeWith
    cases p x <;> rfl
  have hnone : ∀ x, nodeWith p x = none ↔ p x = false := fun x => by
    rw [← hsome, Option.isSome_eq_false_iff, Option.isNone_iff_eq_none]
  have hrespects : ∀ x y, d.Has x → d.Has y → (x == y) = true → (nodeWith p x).isSome = true →
      (nodeWith p y).isSome = true := by
    intro x y hx hy hxy
    rw [hsome, hsome, hp x y hx hy hxy]
    exact id
  obtain ⟨hnowhere, hfirst⟩ := findSome?_byDistance hrespects
  rw [← findNode?_eq] at hnowhere hfirst
  simp only [hnone, hsome] at hnowhere hfirst
  refine ⟨hnowhere, fun x hx => ?_⟩
  obtain ⟨n, y, hy, hyx, hleast⟩ := hfirst x hx
  obtain ⟨hpy, rfl⟩ : p y = true ∧ y = x := by
    simpa [nodeWith] using hyx
  exact ⟨hpy, n, hy, hleast⟩

theorem findEdge?_nearest {q : Edge V E → Bool}
    (hq : ∀ e f : Edge V E, d.Has e.head → d.Has f.head → (e == f) = true → q e = q f) :
    (d.findEdge? q = none ↔ ∀ x, d.Has x → ∀ e ∈ x.outgoing, q e = false) ∧
      ∀ e, d.findEdge? q = some e → q e = true ∧ e ∈ e.head.outgoing ∧ ∃ n, d.Away n e.head ∧
        IsLeast {m | ∃ y, d.Away m y ∧ ∃ f ∈ y.outgoing, q f = true} n := by
  have hsome : ∀ x, (edgeWith q x).isSome = true ↔ ∃ e ∈ x.outgoing, q e = true := fun _ =>
    List.find?_isSome
  have hnone : ∀ x, edgeWith q x = none ↔ ∀ e ∈ x.outgoing, q e = false := fun x => by
    simp [edgeWith, List.find?_eq_none]
  have hrespects : ∀ x y, d.Has x → d.Has y → (x == y) = true → (edgeWith q x).isSome = true →
      (edgeWith q y).isSome = true := by
    intro x y hx hy hxy
    rw [hsome, hsome]
    rintro ⟨_, hmem, hqe⟩
    obtain ⟨e, he, rfl⟩ := List.mem_map.mp hmem
    obtain ⟨f, hf, hlabel, htail⟩ := edge_of_beq hxy he
    refine ⟨⟨y, f.2, f.1⟩, List.mem_map_of_mem hf, ?_⟩
    rw [← hq ⟨x, e.2, e.1⟩ ⟨y, f.2, f.1⟩ hx hy ((Edge.beq_iff _ _).mpr ⟨hxy, htail, hlabel⟩)]
    exact hqe
  obtain ⟨hnowhere, hfirst⟩ := findSome?_byDistance hrespects
  rw [← findEdge?_eq] at hnowhere hfirst
  simp only [hnone, hsome] at hnowhere hfirst
  refine ⟨hnowhere, fun e he => ?_⟩
  obtain ⟨n, y, hy, hye, hleast⟩ := hfirst e he
  have hmem : e ∈ y.outgoing := List.mem_of_find?_eq_some hye
  have hhead : e.head = y := by
    obtain ⟨_, -, rfl⟩ := List.mem_map.mp hmem
    rfl
  exact ⟨List.find?_some hye, hhead ▸ hmem, n, hhead ▸ hy, hleast⟩

/-- For predicates that do not tell equal nodes, or equal edges, of the graph apart: a node is found
if and only if the predicate holds of any, and it is one of those fewest edges away; an edge is
found if and only if the predicate holds of any, and no such edge has a head fewer edges away. A
search with a queue ends, and finds the same. -/
theorem searches_nearest {p : Dag V E → Bool} {q : Edge V E → Bool}
    (hp : ∀ x y, d.Has x → d.Has y → (x == y) = true → p x = p y)
    (hq : ∀ e f : Edge V E, d.Has e.head → d.Has f.head → (e == f) = true → q e = q f) :
    ((d.findNode? p = none ↔ ∀ x, d.Has x → p x = false) ∧
      ∀ x, d.findNode? p = some x → p x = true ∧
        ∃ n, d.Away n x ∧ IsLeast {m | ∃ y, d.Away m y ∧ p y = true} n) ∧
    ((d.findEdge? q = none ↔ ∀ x, d.Has x → ∀ e ∈ x.outgoing, q e = false) ∧
      ∀ e, d.findEdge? q = some e → q e = true ∧ e ∈ e.head.outgoing ∧ ∃ n, d.Away n e.head ∧
        IsLeast {m | ∃ y, d.Away m y ∧ ∃ f ∈ y.outgoing, q f = true} n) ∧
    (eval (Sweep.step? (nodeWith p)) (Sweep.start d)).map (·.found) = Part.some (d.findNode? p) ∧
      (eval (Sweep.step? (edgeWith q)) (Sweep.start d)).map (·.found) = Part.some (d.findEdge? q) :=
  ⟨findNode?_nearest hp, findEdge?_nearest hq, findNode?_eq p ▸ Sweep.eval_start _ d,
    findEdge?_eq q ▸ Sweep.eval_start _ d⟩

/-- A node over a part of its own, and over a middle node with a copy of that part: the part is
found one edge away, and the edge to it at the root. -/
theorem searches_nearest_copies :
    let part := TypeKey.named "Part"
    let leaf (tag : Nat) : Dag TypeKey TypeKey := ((Draft.ofLabel part).build.run tag).1
    let middle := (((Draft.ofLabel (.named "Middle")).addEdges [(part, leaf 0)]).build.run 2).1
    let root := (((Draft.ofLabel (.named "Whole")).addEdges
      [(.named "Middle", middle), (part, leaf 1)]).build.run 3).1
    let p : Dag TypeKey TypeKey → Bool := fun x => x.label == part
    let q : Edge TypeKey TypeKey → Bool := fun e => e.tail.label == part
    (∀ x y, root.Has x → root.Has y → (x == y) = true → p x = p y) ∧
      (∀ e f : Edge TypeKey TypeKey, root.Has e.head → root.Has f.head → (e == f) = true →
        q e = q f) ∧
      (∃ x, root.findNode? p = some x ∧ p x = true ∧ root.Away 1 x ∧
        IsLeast {m | ∃ y, root.Away m y ∧ p y = true} 1) ∧
      ∃ e, root.findEdge? q = some e ∧ q e = true ∧ e.head = root := by
  intro part leaf middle root p q
  have hp : ∀ x y, root.Has x → root.Has y → (x == y) = true → p x = p y := by
    intro x y _ _ hxy
    show (x.label == part) = (y.label == part)
    rw [eq_of_beq (label_beq hxy)]
  have hq : ∀ e f : Edge TypeKey TypeKey, root.Has e.head → root.Has f.head → (e == f) = true →
      q e = q f := by
    intro e f _ _ hef
    show (e.tail.label == part) = (f.tail.label == part)
    rw [eq_of_beq (label_beq ((Edge.beq_iff e f).mp hef).2.1)]
  obtain ⟨⟨hnode, hnodes⟩, ⟨hedge, hedges⟩, -⟩ := searches_nearest hp hq
  have hleaf : root.Away 1 (leaf 1) := .along (e := (part, leaf 1)) .here (.tail _ (.head _))
  refine ⟨hp, hq, ?_, ?_⟩
  · obtain ⟨x, hx⟩ : ∃ x, root.findNode? p = some x := by
      rw [← Option.ne_none_iff_exists']
      intro hnone
      exact absurd (hnode.mp hnone _ hleaf.has) (by decide)
    obtain ⟨hpx, n, haway, hleast⟩ := hnodes x hx
    have hle : n ≤ 1 := hleast.2 ⟨_, hleaf, rfl⟩
    have hne : n ≠ 0 := by
      rintro rfl
      cases haway
      exact absurd hpx (by decide)
    obtain rfl : n = 1 := by omega
    exact ⟨x, hx, hpx, haway, hleast⟩
  · have hmem : (⟨root, leaf 1, part⟩ : Edge TypeKey TypeKey) ∈ root.outgoing := .tail _ (.head _)
    obtain ⟨e, he⟩ : ∃ e, root.findEdge? q = some e := by
      rw [← Option.ne_none_iff_exists']
      intro hnone
      exact absurd (hedge.mp hnone _ (.self root) _ hmem) (by decide)
    obtain ⟨hqe, -, n, haway, hleast⟩ := hedges e he
    obtain rfl : n = 0 := Nat.le_zero.mp (hleast.2 ⟨root, .here, _, hmem, rfl⟩)
    refine ⟨e, he, hqe, ?_⟩
    generalize e.head = x at haway
    cases haway
    rfl

end Wiring.Dag
