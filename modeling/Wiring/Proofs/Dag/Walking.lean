import Wiring.Proofs.Dag.Canonical
import Wiring.TypeKey
import Mathlib.Computability.StateTransition

/-!
# The order of a graph

`sorted` lists what a node leads to, each structure once, tails before heads and the node itself
last. A walk with a stack that marks a node as met when it is put on the stack ends with the same
list: no node equals a node above it, so what is still on the stack never hides a tail.
-/

namespace Wiring.Dag

open Relation (ReflTransGen)
open StateTransition (Reaches eval mem_eval)

variable {V E : Type} [BEq V] [EquivBEq V] [BEq E] [EquivBEq E] {c d x y z : Dag V E}
  {order met : List (Dag V E)}

/-! ## Tails first -/

/-- The order lists the nodes of a graph: each structure once, tails first, the root last. -/
structure Topological (d : Dag V E) (order : List (Dag V E)) : Prop where
  once : ∀ x, d.Has x → order.countP (x == ·) = 1
  only : ∀ x ∈ order, d.Has x
  tails : ∀ before x after, order = before ++ x :: after →
    ∀ e ∈ x.edges, ∃ z ∈ before, (e.2 == z) = true
  last : order.getLast? = some d

theorem Ordered.tails (h : Ordered order) {before after : List (Dag V E)}
    (horder : order = before ++ x :: after) {e : E × Dag V E} (he : e ∈ x.edges) :
    ∃ z ∈ before, (e.2 == z) = true := by
  induction h generalizing after with
  | nil => simp at horder
  | @snoc order d _ htails ih =>
    rcases List.eq_nil_or_concat after with rfl | ⟨after, y, rfl⟩
    · obtain ⟨rfl, hdx⟩ := List.append_inj' horder rfl
      exact htails e ((List.singleton_inj.1 hdx) ▸ he)
    · have hsplit : order ++ [d] = (before ++ x :: after) ++ [y] := by simpa using horder
      exact ih (List.append_inj' hsplit rfl).1

theorem countP_eq_one [Hashable V] [Hashable E] (hx : x.WellBuilt)
    (hdistinct : order.Pairwise fun y z => (z == y) = false) (hz : z ∈ order)
    (hxz : (x == z) = true) : order.countP (x == ·) = 1 := by
  induction order with
  | nil => cases hz
  | cons y order ih =>
    obtain ⟨hy, hdistinct⟩ := List.pairwise_cons.1 hdistinct
    have hcount : (x == y) = true → ∀ z ∈ order, (x == z) = false := by
      intro hxy z hz
      rw [Bool.eq_false_iff]
      intro hxz
      have := hy z hz
      simp [beq_trans (beq_symm hx hxz) hxy] at this
    cases hxy : x == y with
    | true =>
      have hnone : order.countP (x == ·) = 0 := by simpa using hcount hxy
      rw [List.countP_cons_of_pos hxy, hnone]
    | false =>
      rw [List.countP_cons_of_neg (by simp [hxy])]
      rcases List.mem_cons.1 hz with rfl | hz
      · simp [hxy] at hxz
      · exact ih hdistinct hz

theorem countP_le_one [Hashable V] [Hashable E] (hx : x.WellBuilt)
    (hdistinct : order.Pairwise fun y z => (z == y) = false) : order.countP (x == ·) ≤ 1 := by
  by_cases h : ∃ z ∈ order, (x == z) = true
  · obtain ⟨z, hz, hxz⟩ := h
    exact (countP_eq_one hx hdistinct hz hxz).le
  · have hnone : order.countP (x == ·) = 0 := by simpa using h
    omega

theorem topological_sorted [Hashable V] [Hashable E] (hd : d.WellBuilt) :
    d.Topological d.sorted where
  once x hx := by
    obtain ⟨z, hz, hxz⟩ := hx.mem_sorted
    exact countP_eq_one (hx.wellBuilt hd) (distinct_sorted d) hz hxz
  only _ hx := has_of_mem_sorted hx
  tails _ _ _ horder _ he := (ordered_sorted d).tails horder he
  last := by
    rw [sorted_eq]
    exact List.getLast?_concat

/-! ## The walk with a stack -/

/-- A walk on its way: on the stack are the nodes that it has begun, the latest first, each with the
edges that are left to follow. -/
structure Walk (V E : Type) where
  stack : List (Dag V E × List (E × Dag V E))
  met : List (Dag V E)
  order : List (Dag V E)

namespace Walk

def start (d : Dag V E) : Walk V E := ⟨[(d, d.edges)], [d], []⟩

/-- Follows the next edge of the latest node, or is done with the node when there is none left. -/
def step? : Walk V E → Option (Walk V E)
  | ⟨[], _, _⟩ => none
  | ⟨(d, []) :: stack, met, order⟩ => some ⟨stack, met, order ++ [d]⟩
  | ⟨(d, (_, c) :: rest) :: stack, met, order⟩ =>
    if met.contains c then some ⟨(d, rest) :: stack, met, order⟩
    else some ⟨(c, c.edges) :: (d, rest) :: stack, c :: met, order⟩

def Met (begun met order : List (Dag V E)) : Prop :=
  ∀ x, met.contains x = true ↔ order.contains x = true ∨ begun.contains x = true

def Beneath (c : Dag V E) (begun : List (Dag V E)) : Prop :=
  ∀ y ∈ begun, ∃ e ∈ y.edges, e.2.Has c

variable {begun : List (Dag V E)} {stack : List (Dag V E × List (E × Dag V E))}

omit [BEq V] [EquivBEq V] [BEq E] [EquivBEq E] in
theorem Beneath.edge (h : Beneath d begun) {e : E × Dag V E} (he : e ∈ d.edges) :
    Beneath e.2 (d :: begun) := by
  intro y hy
  rcases List.mem_cons.1 hy with rfl | hy
  · exact ⟨e, he, .self e.2⟩
  · obtain ⟨f, hf, hfd⟩ := h y hy
    exact ⟨f, hf, hfd.edge he⟩

theorem Met.begin (h : Met begun met order) (c : Dag V E) : Met (c :: begun) (c :: met) order := by
  intro x
  simp only [List.contains_cons, Bool.or_eq_true, h x]
  tauto

theorem Met.done (h : Met (c :: begun) met order) : Met begun met (order ++ [c]) := by
  intro x
  rw [h x]
  simp only [List.contains_eq_any_beq, List.any_append, List.any_cons, List.any_nil,
    Bool.or_false, Bool.or_eq_true]
  tauto

variable [Hashable V] [Hashable E]

theorem Met.contains_eq (h : Met begun met order) (hc : c.WellBuilt) (hbelow : Beneath c begun) :
    met.contains c = order.contains c := by
  rw [Bool.eq_iff_iff, h c, or_iff_left]
  intro hmem
  obtain ⟨y, hy, hcy⟩ := contains_iff.1 hmem
  obtain ⟨e, he, hec⟩ := hbelow y hy
  have := beq_below he hec
  simp [beq_symm hc hcy] at this

mutual

theorem reaches_visit : ∀ (c : Dag V E) {begun : List (Dag V E)}
    (stack : List (Dag V E × List (E × Dag V E))) {met order : List (Dag V E)}, c.WellBuilt →
    Beneath c begun → Met begun met order → order.contains c = false →
    ∃ met', Met begun met' (visit c order) ∧
      Reaches step? ⟨(c, c.edges) :: stack, c :: met, order⟩ ⟨stack, met', visit c order⟩
  | node t h l es, begun, stack, met, order, hc, hbelow, hmet, hnew => by
    obtain ⟨met', hmet', hreach⟩ := reaches_visitAll es (node t h l es) stack
      (fun e he => hc.tail he) (fun e he => hbelow.edge he) (hmet.begin _)
    rw [visit, if_neg (by simp [hnew])]
    exact ⟨met', hmet'.done, hreach.tail rfl⟩

theorem reaches_visitAll : ∀ (es : List (E × Dag V E)) (d : Dag V E) {begun : List (Dag V E)}
    (stack : List (Dag V E × List (E × Dag V E))) {met order : List (Dag V E)},
    (∀ e ∈ es, e.2.WellBuilt) → (∀ e ∈ es, Beneath e.2 begun) → Met begun met order →
    ∃ met', Met begun met' (visitAll es order) ∧
      Reaches step? ⟨(d, es) :: stack, met, order⟩ ⟨(d, []) :: stack, met', visitAll es order⟩
  | [], d, begun, stack, met, order, _, _, hmet => by
    rw [visitAll]
    exact ⟨met, hmet, .refl⟩
  | (l, c) :: rest, d, begun, stack, met, order, hes, hbelow, hmet => by
    obtain ⟨hc, hrest⟩ := List.forall_mem_cons.1 hes
    obtain ⟨hcbelow, hbelow⟩ := List.forall_mem_cons.1 hbelow
    have hdone := hmet.contains_eq hc hcbelow
    rw [visitAll]
    cases hin : order.contains c with
    | true =>
      have hskip : visit c order = order := by
        obtain ⟨_, _, _, _⟩ := c
        rw [visit, if_pos hin]
      obtain ⟨met', hmet', hreach⟩ := reaches_visitAll rest d stack hrest hbelow hmet
      rw [hskip]
      refine ⟨met', hmet', hreach.head ?_⟩
      show step? _ = _
      rw [step?, if_pos (hdone.trans hin)]
    | false =>
      obtain ⟨met₁, hmet₁, hvisit⟩ := reaches_visit c ((d, rest) :: stack) hc hcbelow hmet hin
      obtain ⟨met', hmet', hreach⟩ := reaches_visitAll rest d stack hrest hbelow hmet₁
      refine ⟨met', hmet', (hvisit.trans hreach).head ?_⟩
      show step? _ = _
      rw [step?, if_neg (by simp [hdone, hin])]

end

theorem eval_start (hd : d.WellBuilt) :
    (eval step? (start d)).map (·.order) = Part.some d.sorted := by
  have hmet : Met [] ([] : List (Dag V E)) [] := fun _ => by simp
  have hnew : ([] : List (Dag V E)).contains d = false := List.contains_nil
  obtain ⟨met, -, hreach⟩ := reaches_visit d [] hd (List.forall_mem_nil _) hmet hnew
  rw [Part.eq_some_iff, Part.mem_map_iff]
  exact ⟨_, mem_eval.2 ⟨hreach, rfl⟩, rfl⟩

end Walk

/-- The order of a graph lists every node that is reached, each structure once and nothing else,
tails first and the root last. It is the order in which a walk with a stack is done with the nodes,
and a node is reached iff a node equal to it is below the root. -/
theorem sorted_topological [Hashable V] [Hashable E] (hd : d.WellBuilt) :
    d.Topological d.sorted ∧
      (eval Walk.step? (Walk.start d)).map (·.order) = Part.some d.sorted ∧
      ∀ x, d.reaches x = true ↔ ∃ y, d.Has y ∧ (x == y) = true :=
  ⟨topological_sorted hd, Walk.eval_start hd, fun _ => reaches_iff⟩

/-- A node over two copies of a leaf: the order has one of them. -/
theorem sorted_topological_copies :
    let part := TypeKey.named "Part"
    let whole := TypeKey.named "Whole"
    let leaf (tag : Nat) : Dag TypeKey TypeKey := ((Draft.ofLabel part).build.run tag).1
    let root := (((Draft.ofLabel whole).addEdges [(part, leaf 0), (whole, leaf 1)]).build.run 2).1
    root.WellBuilt ∧ root.Topological root.sorted ∧ root.sorted = [leaf 0, root] ∧
      (eval Walk.step? (Walk.start root)).map (·.order) = Part.some [leaf 0, root] ∧
      ∀ x, root.reaches x = true ↔ ∃ y, root.Has y ∧ (x == y) = true := by
  intro part whole leaf root
  have hroot : root.WellBuilt := by
    refine ((Draft.ready_ofLabel whole).addEdges fun e he => ?_).build 2
    have hleaf : e.2 = leaf 0 ∨ e.2 = leaf 1 := by
      rcases List.mem_cons.1 he with rfl | he
      · exact .inl rfl
      · exact .inr (by rw [List.mem_singleton.1 he])
    rcases hleaf with hleaf | hleaf <;> exact hleaf ▸ (Draft.ready_ofLabel part).build _
  obtain ⟨htopological, hwalk, hreaches⟩ := sorted_topological hroot
  have hcopies : (leaf 1 == leaf 0) = true :=
    beq_iff.2 ⟨rfl, rfl, BEq.rfl, List.forall_mem_nil _⟩
  have hsorted : root.sorted = [leaf 0, root] := by
    have hcontains : [leaf 0].contains (leaf 1) = true := contains_iff.2 ⟨_, .head _, hcopies⟩
    have hedges : root.edges = [(part, leaf 0), (whole, leaf 1)] := rfl
    have hfirst : visit (leaf 0) [] = [leaf 0] := rfl
    have hsecond : visit (leaf 1) [leaf 0] = [leaf 0] := if_pos hcontains
    rw [sorted_eq, hedges, visitAll, hfirst, visitAll, hsecond]
    rfl
  exact ⟨hroot, htopological, hsorted, hsorted ▸ hwalk, hreaches⟩

end Wiring.Dag
