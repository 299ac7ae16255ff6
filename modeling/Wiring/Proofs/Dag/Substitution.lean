import Wiring.Proofs.Dag.Transform
import Wiring.TypeKey

/-!
# Replacing is substitution

`substitute` puts `new` where a node equals `old` and builds every other node anew over what became
of its tails. It keeps no memo and does not ask which nodes lead to `old`. `replaceNode` does both
and comes to an equal graph, from any memo that was right so far, and the memo stays right.
-/

namespace Wiring.Dag

variable {V E : Type} [BEq V] [EquivBEq V] [Hashable V] [BEq E] [EquivBEq E] [Hashable E]

mutual

/-- The graph with `new` for every node that equals `old`. What is built anew takes over the tag,
which equality does not look at. -/
def substitute (old new : Dag V E) : Dag V E → Dag V E
  | d@(node tag _ label es) =>
    if d == old then new
    else (((Draft.ofLabel label).addEdges (substituteTails old new es)).build.run tag).1

def substituteTails (old new : Dag V E) : List (E × Dag V E) → List (E × Dag V E)
  | [] => []
  | (l, d) :: rest => (l, substitute old new d) :: substituteTails old new rest

end

def Memo.Substitutes (old new : Dag V E) (m : Memo V E) : Prop :=
  ∀ i ∈ m.images, i.1.WellBuilt ∧ i.2.WellBuilt ∧ (i.2 == substitute old new i.1) = true

variable {old new d x y : Dag V E} {m n : Memo V E}

/-! ## Substitution -/

theorem substituteTails_eq (es : List (E × Dag V E)) :
    substituteTails old new es = es.map fun e => (e.1, substitute old new e.2) := by
  induction es with
  | nil => rw [substituteTails, List.map_nil]
  | cons e es ih => rw [substituteTails, ih, List.map_cons]

theorem substitute_of_beq (h : (d == old) = true) : substitute old new d = new := by
  obtain ⟨_, _, _, _⟩ := d
  rw [substitute, if_pos h]

theorem substitute_of_ne (h : (d == old) = false) :
    substitute old new d = (((Draft.ofLabel d.label).addEdges
      (d.edges.map fun e => (e.1, substitute old new e.2))).build.run d.tag).1 := by
  obtain ⟨_, _, _, _⟩ := d
  rw [substitute, if_neg (by simp [h]), substituteTails_eq]
  rfl

theorem substitute_wellBuilt (hnew : new.WellBuilt) (d : Dag V E) :
    (substitute old new d).WellBuilt := by
  induction d using induction with
  | step d ih =>
    cases h : d == old with
    | true => exact substitute_of_beq h ▸ hnew
    | false =>
      rw [substitute_of_ne h]
      exact (build_edges (List.forall_mem_map.2 ih) _ _).1

theorem not_beq_of_unreached (hd : d.WellBuilt) (h : d.reaches old = false) :
    (d == old) = false := by
  rw [Bool.eq_false_iff] at h ⊢
  exact fun hdo => h (reaches_iff.2 ⟨d, .self d, beq_symm hd hdo⟩)

section Equal

variable [LawfulHashable V] [LawfulHashable E]

theorem substitute_congr (hnew : new.WellBuilt) (h : SameNode x y) :
    SameNode (substitute old new x) (substitute old new y) := by
  induction x using induction generalizing y with
  | step x ih =>
    cases hx : x == old with
    | true =>
      rw [substitute_of_beq hx, substitute_of_beq (beq_trans h.symm.beq hx)]
      exact .refl hnew
    | false =>
      have hy : (y == old) = false := by
        rw [Bool.eq_false_iff] at hx ⊢
        exact fun hy => hx (beq_trans h.beq hy)
      rw [substitute_of_ne hx, substitute_of_ne hy]
      refine sameNode_of_builds h.label (List.forall_mem_map.2 fun e he => ?_)
        (List.forall_mem_map.2 fun f hf => ?_) _ _
      · obtain ⟨f, hf, hef⟩ := h.edge he
        exact ⟨_, List.mem_map.2 ⟨f, hf, rfl⟩, .of_tail hef.label (ih e he hef.tail)⟩
      · obtain ⟨e, he, hfe⟩ := h.symm.edge hf
        exact ⟨_, List.mem_map.2 ⟨e, he, rfl⟩,
          .of_tail (BEq.symm hfe.label) (ih e he hfe.tail.symm)⟩

theorem substitute_unreached (hd : d.WellBuilt) (h : d.reaches old = false) :
    SameNode d (substitute old new d) := by
  induction d using induction with
  | step d ih =>
    have htail : ∀ e ∈ d.edges, SameEdge e (e.1, substitute old new e.2) := by
      intro e he
      refine .of_tail BEq.rfl (ih e he (hd.tail he) ?_)
      rw [Bool.eq_false_iff] at h ⊢
      exact fun he' => h (reaches_of_edge he he')
    rw [substitute_of_ne (not_beq_of_unreached hd h)]
    obtain ⟨_, _, _, _⟩ := d
    exact sameNode_build hd (List.forall₂_map_right_iff.2 (List.forall₂_same.2 htail)) _

/-! ## The walk -/

theorem Memo.Substitutes.get? (hm : m.Substitutes old new) (hnew : new.WellBuilt)
    (hd : d.WellBuilt) (h : m.get? d = some x) : SameNode x (substitute old new d) := by
  obtain ⟨i, hi, hid, rfl⟩ := Memo.exists_of_get? h
  obtain ⟨hsource, himage, hbeq⟩ := hm i hi
  have hkept : SameNode i.2 (substitute old new i.1) :=
    ⟨hbeq, himage, substitute_wellBuilt hnew i.1⟩
  exact hkept.trans (substitute_congr hnew ⟨hid, hsource, hd⟩)

end Equal

structure NodeSubstituted (old new d : Dag V E) (m : Memo V E) (r : Dag V E × Memo V E) : Prop where
  image : SameNode r.1 (substitute old new d)
  memo : r.2.Substitutes old new
  known : r.2.get? d = some r.1
  keeps : ∀ i ∈ m.images, i ∈ r.2.images

structure TailsSubstituted (old new : Dag V E) (es : List (E × Dag V E)) (m : Memo V E)
    (r : List (E × Dag V E) × Memo V E) : Prop where
  images : List.Forall₂ SameEdge (substituteTails old new es) r.1
  memo : r.2.Substitutes old new
  keeps : ∀ i ∈ m.images, i ∈ r.2.images

theorem NodeSubstituted.of_insert (h : SameNode x (substitute old new d)) (hd : d.WellBuilt)
    (hn : n.Substitutes old new) (hkeeps : ∀ i ∈ m.images, i ∈ n.images) :
    NodeSubstituted old new d m (x, n.insert d x) where
  image := h
  memo := List.forall_mem_cons.2 ⟨⟨hd, h.left, h.beq⟩, hn⟩
  known := by simp [Memo.get?]
  keeps i hi := List.mem_cons_of_mem _ (hkeeps i hi)

mutual

theorem replaceNode_substituted [LawfulHashable V] [LawfulHashable E] (hnew : new.WellBuilt) :
    ∀ (d : Dag V E) {m : Memo V E},
    m.Substitutes old new → d.WellBuilt → ∀ tag : Nat,
      NodeSubstituted old new d m ((replaceNode old new d m).run tag).1
  | node t digest l es, m, hm, hd, tag => by
    rw [replaceNode]
    cases hget : m.get? _ with
    | some image => exact ⟨hm.get? hnew hd hget, hm, hget, fun _ hi => hi⟩
    | none =>
      dsimp only
      split
      · rename_i heq
        exact .of_insert (substitute_of_beq heq ▸ .refl hnew) hd hm fun _ hi => hi
      · rename_i hne
        split
        · rename_i hnot
          exact .of_insert (substitute_unreached hd (by simpa using hnot)) hd hm fun _ hi => hi
        · have htails := replaceTails_substituted hnew es hm (fun e he => hd.tail he) tag
          refine .of_insert ?_ hd htails.memo htails.keeps
          rw [substitute, if_neg hne]
          obtain ⟨hleft, hright, hbeq⟩ := build_addEdges_beq BEq.rfl htails.images t _
          exact SameNode.symm ⟨hbeq, hleft, hright⟩

theorem replaceTails_substituted [LawfulHashable V] [LawfulHashable E] (hnew : new.WellBuilt) :
    ∀ (es : List (E × Dag V E)) {m : Memo V E}, m.Substitutes old new →
      (∀ e ∈ es, e.2.WellBuilt) → ∀ tag : Nat,
        TailsSubstituted old new es m ((replaceTails old new es m).run tag).1
  | [], m, hm, _, tag => by
    rw [replaceTails]
    refine ⟨?_, hm, fun _ hi => hi⟩
    rw [substituteTails]
    exact .nil
  | (l, d) :: rest, m, hm, hes, tag => by
    rw [replaceTails]
    have hnode := replaceNode_substituted hnew d hm (hes (l, d) (by simp)) tag
    have hrest := replaceTails_substituted hnew rest hnode.memo (fun e he => hes e (by simp [he]))
      ((replaceNode old new d m).run tag).2
    refine ⟨?_, hrest.memo, fun i hi => hrest.keeps i (hnode.keeps i hi)⟩
    rw [substituteTails]
    exact .cons (.of_tail BEq.rfl hnode.image.symm) hrest.images

end

theorem replaceNode_unreached (hd : d.WellBuilt) (h : d.reaches old = false) (tag : Nat) :
    ((replaceNode old new d .empty).run tag).1.1 = d := by
  have hne := not_beq_of_unreached hd h
  have hget : (Memo.empty : Memo V E).get? d = none := rfl
  obtain ⟨_, _, _, _⟩ := d
  simp only [replaceNode, hget, hne, h, Bool.not_false, if_true, Bool.false_eq_true, if_false]
  rfl

/-- A replacement comes to what substitution comes to, whatever its memo knew before, and adds to
the memo only what substitution makes of the nodes it met, the first of them included. A node that
does not lead to the old one is given back as it is when the memo knew nothing. -/
theorem replaceNode_substitutes [LawfulHashable V] [LawfulHashable E] (hd : d.WellBuilt)
    (hnew : new.WellBuilt) (hm : m.Substitutes old new) (tag : Nat) :
    let r := ((replaceNode old new d m).run tag).1
    (r.1 == substitute old new d) = true ∧ r.2.Substitutes old new ∧ r.2.get? d = some r.1 ∧
      (∀ i ∈ m.images, i ∈ r.2.images) ∧ (m = .empty → d.reaches old = false → r.1 = d) := by
  have h := replaceNode_substituted hnew d hm hd tag
  exact ⟨h.image.beq, h.memo, h.known, h.keeps, fun he hr => he ▸ replaceNode_unreached hd hr tag⟩

/-- A leaf with two ways to it becomes a node above it, and the memo knows the leaf already. -/
theorem replaceNode_substitutes_shared :
    let part := TypeKey.named "Part"
    let whole := TypeKey.named "Whole"
    let leaf : Dag TypeKey TypeKey := ((Draft.ofLabel part).build.run 0).1
    let new := (((Draft.ofLabel whole).addEdges [(part, leaf)]).build.run 1).1
    let middle := (((Draft.ofLabel whole).addEdges [(whole, leaf)]).build.run 2).1
    let root := (((Draft.ofLabel whole).addEdges [(part, leaf), (whole, middle)]).build.run 3).1
    let memo : Memo TypeKey TypeKey := Memo.empty.insert leaf new
    let r := ((replaceNode leaf new root memo).run 4).1
    root.WellBuilt ∧ new.WellBuilt ∧ memo.Substitutes leaf new ∧
      (r.1 == substitute leaf new root) = true ∧ r.2.Substitutes leaf new ∧
      r.2.get? root = some r.1 ∧ (∀ i ∈ memo.images, i ∈ r.2.images) ∧
      (memo = .empty → root.reaches leaf = false → r.1 = root) := by
  intro part whole leaf new middle root memo r
  have hleaf : leaf.WellBuilt := (Draft.ready_ofLabel part).build 0
  have hnew : new.WellBuilt := (build_edges (by simpa using hleaf) whole 1).1
  have hmiddle : middle.WellBuilt := (build_edges (by simpa using hleaf) whole 2).1
  have hroot : root.WellBuilt := (build_edges (by simpa using ⟨hleaf, hmiddle⟩) whole 3).1
  have hmemo : memo.Substitutes leaf new := by
    refine List.forall_mem_singleton.2 ⟨hleaf, hnew, ?_⟩
    rw [substitute_of_beq (same_refl leaf)]
    exact same_refl new
  exact ⟨hroot, hnew, hmemo, replaceNode_substitutes hroot hnew hmemo 4⟩

end Wiring.Dag
