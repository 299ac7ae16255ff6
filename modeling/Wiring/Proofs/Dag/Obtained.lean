import Wiring.Dag.Pool
import Wiring.Dag.Replace
import Wiring.Proofs.Dag.Transform
import Wiring.TypeKey

/-!
# Nodes that operations come to

However nodes are built, copied, changed, replaced, transformed and merged, none has two equal
edges. So equality of such nodes, which only counts the edges and looks at one inclusion, is
equality of sets, all the way down, and the digest never tells equal nodes apart.
-/

namespace Wiring.Dag

variable {V E : Type} [BEq V] [EquivBEq V] [Hashable V] [BEq E] [EquivBEq E] [Hashable E]

mutual

inductive Draft.Obtained : Draft V E → Prop
  | ofLabel (l : V) : Draft.Obtained (.ofLabel l)
  | copy {d : Dag V E} : Dag.Obtained d → Draft.Obtained d.copy
  | setLabel {b : Draft V E} (l : V) : Draft.Obtained b → Draft.Obtained (b.setLabel l)
  | addEdge {b : Draft V E} (l : E) {d : Dag V E} : Draft.Obtained b → Dag.Obtained d →
      Draft.Obtained (b.addEdge l d)
  | removeEdges {b : Draft V E} (p : E → Bool) : Draft.Obtained b →
      Draft.Obtained (b.removeEdges p)

/-- Nodes that some sequence of operations comes to, with whatever tags. A replacement may start
from any memo, a transformation may be by any function and a merge may be in any pool, as long as
the nodes in them were obtained. -/
inductive Obtained : Dag V E → Prop
  | build {b : Draft V E} (tag : Nat) : Draft.Obtained b → Obtained (b.build.run tag).1
  | tail {d : Dag V E} {e : E × Dag V E} : Obtained d → e ∈ d.edges → Obtained e.2
  | replace {old new d : Dag V E} {memo : Memo V E} (tag : Nat) : Obtained new → Obtained d →
      (∀ i ∈ memo.images, Obtained i.2) →
      Obtained ((replaceNode old new d memo).run tag).1.1
  | replaced {old new d : Dag V E} {memo : Memo V E} {i : Dag V E × Dag V E} (tag : Nat) :
      Obtained new → Obtained d → (∀ i ∈ memo.images, Obtained i.2) →
      i ∈ ((replaceNode old new d memo).run tag).1.2.images → Obtained i.2
  | transform {f : Edge V E → Option (Edge V E)} {d : Dag V E} (tag : Nat) : Obtained d →
      (∀ x, d.Has x → ∀ e ∈ x.edges, ∀ k, f ⟨x, e.2, e.1⟩ = some k → Obtained k.tail) →
      Obtained ((transform f d).run tag).1
  | merge {p : Pool V E} {d : Dag V E} (tag : Nat) : (∀ n ∈ p.nodes, Obtained n) → Obtained d →
      Obtained ((p.merge d).run tag).1.1
  | merged {p : Pool V E} {d n : Dag V E} (tag : Nat) : (∀ n ∈ p.nodes, Obtained n) →
      Obtained d → n ∈ ((p.merge d).run tag).1.2.nodes → Obtained n

end

variable {a b d new old : Dag V E} {f : Edge V E → Option (Edge V E)} {memo : Memo V E}

/-! ## Whatever is obtained was built -/

mutual

theorem replaceNode_wellBuilt (hnew : new.WellBuilt) : ∀ (d : Dag V E) {memo : Memo V E}
    (tag : Nat), d.WellBuilt → (∀ i ∈ memo.images, i.2.WellBuilt) →
    ((replaceNode old new d memo).run tag).1.1.WellBuilt ∧
      ∀ i ∈ ((replaceNode old new d memo).run tag).1.2.images, i.2.WellBuilt
  | node t h l es, memo, tag, hd, hmemo => by
    rw [replaceNode]
    cases hget : memo.get? _ with
    | some image =>
      obtain ⟨i, hi, -, rfl⟩ := Memo.exists_of_get? hget
      exact ⟨hmemo i hi, hmemo⟩
    | none =>
      dsimp only
      split
      · exact ⟨hnew, List.forall_mem_cons.2 ⟨hnew, hmemo⟩⟩
      · split
        · exact ⟨hd, List.forall_mem_cons.2 ⟨hd, hmemo⟩⟩
        · obtain ⟨hes, hmemo'⟩ :=
            replaceTails_wellBuilt hnew es tag (fun e he => hd.tail he) hmemo
          have hbuilt := (build_edges hes l ((replaceTails old new es memo).run tag).2).1
          exact ⟨hbuilt, List.forall_mem_cons.2 ⟨hbuilt, hmemo'⟩⟩

theorem replaceTails_wellBuilt (hnew : new.WellBuilt) : ∀ (es : List (E × Dag V E))
    {memo : Memo V E} (tag : Nat), (∀ e ∈ es, e.2.WellBuilt) →
    (∀ i ∈ memo.images, i.2.WellBuilt) →
    (∀ e ∈ ((replaceTails old new es memo).run tag).1.1, e.2.WellBuilt) ∧
      ∀ i ∈ ((replaceTails old new es memo).run tag).1.2.images, i.2.WellBuilt
  | [], memo, tag, hes, hmemo => by
    rw [replaceTails]
    exact ⟨hes, hmemo⟩
  | (l, d) :: rest, memo, tag, hes, hmemo => by
    rw [replaceTails]
    obtain ⟨hd, hrest⟩ := List.forall_mem_cons.1 hes
    obtain ⟨hnode, hmemo1⟩ := replaceNode_wellBuilt hnew d tag hd hmemo
    obtain ⟨htails, hmemo2⟩ := replaceTails_wellBuilt hnew rest _ hrest hmemo1
    exact ⟨List.forall_mem_cons.2 ⟨hnode, htails⟩, hmemo2⟩

end

mutual

theorem transformNode_wellBuilt : ∀ (d : Dag V E) {memo : Memo V E} (tag : Nat), d.WellBuilt →
    (∀ x, d.Has x → ∀ e ∈ x.edges, ∀ k, f ⟨x, e.2, e.1⟩ = some k → k.tail.WellBuilt) →
    (∀ i ∈ memo.images, i.2.WellBuilt) →
    ((transformNode f d memo).run tag).1.1.WellBuilt ∧
      ∀ i ∈ ((transformNode f d memo).run tag).1.2.images, i.2.WellBuilt
  | node t h l es, memo, tag, hd, hf, hmemo => by
    rw [transformNode]
    cases hget : memo.get? _ with
    | some image =>
      obtain ⟨i, hi, -, rfl⟩ := Memo.exists_of_get? hget
      exact ⟨hmemo i hi, hmemo⟩
    | none =>
      obtain ⟨hes, hmemo'⟩ := transformEdges_wellBuilt (node t h l es) es tag
        (fun e he => hd.tail he) (hf _ (.self _)) (fun e he x hx => hf x (.step he hx)) hmemo
      rw [Fresh.run_bind]
      generalize (transformEdges f (node t h l es) es memo).run tag = out at hes hmemo' ⊢
      dsimp only
      split
      · have hbuilt := (build_edges hes l out.2).1
        exact ⟨hbuilt, List.forall_mem_cons.2 ⟨hbuilt, hmemo'⟩⟩
      · exact ⟨hd, List.forall_mem_cons.2 ⟨hd, hmemo'⟩⟩

theorem transformEdges_wellBuilt (head : Dag V E) : ∀ (es : List (E × Dag V E)) {memo : Memo V E}
    (tag : Nat), (∀ e ∈ es, e.2.WellBuilt) →
    (∀ e ∈ es, ∀ k, f ⟨head, e.2, e.1⟩ = some k → k.tail.WellBuilt) →
    (∀ e ∈ es, ∀ x, e.2.Has x → ∀ g ∈ x.edges, ∀ k, f ⟨x, g.2, g.1⟩ = some k →
      k.tail.WellBuilt) →
    (∀ i ∈ memo.images, i.2.WellBuilt) →
    (∀ e ∈ ((transformEdges f head es memo).run tag).1.1, e.2.WellBuilt) ∧
      ∀ i ∈ ((transformEdges f head es memo).run tag).1.2.images, i.2.WellBuilt
  | [], memo, tag, hes, _, _, hmemo => by
    rw [transformEdges]
    exact ⟨hes, hmemo⟩
  | (l, d) :: rest, memo, tag, hes, hhead, hbelow, hmemo => by
    rw [transformEdges]
    obtain ⟨hd, hrest⟩ := List.forall_mem_cons.1 hes
    obtain ⟨hfirst, hhead⟩ := List.forall_mem_cons.1 hhead
    obtain ⟨hdbelow, hbelow⟩ := List.forall_mem_cons.1 hbelow
    split
    · rename_i k hk
      obtain ⟨htails, hmemo'⟩ := transformEdges_wellBuilt head rest tag hrest hhead hbelow hmemo
      exact ⟨List.forall_mem_cons.2 ⟨hfirst k hk, htails⟩, hmemo'⟩
    · obtain ⟨hnode, hmemo1⟩ := transformNode_wellBuilt d tag hd hdbelow hmemo
      obtain ⟨htails, hmemo2⟩ := transformEdges_wellBuilt head rest _ hrest hhead hbelow hmemo1
      exact ⟨List.forall_mem_cons.2 ⟨hnode, htails⟩, hmemo2⟩

end

mutual

theorem Draft.Obtained.ready [LawfulHashable V] [LawfulHashable E] :
    ∀ {b : Draft V E}, b.Obtained → b.Ready
  | _, .ofLabel l => Draft.ready_ofLabel l
  | _, .copy hd => hd.wellBuilt.copy
  | _, .setLabel l hb => hb.ready.setLabel l
  | _, .addEdge l hb hd => hb.ready.addEdge l hd.wellBuilt
  | _, .removeEdges p hb => hb.ready.removeEdges p

theorem Obtained.wellBuilt [LawfulHashable V] [LawfulHashable E] :
    ∀ {d : Dag V E}, d.Obtained → d.WellBuilt
  | _, .build tag hb => hb.ready.build tag
  | _, .tail hd he => hd.wellBuilt.tail he
  | _, .replace tag hnew hd hmemo =>
    (replaceNode_wellBuilt hnew.wellBuilt _ tag hd.wellBuilt fun i hi => (hmemo i hi).wellBuilt).1
  | _, .replaced tag hnew hd hmemo hi =>
    (replaceNode_wellBuilt hnew.wellBuilt _ tag hd.wellBuilt
      fun i hi => (hmemo i hi).wellBuilt).2 _ hi
  | _, .transform tag hd hf =>
    (transformNode_wellBuilt _ tag hd.wellBuilt
      (fun x hx e he k hk => (hf x hx e he k hk).wellBuilt) (List.forall_mem_nil _)).1
  | _, .merge tag hp hd => (Pool.merge_spec (fun n hn => (hp n hn).wellBuilt) hd.wellBuilt tag).2.1
  | _, .merged tag hp hd hn =>
    (Pool.merge_spec (fun n hn => (hp n hn).wellBuilt) hd.wellBuilt tag).2.2 _ hn

end

/-! ## Equality without digests -/

variable [LawfulHashable V] [LawfulHashable E]

/-- Equal labels, and for each edge of either an edge of the other with an equal label and a tail
that is alike. Digests are not looked at. -/
def Alike (a b : Dag V E) : Prop :=
  (a.label == b.label) = true ∧
    (∀ e, ∀ _ : e ∈ a.edges, ∃ f ∈ b.edges, (e.1 == f.1) = true ∧ Alike e.2 f.2) ∧
    ∀ f ∈ b.edges, ∃ e, ∃ _ : e ∈ a.edges, (e.1 == f.1) = true ∧ Alike e.2 f.2
termination_by sizeOf a
decreasing_by all_goals exact sizeOf_tail_lt ‹_›

theorem Alike.same (ha : a.WellBuilt) (hb : b.WellBuilt) (h : Alike a b) : SameNode a b := by
  induction a using induction generalizing b with
  | step a ih =>
    rw [Alike] at h
    obtain ⟨hlabel, hcov, hcov'⟩ := h
    refine sameNode_of_covers ha hb hlabel (fun e he => ?_) fun f hf => ?_
    · obtain ⟨f, hf, hl, htail⟩ := hcov e he
      exact ⟨f, hf, .of_tail hl (ih e he (ha.tail he) (hb.tail hf) htail)⟩
    · obtain ⟨e, he, hl, htail⟩ := hcov' f hf
      exact ⟨e, he, .of_tail hl (ih e he (ha.tail he) (hb.tail hf) htail)⟩

omit [LawfulHashable V] [LawfulHashable E] in
theorem SameNode.alike (h : SameNode a b) : Alike a b := by
  induction a using induction generalizing b with
  | step a ih =>
    rw [Alike]
    refine ⟨h.label, fun e he => ?_, fun f hf => ?_⟩
    · obtain ⟨f, hf, hef⟩ := h.edge he
      exact ⟨f, hf, hef.label, ih e he hef.tail⟩
    · obtain ⟨e, he, hfe⟩ := h.symm.edge hf
      exact ⟨e, he, BEq.symm hfe.label, ih e he hfe.tail.symm⟩

theorem Draft.Ready.sameNode_of_same_edges {b : Draft V E} (hb : b.Ready)
    {es fs : List (E × Dag V E)} (hes : ∀ e ∈ es, e.2.WellBuilt) (h : ∀ e, e ∈ es ↔ e ∈ fs)
    (t t' : Nat) :
    SameNode ((b.addEdges es).build.run t).1 ((b.addEdges fs).build.run t').1 := by
  have hcov : ∀ {es fs : List (E × Dag V E)}, (∀ e ∈ es, e ∈ fs) → (∀ e ∈ fs, e.2.WellBuilt) →
      ∀ e ∈ (b.addEdges es).edges, ∃ f ∈ (b.addEdges fs).edges, SameEdge e f := by
    intro es fs hsub hfs e he
    rcases Draft.mem_addEdges he with he | he
    · exact ⟨e, Draft.subset_addEdges he, .refl (hb.tails e he)⟩
    · obtain ⟨f, hf, hl, ht⟩ := Draft.exists_addEdges b (hsub e he)
      have hfe : SameNode f.2 e.2 := ⟨ht, (hb.addEdges hfs).tails f hf, hfs e (hsub e he)⟩
      exact ⟨f, hf, SameEdge.symm (.of_tail hl hfe)⟩
  have hfs : ∀ e ∈ fs, e.2.WellBuilt := fun e he => hes e ((h e).2 he)
  refine sameNode_of_covers ((hb.addEdges hes).build t) ((hb.addEdges hfs).build t') ?_
    (hcov (fun e => (h e).1) hfs) fun f hf => ?_
  · show ((b.addEdges es).label == (b.addEdges fs).label) = true
    rw [Draft.label_addEdges, Draft.label_addEdges]
    exact BEq.rfl
  · obtain ⟨e, he, hfe⟩ := hcov (fun e => (h e).2) hes f hf
    exact ⟨e, he, hfe.symm⟩

/-- Nodes that are obtained have no edge twice, and equality compares them as a label with a set of
edges, whatever their digests. -/
structure SetEquality (V E : Type) [BEq V] [EquivBEq V] [Hashable V] [BEq E] [EquivBEq E]
    [Hashable E] : Prop where
  distinct : ∀ a : Dag V E, a.Obtained → a.edges.Pairwise fun e f =>
    ¬ ((e.1 == f.1) = true ∧ (e.2 == f.2) = true)
  refl : ∀ a : Dag V E, a.Obtained → (a == a) = true
  symm : ∀ a b : Dag V E, a.Obtained → b.Obtained → (a == b) = true → (b == a) = true
  trans : ∀ a b c : Dag V E, a.Obtained → b.Obtained → c.Obtained → (a == b) = true →
    (b == c) = true → (a == c) = true
  unordered : ∀ (b : Draft V E) (es fs : List (E × Dag V E)), b.Obtained →
    (∀ e ∈ es, e.2.Obtained) → (∀ e, e ∈ es ↔ e ∈ fs) → ∀ t t' : Nat,
      (((b.addEdges es).build.run t).1 == ((b.addEdges fs).build.run t').1) = true
  sets : ∀ a b : Dag V E, a.Obtained → b.Obtained → ((a == b) = true ↔
    (a.label == b.label) = true ∧
      (∀ e ∈ a.edges, ∃ f ∈ b.edges, (e.1 == f.1) = true ∧ (e.2 == f.2) = true) ∧
      ∀ f ∈ b.edges, ∃ e ∈ a.edges, (f.1 == e.1) = true ∧ (f.2 == e.2) = true)
  alike : ∀ a b : Dag V E, a.Obtained → b.Obtained → ((a == b) = true ↔ Alike a b)
  digest : ∀ a b : Dag V E, a.Obtained → b.Obtained → Alike a b → a.digest = b.digest

/-- Whatever the operations come to is compared as sets. -/
theorem setEquality_of_obtained : SetEquality V E where
  distinct a ha := ha.wellBuilt.distinct.imp fun {e f} hne h => by
    simp [(edge_beq_iff e f).2 h] at hne
  refl a _ := same_refl a
  symm _ _ ha _ h := beq_symm ha.wellBuilt h
  trans _ _ _ _ _ _ h h' := beq_trans h h'
  unordered _ _ _ hb hes h t t' :=
    (hb.ready.sameNode_of_same_edges (fun e he => (hes e he).wellBuilt) h t t').beq
  sets a b ha hb := by
    constructor
    · intro h
      exact ⟨label_beq h, fun e he => edge_of_beq h he,
        fun f hf => edge_of_beq_symm ha.wellBuilt h hf⟩
    · rintro ⟨hlabel, hcov, hcov'⟩
      refine (sameNode_of_covers ha.wellBuilt hb.wellBuilt hlabel (fun e he => ?_)
        fun f hf => ?_).beq
      · obtain ⟨f, hf, hl, ht⟩ := hcov e he
        exact ⟨f, hf, .of_tail hl ⟨ht, ha.wellBuilt.tail he, hb.wellBuilt.tail hf⟩⟩
      · obtain ⟨e, he, hl, ht⟩ := hcov' f hf
        exact ⟨e, he, SameEdge.symm
          (.of_tail hl ⟨ht, hb.wellBuilt.tail hf, ha.wellBuilt.tail he⟩)⟩
  alike _ _ ha hb := ⟨fun h => SameNode.alike ⟨h, ha.wellBuilt, hb.wellBuilt⟩,
    fun h => (h.same ha.wellBuilt hb.wellBuilt).beq⟩
  digest _ _ ha hb h := (beq_iff.1 (h.same ha.wellBuilt hb.wellBuilt).beq).1

/-- Nodes over one leaf and another that was built apart, with edges added in different orders. -/
theorem setEquality_of_reordered :
    let part := TypeKey.named "Part"
    let whole := TypeKey.named "Whole"
    let leaf (tag : Nat) : Dag TypeKey TypeKey := ((Draft.ofLabel part).build.run tag).1
    let draft : Draft TypeKey TypeKey := .ofLabel whole
    let a := ((draft.addEdges [(part, leaf 0), (whole, leaf 1)]).build.run 2).1
    let b := ((draft.addEdges [(whole, leaf 1), (part, leaf 0)]).build.run 3).1
    a.Obtained ∧ b.Obtained ∧ (a == b) = true ∧ Alike a b ∧ a.digest = b.digest := by
  intro part whole leaf draft a b
  have hleaf : ∀ tag, (leaf tag).Obtained := fun tag => .build tag (.ofLabel part)
  have ha : a.Obtained :=
    .build 2 (.addEdge whole (.addEdge part (.ofLabel whole) (hleaf 0)) (hleaf 1))
  have hb : b.Obtained :=
    .build 3 (.addEdge part (.addEdge whole (.ofLabel whole) (hleaf 1)) (hleaf 0))
  have h := setEquality_of_obtained (V := TypeKey) (E := TypeKey)
  have hab : (a == b) = true := h.unordered draft _ _ (.ofLabel whole)
    (by simpa using ⟨hleaf 0, hleaf 1⟩) (fun e => by simp [or_comm]) 2 3
  have halike := (h.alike a b ha hb).1 hab
  exact ⟨ha, hb, hab, halike, h.digest a b ha hb halike⟩

end Wiring.Dag
