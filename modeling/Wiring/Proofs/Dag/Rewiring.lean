import Wiring.Proofs.Dag.Sessions
import Wiring.Proofs.Dag.Transform

/-!
# Transforming edges is plain recursion

`rewire` builds every node anew over what `f` gives for its edges, or over what became of its tails
where `f` gives nothing. It keeps no memo and never gives a node back. `transform` does both and
comes to an equal graph. Where `f` gives nothing at all it gives back the very node, unless some
part of the graph is there twice.
-/

namespace Wiring.Dag

variable {V E : Type} [BEq V] [EquivBEq V] [Hashable V] [BEq E] [EquivBEq E] [Hashable E]

mutual

/-- The graph with what `f` gives for its edges. What is built anew takes over the tag, which
equality does not look at. -/
def rewire (f : Edge V E → Option (Edge V E)) : Dag V E → Dag V E
  | d@(node tag _ label es) =>
    (((Draft.ofLabel label).addEdges (rewireEdges f d es)).build.run tag).1

def rewireEdges (f : Edge V E → Option (Edge V E)) (head : Dag V E) :
    List (E × Dag V E) → List (E × Dag V E)
  | [] => []
  | (l, d) :: rest =>
    match f ⟨head, d, l⟩ with
    | some k => (k.label, k.tail) :: rewireEdges f head rest
    | none => (l, rewire f d) :: rewireEdges f head rest

end

def rewireEdge (f : Edge V E → Option (Edge V E)) (head : Dag V E) (e : E × Dag V E) :
    E × Dag V E :=
  match f ⟨head, e.2, e.1⟩ with
  | some k => (k.label, k.tail)
  | none => (e.1, rewire f e.2)

/-- Equal edges get equal answers: nothing, or equal labels with equal tails. -/
def RespectsEquality (f : Edge V E → Option (Edge V E)) : Prop :=
  ∀ e k, SameEnds e k →
    Option.Rel (fun a b => (a.label == b.label) = true ∧ (a.tail == b.tail) = true) (f e) (f k)

def Declines (f : Edge V E → Option (Edge V E)) (d : Dag V E) : Prop :=
  ∀ x, d.Has x → ∀ e ∈ x.edges, f ⟨x, e.2, e.1⟩ = none

variable {f : Edge V E → Option (Edge V E)} {d x y : Dag V E} {e k : E × Dag V E}
  {m : Memory V E} {memo : Memo V E}

/-! ## The plain recursion -/

theorem rewireEdges_eq (head : Dag V E) (es : List (E × Dag V E)) :
    rewireEdges f head es = es.map (rewireEdge f head) := by
  induction es with
  | nil => rw [rewireEdges, List.map_nil]
  | cons e es ih =>
    rw [rewireEdges, List.map_cons, rewireEdge]
    split <;> rw [ih]

theorem rewire_eq (f : Edge V E → Option (Edge V E)) (d : Dag V E) :
    rewire f d = (((Draft.ofLabel d.label).addEdges
      (d.edges.map (rewireEdge f d))).build.run d.tag).1 := by
  obtain ⟨_, _, _, _⟩ := d
  rw [rewire, rewireEdges_eq]
  rfl

theorem rewireEdge_wellBuilt (hgives : GivesBelow f m d) (he : e ∈ d.edges)
    (hkept : (rewire f e.2).WellBuilt) : (rewireEdge f d e).2.WellBuilt := by
  unfold rewireEdge
  split
  · rename_i k hk
    exact m.wellBuilt (hgives d (.self d) e he k hk)
  · exact hkept

theorem rewire_edges (hgives : GivesBelow f m d)
    (hkept : ∀ e ∈ d.edges, (rewire f e.2).WellBuilt) :
    (rewire f d).WellBuilt ∧ (d.label == (rewire f d).label) = true ∧
      (∀ e ∈ d.edges, ∃ g ∈ (rewire f d).edges, SameEdge (rewireEdge f d e) g) ∧
      ∀ g ∈ (rewire f d).edges, ∃ e ∈ d.edges, SameEdge (rewireEdge f d e) g := by
  have hwell : ∀ e ∈ d.edges.map (rewireEdge f d), e.2.WellBuilt :=
    List.forall_mem_map.2 fun e he => rewireEdge_wellBuilt hgives he (hkept e he)
  obtain ⟨hbuilt, hlabel, hhas, hfrom⟩ := build_edges hwell d.label d.tag
  rw [← rewire_eq f d] at hbuilt hlabel hhas hfrom
  refine ⟨hbuilt, hlabel, fun e he => hhas _ (List.mem_map_of_mem he), fun g hg => ?_⟩
  obtain ⟨_, hmem, heg⟩ := hfrom g hg
  obtain ⟨e, he, rfl⟩ := List.mem_map.1 hmem
  exact ⟨e, he, heg⟩

theorem rewire_wellBuilt (hgives : GivesBelow f m d) : (rewire f d).WellBuilt := by
  induction d using induction with
  | step d ih =>
    exact (rewire_edges hgives fun e he => ih e he (hgives.has (.step he (.self e.2)))).1

/-! ## Nothing to do -/

def OwnImages (d : Dag V E) (memo : Memo V E) : Prop := ∀ i ∈ memo.images, d.Has i.1 ∧ i.1 = i.2

omit [BEq V] [EquivBEq V] [Hashable V] [EquivBEq E] [Hashable E] in
theorem edgesChanged_self [ReflBEq E] (es : List (E × Dag V E)) : edgesChanged es es = false := by
  unfold edgesChanged
  induction es with
  | nil => rfl
  | cons e es ih =>
    rw [List.zip_cons_cons, List.any_cons, ih]
    simp [identical]

def OneEach (root : Dag V E) : Prop := ∀ x y, root.Has x → root.Has y → (x == y) = true → x = y

mutual

theorem transformNode_declined {root : Dag V E} (hdeclines : Declines f root)
    (hone : OneEach root) : ∀ (d : Dag V E) {memo : Memo V E} (tag : Nat), root.Has d →
    OwnImages root memo →
    ((transformNode f d memo).run tag).1.1 = d ∧
      OwnImages root ((transformNode f d memo).run tag).1.2
  | node t h l es, memo, tag, hd, hmemo => by
    rw [transformNode]
    cases hget : memo.get? _ with
    | some image =>
      obtain ⟨i, hi, hid, rfl⟩ := Memo.exists_of_get? hget
      obtain ⟨hhas, hown⟩ := hmemo i hi
      exact ⟨hown.symm.trans (hone _ _ hhas hd hid), hmemo⟩
    | none =>
      obtain ⟨hes, hmemo'⟩ := transformEdges_declined hdeclines hone (node t h l es) es tag
        (fun e he => hdeclines _ hd e he) (fun e he => hd.edge he) hmemo
      rw [Fresh.run_bind]
      generalize (transformEdges f (node t h l es) es memo).run tag = out at hes hmemo' ⊢
      dsimp only
      rw [hes, edgesChanged_self]
      exact ⟨rfl, List.forall_mem_cons.2 ⟨⟨hd, rfl⟩, hmemo'⟩⟩

theorem transformEdges_declined {root : Dag V E} (hdeclines : Declines f root)
    (hone : OneEach root) (head : Dag V E) :
    ∀ (es : List (E × Dag V E)) {memo : Memo V E} (tag : Nat), (∀ e ∈ es, f ⟨head, e.2, e.1⟩ = none) → (∀ e ∈ es, root.Has e.2) →
    OwnImages root memo →
    ((transformEdges f head es memo).run tag).1.1 = es ∧
      OwnImages root ((transformEdges f head es memo).run tag).1.2
  | [], memo, tag, _, _, hmemo => by
    rw [transformEdges]
    exact ⟨rfl, hmemo⟩
  | (l, d) :: rest, memo, tag, hnone, hes, hmemo => by
    obtain ⟨hfirst, hnone⟩ := List.forall_mem_cons.1 hnone
    obtain ⟨hd, hes⟩ := List.forall_mem_cons.1 hes
    rw [transformEdges, hfirst]
    obtain ⟨hnode, hmemo1⟩ := transformNode_declined hdeclines hone d tag hd hmemo
    obtain ⟨hrest, hmemo2⟩ := transformEdges_declined hdeclines hone head rest _ hnone hes hmemo1
    exact ⟨congrArg₂ (fun n ns => (l, n) :: ns) hnode hrest, hmemo2⟩

end

theorem transform_declined (hdeclines : Declines f d) (hone : OneEach d) (tag : Nat) :
    ((transform f d).run tag).1 = d := by
  have hempty : OwnImages d (.empty : Memo V E) := by simp [OwnImages]
  exact (transformNode_declined hdeclines hone d tag (.self d) hempty).1

/-! ## The images of the walk -/

theorem Moved.rewired {e' : E × Dag V E} (hf : RespectsEquality f) (hgives : GivesBelow f m y)
    (hxy : SameNode x y) (hek : SameEdge e k) (hk : k ∈ y.edges)
    (himage : ∀ b, MemoImage memo k.2 b → SameNode b (rewire f k.2))
    (h : Moved f (MemoImage memo) x e e') : SameEdge e' (rewireEdge f y k) := by
  have hrel := hf ⟨x, e.2, e.1⟩ ⟨y, k.2, k.1⟩ ⟨hxy, hek.tail, hek.label⟩
  unfold rewireEdge
  cases h with
  | @replaced a ha he' =>
    rw [ha] at hrel
    cases hb : f ⟨y, k.2, k.1⟩ with
    | none => simp [hb] at hrel
    | some b =>
      rw [hb, Option.rel_some_some] at hrel
      have htail : SameNode a.tail b.tail :=
        ⟨hrel.2, he'.left, m.wellBuilt (hgives y (.self y) k hk b hb)⟩
      exact he'.symm.trans (.of_tail hrel.1 htail)
  | kept hnone hl hr =>
    rw [hnone] at hrel
    cases hb : f ⟨y, k.2, k.1⟩ with
    | some b => simp [hb] at hrel
    | none =>
      refine .of_tail (BEq.trans (BEq.symm hl) hek.label) (himage _ ?_)
      obtain ⟨i, hi, hie, hib⟩ := hr
      exact ⟨i, hi, hie.trans hek.tail, hib⟩

section Equal

variable [LawfulHashable V] [LawfulHashable E]

theorem MemoImage.rewired {m' : Memory V E} (hf : RespectsEquality f)
    (hgives : GivesBelow f m d) (hmemo : TransformMemo f m' memo) (h : MemoImage memo d y) :
    SameNode y (rewire f d) := by
  induction d using induction generalizing y with
  | step d ih =>
    obtain ⟨⟨a, b⟩, hi, had, hby⟩ := h
    have himaged := hmemo.imaged _ hi
    have hmoved : ∀ e ∈ a.edges, ∀ e', Moved f (MemoImage memo) a e e' →
        ∀ k ∈ d.edges, SameEdge e k → SameEdge e' (rewireEdge f d k) := by
      intro e _ e' hm k hk hek
      exact hm.rewired hf hgives had hek hk fun z hz =>
        ih k hk (hgives.has (.step hk (.self k.2))) hz
    obtain ⟨hbuilt, hlabel, hhas, hfrom⟩ := rewire_edges hgives fun k hk =>
      rewire_wellBuilt (hgives.has (.step hk (.self k.2)))
    refine hby.symm.trans (sameNode_of_covers hby.left hbuilt ?_ (fun e' he' => ?_) fun g hg => ?_)
    · exact BEq.trans (BEq.symm himaged.label) (BEq.trans had.label hlabel)
    · obtain ⟨e, he, hm⟩ := himaged.origin e' he'
      obtain ⟨k, hk, hek⟩ := had.edge he
      obtain ⟨g, hg, hkg⟩ := hhas k hk
      exact ⟨g, hg, (hmoved e he e' hm k hk hek).trans hkg⟩
    · obtain ⟨k, hk, hkg⟩ := hfrom g hg
      obtain ⟨e, he, hke⟩ := had.symm.edge hk
      obtain ⟨e', he', hm⟩ := himaged.edge e he
      exact ⟨e', he', (hmoved e he e' hm k hk hke.symm).trans hkg⟩

/-- A transformation comes to what the plain recursion comes to, if `f` does not tell equal edges
apart. If it declines every edge of the graph, what it comes to equals the graph, and is the very
node if equal nodes of the graph are one. -/
theorem transform_rewires (hd : m.nodes d) (hf : RespectsEquality f) (hgives : GivesBelow f m d) :
    let y := ((transform f d).run m.next).1
    (y == rewire f d) = true ∧
      (Declines f d → (y == d) = true ∧
        ((∀ x z, d.Has x → d.Has z → (x == z) = true → x.identical z = true) → y = d)) := by
  have hempty : TransformMemo f m .empty := ⟨by simp [Memory.Images], by simp⟩
  obtain ⟨m', -, -, -, hmemo, -, himage⟩ := transformNode_spec d hgives hempty hd
  refine ⟨(himage.rewired hf hgives hmemo).beq, fun hdeclines => ⟨?_, fun hone => ?_⟩⟩
  · have hspares : Spares f d := by
      intro x hx e he k hk
      rw [hdeclines x hx e he] at hk
      cases hk
    exact (transform_same (m.wellBuilt hd) hspares m.next).symm.beq
  · refine transform_declined hdeclines (fun x z hx hz hxz => ?_) m.next
    exact Memory.eq_of_identical (Memory.has hd hx) (Memory.has hd hz) (hone x z hx hz hxz)

/-- A leaf with two ways to it: one of them is turned to another leaf, or else nothing is done and
the graph is given back. -/
theorem transform_rewires_shared :
    let part := TypeKey.named "Part"
    let whole := TypeKey.named "Whole"
    let leaf : Dag TypeKey TypeKey := ((Draft.ofLabel part).build.run 0).1
    let other : Dag TypeKey TypeKey := ((Draft.ofLabel whole).build.run 1).1
    let root := (((Draft.ofLabel whole).addEdges [(part, leaf), (whole, leaf)]).build.run 2).1
    let f (e : Edge TypeKey TypeKey) : Option (Edge TypeKey TypeKey) :=
      if e.label == part then some ⟨e.head, other, whole⟩ else none
    let idle (_ : Edge TypeKey TypeKey) : Option (Edge TypeKey TypeKey) := none
    ∃ m : Memory TypeKey TypeKey, m.nodes root ∧ RespectsEquality f ∧ GivesBelow f m root ∧
      (((transform f root).run m.next).1 == rewire f root) = true ∧ Declines idle root ∧
      ((transform idle root).run m.next).1 = root := by
  intro part whole leaf other root f idle
  -- A session that built the two leaves and then the graph.
  let leaves : Session TypeKey TypeKey :=
    ((Session.start 0).build (.ofLabel part)).build (.ofLabel whole)
  have hleaf : leaf ∈ leaves.nodes := .tail _ (.head _)
  have hreached := (((Session.Reached.start 0).build (.ofLabel part)).build (.ofLabel whole)).build
    (Session.Drafted.addEdge whole (.addEdge part (.ofLabel whole) hleaf) hleaf)
  obtain ⟨m, hs⟩ := hreached.exists_sound
  have hroot : m.nodes root := hs.nodes _ (.head _)
  have hother : m.nodes other := hs.nodes _ (.tail _ (.head _))
  have hhas : ∀ x, root.Has x → x = root ∨ x = leaf := by
    intro x hx
    rcases hx.eq_or_below with rfl | ⟨e, he, hx⟩
    · exact .inl rfl
    · have he : e ∈ [(part, leaf), (whole, leaf)] :=
        (Draft.mem_addEdges he).resolve_left (List.not_mem_nil)
      have hleaf : e.2 = leaf := by
        rcases List.mem_cons.1 he with rfl | he
        · rfl
        · rw [List.mem_singleton.1 he]
      rcases (hleaf ▸ hx).eq_or_below with rfl | ⟨_, hnone, -⟩
      · exact .inr rfl
      · cases hnone
  have hlabel : root.label = whole := Draft.label_addEdges _ _
  have hf : RespectsEquality f := by
    intro e k hek
    have hsame : e.label = k.label := eq_of_beq hek.label
    show Option.Rel _ (if e.label == part then _ else _) (if k.label == part then _ else _)
    rw [hsame]
    split
    · exact .some ⟨BEq.rfl, same_refl other⟩
    · exact .none
  have hgives : GivesBelow f m root := by
    intro x _ e _ k hk
    obtain ⟨-, hk⟩ := Option.ite_none_right_eq_some.1 hk
    obtain rfl := Option.some_inj.1 hk
    exact hother
  have hidle : RespectsEquality idle := fun _ _ _ => .none
  have hidlegives : GivesBelow idle m root := fun _ _ _ _ _ hk => by cases hk
  refine ⟨m, hroot, hf, hgives, (transform_rewires hroot hf hgives).1, fun _ _ _ _ => rfl, ?_⟩
  refine ((transform_rewires hroot hidle hidlegives).2 fun _ _ _ _ => rfl).2 fun x z hx hz hxz => ?_
  have hlabels := label_beq hxz
  rcases hhas x hx with rfl | rfl <;> rcases hhas z hz with rfl | rfl
  · exact beq_self_eq_true _
  · rw [hlabel] at hlabels
    cases hlabels
  · rw [hlabel] at hlabels
    cases hlabels
  · exact beq_self_eq_true _

end Equal

end Wiring.Dag
