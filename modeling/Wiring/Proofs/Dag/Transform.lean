import Wiring.Dag.Transform
import Wiring.Proofs.Dag.Memory
import Wiring.Proofs.Dag.Same

/-!
# What transforming edges does

Between the old nodes and the new ones there is a relation under which every edge has become what
`f` gives for it or, where `f` gives nothing, an edge with the same label to a related tail.
-/

namespace Wiring.Dag

variable {V E : Type} [BEq V] [EquivBEq V] [Hashable V] [BEq E] [EquivBEq E] [Hashable E]

structure SameEnds (e k : Edge V E) : Prop where
  head : SameNode e.head k.head
  tail : SameNode e.tail k.tail
  label : (e.label == k.label) = true

omit [EquivBEq V] [EquivBEq E] [Hashable V] [Hashable E] in
theorem Edge.beq_iff [ReflBEq V] [ReflBEq E] (e k : Edge V E) : (e == k) = true ↔
    (e.head == k.head) = true ∧ (e.tail == k.tail) = true ∧ (e.label == k.label) = true := by
  show (e.head == k.head && e.tail == k.tail && e.label == k.label) = true ↔ _
  simp [and_assoc]

instance : ReflBEq (Edge V E) where
  rfl {e} := (Edge.beq_iff e e).2 ⟨same_refl _, same_refl _, BEq.rfl⟩

def Respects (f : Edge V E → Option (Edge V E)) : Prop := ∀ e k, SameEnds e k → f e = f k

inductive Moved (f : Edge V E → Option (Edge V E)) (R : Dag V E → Dag V E → Prop) (x : Dag V E)
    (e e' : E × Dag V E) : Prop
  | replaced {k : Edge V E} : f ⟨x, e.2, e.1⟩ = some k → SameEdge (k.label, k.tail) e' →
      Moved f R x e e'
  | kept : f ⟨x, e.2, e.1⟩ = none → (e.1 == e'.1) = true → R e.2 e'.2 → Moved f R x e e'

structure Imaged (f : Edge V E → Option (Edge V E)) (R : Dag V E → Dag V E → Prop)
    (x y : Dag V E) : Prop where
  source : x.WellBuilt
  target : y.WellBuilt
  label : (x.label == y.label) = true
  edge : ∀ e ∈ x.edges, ∃ e' ∈ y.edges, Moved f R x e e'
  origin : ∀ e' ∈ y.edges, ∃ e ∈ x.edges, Moved f R x e e'

/-- A relation between old nodes and new ones, which does not tell equal nodes apart. -/
structure Transforms (f : Edge V E → Option (Edge V E)) (R : Dag V E → Dag V E → Prop) :
    Prop where
  imaged : ∀ {x y}, R x y → Imaged f R x y
  congr : ∀ {x x' y y'}, R x y → SameNode x x' → SameNode y y' → R x' y'

variable {f : Edge V E → Option (Edge V E)} {R S : Dag V E → Dag V E → Prop}
  {x x' y y' d : Dag V E} {e e' k : E × Dag V E} {m m' : Memory V E} {memo memo' : Memo V E}

theorem Moved.mono (h : Moved f R x e e') (hRS : ∀ a b, R a b → S a b) : Moved f S x e e' := by
  cases h with
  | replaced hf he => exact .replaced hf he
  | kept hf hl hr => exact .kept hf hl (hRS _ _ hr)

theorem Imaged.mono (h : Imaged f R x y) (hRS : ∀ a b, R a b → S a b) : Imaged f S x y where
  source := h.source
  target := h.target
  label := h.label
  edge e he := by
    obtain ⟨e', he', hm⟩ := h.edge e he
    exact ⟨e', he', hm.mono hRS⟩
  origin e' he' := by
    obtain ⟨e, he, hm⟩ := h.origin e' he'
    exact ⟨e, he, hm.mono hRS⟩

section Congruence

variable (hR : ∀ {x x' y y' : Dag V E}, R x y → SameNode x x' → SameNode y y' → R x' y')
include hR

theorem Moved.congr_right (h : Moved f R x e e') (he : e.2.WellBuilt) (hk : SameEdge e' k) :
    Moved f R x e k := by
  cases h with
  | replaced hf he' => exact .replaced hf (he'.trans hk)
  | kept hf hl hr => exact .kept hf (BEq.trans hl hk.label) (hR hr (.refl he) hk.tail)

theorem Moved.congr_left (hf : Respects f) (h : Moved f R x e e') (he' : e'.2.WellBuilt)
    (hx : SameNode x x') (hk : SameEdge e k) : Moved f R x' k e' := by
  have hsame : f ⟨x', k.2, k.1⟩ = f ⟨x, e.2, e.1⟩ := by
    apply hf
    exact ⟨hx.symm, hk.tail.symm, BEq.symm hk.label⟩
  cases h with
  | replaced hsome hedge => exact .replaced (hsame.trans hsome) hedge
  | kept hnone hl hr =>
    exact .kept (hsame.trans hnone) (BEq.trans (BEq.symm hk.label) hl) (hR hr hk.tail (.refl he'))

theorem Imaged.congr (hf : Respects f) (h : Imaged f R x y) (hx : SameNode x x')
    (hy : SameNode y y') : Imaged f R x' y' where
  source := hx.right
  target := hy.right
  label := BEq.trans hx.symm.label (BEq.trans h.label hy.label)
  edge k hk := by
    obtain ⟨e, he, hek⟩ := hx.symm.edge hk
    obtain ⟨e', he', hm⟩ := h.edge e he
    obtain ⟨k', hk', hee⟩ := hy.edge he'
    have hm := hm.congr_left hR hf (h.target.tail he') hx hek.symm
    exact ⟨k', hk', hm.congr_right hR (hx.right.tail hk) hee⟩
  origin k' hk' := by
    obtain ⟨e', he', hee⟩ := hy.symm.edge hk'
    obtain ⟨e, he, hm⟩ := h.origin e' he'
    obtain ⟨k, hk, hek⟩ := hx.edge he
    have hm := hm.congr_left hR hf (h.target.tail he') hx hek
    exact ⟨k, hk, hm.congr_right hR (hx.right.tail hk) hee.symm⟩

end Congruence

/-! ## The memo -/

def MemoImage (memo : Memo V E) (x y : Dag V E) : Prop :=
  ∃ i ∈ memo.images, SameNode i.1 x ∧ SameNode i.2 y

structure TransformMemo (f : Edge V E → Option (Edge V E)) (m : Memory V E) (memo : Memo V E) :
    Prop where
  images : m.Images memo
  imaged : ∀ i ∈ memo.images, Imaged f (MemoImage memo) i.1 i.2

theorem MemoImage.congr (h : MemoImage memo x y) (hx : SameNode x x') (hy : SameNode y y') :
    MemoImage memo x' y' := by
  obtain ⟨i, hi, h1, h2⟩ := h
  exact ⟨i, hi, h1.trans hx, h2.trans hy⟩

theorem MemoImage.mono (h : MemoImage memo x y) (hsub : ∀ i ∈ memo.images, i ∈ memo'.images) :
    MemoImage memo' x y := by
  obtain ⟨i, hi, h1, h2⟩ := h
  exact ⟨i, hsub i hi, h1, h2⟩

theorem TransformMemo.extends (h : TransformMemo f m memo) (hm : m.Extends m') :
    TransformMemo f m' memo := ⟨h.images.mono hm, h.imaged⟩

theorem TransformMemo.insert (h : TransformMemo f m memo) (hy : m.nodes y)
    (hxy : Imaged f (MemoImage memo) x y) : TransformMemo f m (memo.insert x y) := by
  have hmono : ∀ a b, MemoImage memo a b → MemoImage (memo.insert x y) a b :=
    fun a b hab => hab.mono fun i hi => List.mem_cons_of_mem _ hi
  refine ⟨h.images.insert hy, fun i hi => ?_⟩
  rcases List.mem_cons.1 hi with rfl | hi
  · exact hxy.mono hmono
  · exact (h.imaged i hi).mono hmono

theorem TransformMemo.transforms (hf : Respects f) (h : TransformMemo f m memo) :
    Transforms f (MemoImage memo) where
  imaged := by
    rintro x y ⟨i, hi, hx, hy⟩
    exact (h.imaged i hi).congr MemoImage.congr hf hx hy
  congr := MemoImage.congr

/-! ## The walk -/

omit [BEq V] [EquivBEq V] [Hashable V] [EquivBEq E] [Hashable E] in
theorem not_edgesChanged {P : E × Dag V E → E × Dag V E → Prop} {es fs : List (E × Dag V E)}
    (h : List.Forall₂ P es fs) (hsame : edgesChanged es fs = false) :
    ∀ e ∈ es, ∃ e', P e e' ∧ e' ∈ fs ∧ e'.2.identical e.2 = true ∧ (e'.1 == e.1) = true := by
  induction h with
  | nil => simp
  | @cons a b es fs hab _ ih =>
    unfold edgesChanged at hsame ih
    simp only [List.zip_cons_cons, List.any_cons, Bool.or_eq_false_iff, Bool.not_eq_false'] at hsame
    intro e he
    rcases List.mem_cons.1 he with rfl | he
    · exact ⟨b, hab, List.mem_cons_self, hsame.1.1, hsame.1.2⟩
    · obtain ⟨e', hP, hmem, h⟩ := ih hsame.2 e he
      exact ⟨e', hP, List.mem_cons_of_mem _ hmem, h⟩

/-- The tails that `f` gives are in the memory. -/
def Gives (f : Edge V E → Option (Edge V E)) (m : Memory V E) : Prop :=
  ∀ e k, f e = some k → m.nodes k.tail

def GivesBelow (f : Edge V E → Option (Edge V E)) (m : Memory V E) (d : Dag V E) : Prop :=
  ∀ x, d.Has x → ∀ e ∈ x.edges, ∀ k, f ⟨x, e.2, e.1⟩ = some k → m.nodes k.tail

theorem Gives.below (h : Gives f m) (d : Dag V E) : GivesBelow f m d :=
  fun _ _ _ _ k hk => h _ k hk

theorem GivesBelow.has (h : GivesBelow f m d) (hx : d.Has x) : GivesBelow f m x :=
  fun y hy => h y (hx.trans hy)

theorem GivesBelow.mono (h : GivesBelow f m d) (hm : m.Extends m') : GivesBelow f m' d :=
  fun x hx e he k hk => hm.nodes (h x hx e he k hk)

theorem build_covers {P : E × Dag V E → E × Dag V E → Prop} {l : V} {es fs : List (E × Dag V E)}
    (hP : ∀ e ∈ es, ∀ e' k, P e e' → SameEdge e' k → P e k) (hfs : List.Forall₂ P es fs)
    (hnodes : ∀ e ∈ fs, e.2.WellBuilt) (tag : Nat) :
    let y := (((Draft.ofLabel l).addEdges fs).build.run tag).1
    y.WellBuilt ∧ (l == y.label) = true ∧ (∀ e ∈ es, ∃ e' ∈ y.edges, P e e') ∧
      ∀ e' ∈ y.edges, ∃ e ∈ es, P e e' := by
  intro y
  have hready := (Draft.ready_ofLabel l).addEdges hnodes
  refine ⟨hready.build tag, ?_, fun e he => ?_, fun e' he' => ?_⟩
  · show (l == ((Draft.ofLabel l).addEdges fs).label) = true
    rw [Draft.label_addEdges]
    exact BEq.rfl
  · obtain ⟨e', he', he'P⟩ := exists_of_forall₂ hfs e he
    obtain ⟨k, hk, hl, ht⟩ := Draft.exists_addEdges (Draft.ofLabel l) he'
    have hsame : SameEdge k e' := .of_tail hl ⟨ht, hready.tails k hk, hnodes e' he'⟩
    exact ⟨k, hk, hP e he e' k he'P hsame.symm⟩
  · rcases Draft.mem_addEdges he' with he' | he'
    · cases he'
    · exact exists_of_forall₂ hfs.flip e' he'

theorem build_edges {es : List (E × Dag V E)} (hes : ∀ e ∈ es, e.2.WellBuilt) (l : V) (tag : Nat) :
    let b := (((Draft.ofLabel l).addEdges es).build.run tag).1
    b.WellBuilt ∧ (l == b.label) = true ∧ (∀ e ∈ es, ∃ g ∈ b.edges, SameEdge e g) ∧
      ∀ g ∈ b.edges, ∃ e ∈ es, SameEdge e g :=
  build_covers (fun _ _ _ _ h h' => h.trans h')
    (List.forall₂_same.2 fun e he => SameEdge.refl (hes e he)) hes tag

section Node

variable {t : Nat} {h : UInt64} {l : V} {es fs : List (E × Dag V E)}

theorem imaged_build (hd : (node t h l es).WellBuilt)
    (hfs : List.Forall₂ (Moved f (MemoImage memo) (node t h l es)) es fs)
    (hnodes : ∀ e ∈ fs, e.2.WellBuilt) (tag : Nat) :
    Imaged f (MemoImage memo) (node t h l es)
      (((Draft.ofLabel l).addEdges fs).build.run tag).1 := by
  obtain ⟨hbuilt, hlabel, hedge, horigin⟩ := build_covers
    (fun e he e' k hm hk => hm.congr_right MemoImage.congr (hd.tail he) hk) hfs hnodes tag
  exact ⟨hd, hbuilt, hlabel, hedge, horigin⟩

theorem imaged_self (hd : m.nodes (node t h l es))
    (hfs : List.Forall₂ (Moved f (MemoImage memo) (node t h l es)) es fs)
    (hnodes : ∀ e ∈ fs, m.nodes e.2) (hsame : edgesChanged es fs = false) :
    Imaged f (MemoImage memo) (node t h l es) (node t h l es) := by
  have hw := m.wellBuilt hd
  -- In one memory an identical tail is the same tail, so each edge has become itself.
  have hself : ∀ e ∈ es, Moved f (MemoImage memo) (node t h l es) e e := by
    intro e he
    obtain ⟨e', hm, he', hid, hl⟩ := not_edgesChanged hfs hsame e he
    have htail := Memory.eq_of_identical (hnodes e' he') (m.tail hd e he) hid
    have he : SameEdge e' e := .of_tail hl (htail ▸ .refl (m.wellBuilt (hnodes e' he')))
    exact hm.congr_right MemoImage.congr he.right he
  exact ⟨hw, hw, BEq.rfl, fun e he => ⟨e, he, hself e he⟩, fun e he => ⟨e, he, hself e he⟩⟩

end Node

mutual

theorem transformNode_spec : ∀ (d : Dag V E) {m : Memory V E} {memo : Memo V E}, GivesBelow f m d →
    TransformMemo f m memo → m.nodes d →
    m.Allows (transformNode f d memo) fun m' r => m'.nodes r.1 ∧ TransformMemo f m' r.2 ∧
      (∀ i ∈ memo.images, i ∈ r.2.images) ∧ MemoImage r.2 d r.1
  | node t h l es, m, memo, hgives, hmemo, hd => by
    have hw := m.wellBuilt hd
    rw [transformNode]
    cases hget : memo.get? _ with
    | some image =>
      obtain ⟨i, hi, hid, rfl⟩ := Memo.exists_of_get? hget
      have hsource : SameNode i.1 (node t h l es) := ⟨hid, (hmemo.imaged i hi).source, hw⟩
      refine Memory.allows_pure ⟨hmemo.images i hi, hmemo, fun _ hi => hi, i, hi, hsource, ?_⟩
      exact .refl (hmemo.imaged i hi).target
    | none =>
      dsimp only
      have hbelow : ∀ e ∈ es, GivesBelow f m e.2 := fun e he => hgives.has (.step he (.self e.2))
      refine (transformEdges_spec (node t h l es) es (hgives _ (.self _)) hbelow hmemo
        fun e he => m.tail hd e he).bind fun m1 r hm1 hr => ?_
      obtain ⟨hnodes, hmemo1, hsub, hfs⟩ := hr
      -- Rebuilt or kept, what the node has become joins the memo.
      have hinsert : ∀ {m2 : Memory V E} {y : Dag V E}, m1.Extends m2 → m2.nodes y →
          Imaged f (MemoImage r.2) (node t h l es) y →
          m2.nodes y ∧ TransformMemo f m2 (r.2.insert (node t h l es) y) ∧
            (∀ i ∈ memo.images, i ∈ (r.2.insert (node t h l es) y).images) ∧
            MemoImage (r.2.insert (node t h l es) y) (node t h l es) y := by
        intro m2 y hm2 hy himaged
        exact ⟨hy, (hmemo1.extends hm2).insert hy himaged,
          fun i hi => List.mem_cons_of_mem _ (hsub i hi),
          _, List.mem_cons_self, .refl hw, .refl himaged.target⟩
      split
      · -- Some edge changed.
        refine (Memory.allows_over hnodes).result.bind fun m2 y hm2 hy => ?_
        refine Memory.allows_pure (hinsert hm2 hy.1 ?_)
        rw [hy.2]
        exact imaged_build hw hfs (fun e he => m1.wellBuilt (hnodes e he)) m1.next
      · -- No edge changed.
        rename_i hsame
        refine Memory.allows_pure (hinsert (.refl m1) (hm1.nodes hd) ?_)
        exact imaged_self (hm1.nodes hd) hfs hnodes (by simpa using hsame)

theorem transformEdges_spec (head : Dag V E) : ∀ (es : List (E × Dag V E)) {m : Memory V E}
    {memo : Memo V E}, (∀ e ∈ es, ∀ k, f ⟨head, e.2, e.1⟩ = some k → m.nodes k.tail) →
    (∀ e ∈ es, GivesBelow f m e.2) → TransformMemo f m memo → (∀ e ∈ es, m.nodes e.2) →
    m.Allows (transformEdges f head es memo) fun m' r => (∀ e ∈ r.1, m'.nodes e.2) ∧
      TransformMemo f m' r.2 ∧ (∀ i ∈ memo.images, i ∈ r.2.images) ∧
      List.Forall₂ (Moved f (MemoImage r.2) head) es r.1
  | [], m, memo, _, _, hmemo, _ => by
    rw [transformEdges]
    exact Memory.allows_pure ⟨by simp, hmemo, fun _ hi => hi, .nil⟩
  | (l, d) :: rest, m, memo, hgives, hbelow, hmemo, hes => by
    rw [transformEdges]
    obtain ⟨hfirst, hgives⟩ := List.forall_mem_cons.1 hgives
    obtain ⟨hdbelow, hbelow⟩ := List.forall_mem_cons.1 hbelow
    have hrest : ∀ e ∈ rest, m.nodes e.2 := fun e he => hes e (List.mem_cons_of_mem _ he)
    split
    · rename_i k hk
      refine (transformEdges_spec head rest hgives hbelow hmemo hrest).bind fun m1 r hm1 hr => ?_
      obtain ⟨hnodes, hmemo1, hsub, hfs⟩ := hr
      have htail := hm1.nodes (hfirst k hk)
      exact Memory.allows_pure ⟨List.forall_mem_cons.2 ⟨htail, hnodes⟩, hmemo1, hsub,
        .cons (.replaced hk (.refl (m1.wellBuilt htail))) hfs⟩
    · rename_i hnone
      refine (transformNode_spec d hdbelow hmemo (hes _ List.mem_cons_self)).bind
        fun m1 r hm1 hr => ?_
      obtain ⟨hnode, hmemo1, hsub, himage⟩ := hr
      refine (transformEdges_spec head rest (fun e he k hk => hm1.nodes (hgives e he k hk))
        (fun e he => (hbelow e he).mono hm1) hmemo1
        fun e he => hm1.nodes (hrest e he)).bind fun m2 rs hm2 hrs => ?_
      obtain ⟨hnodes, hmemo2, hsub2, hfs⟩ := hrs
      exact Memory.allows_pure ⟨List.forall_mem_cons.2 ⟨hm2.nodes hnode, hnodes⟩, hmemo2,
        fun i hi => hsub2 i (hsub i hi), .cons (.kept hnone BEq.rfl (himage.mono hsub2)) hfs⟩

end

theorem transform_spec (hf : Respects f) (hgives : Gives f m) (hd : m.nodes d) :
    m.Allows (transform f d) fun m' y => m'.nodes y ∧ ∃ R, Transforms f R ∧ R d y := by
  have hempty : TransformMemo f m .empty := ⟨by simp [Memory.Images], by simp⟩
  refine (transformNode_spec d (hgives.below d) hempty hd).bind fun m' r _ hr => ?_
  obtain ⟨hnode, hmemo, -, himage⟩ := hr
  exact Memory.allows_pure ⟨hnode, _, hmemo.transforms hf, himage⟩

/-! ## Transforming nothing -/

def Spares (f : Edge V E → Option (Edge V E)) (d : Dag V E) : Prop :=
  ∀ x, d.Has x → ∀ e ∈ x.edges, ∀ k, f ⟨x, e.2, e.1⟩ = some k → SameEdge e (k.label, k.tail)

section Build

variable [LawfulHashable V] [LawfulHashable E]

theorem sameNode_build {t : Nat} {h : UInt64} {l : V} {es fs : List (E × Dag V E)}
    (hd : (node t h l es).WellBuilt) (hfs : List.Forall₂ SameEdge es fs) (tag : Nat) :
    SameNode (node t h l es) (((Draft.ofLabel l).addEdges fs).build.run tag).1 := by
  have hnodes : ∀ e ∈ fs, e.2.WellBuilt := by
    intro e' he'
    obtain ⟨e, -, hsame⟩ := exists_of_forall₂ hfs.flip e' he'
    exact hsame.right
  obtain ⟨hbuilt, hlabel, hedge, horigin⟩ :=
    build_covers (fun e _ e' k hsame hk => hsame.trans hk) hfs hnodes tag
  exact sameNode_of_covers hd hbuilt hlabel hedge horigin

theorem sameNode_of_builds {k l : V} {es fs : List (E × Dag V E)} (hl : (k == l) = true)
    (hes : ∀ e ∈ es, ∃ f ∈ fs, SameEdge e f) (hfs : ∀ f ∈ fs, ∃ e ∈ es, SameEdge e f)
    (t t' : Nat) :
    SameNode (((Draft.ofLabel k).addEdges es).build.run t).1
      (((Draft.ofLabel l).addEdges fs).build.run t').1 := by
  have hleft : ∀ e ∈ es, e.2.WellBuilt := fun e he =>
    let ⟨_, _, h⟩ := hes e he
    h.left
  have hright : ∀ f ∈ fs, f.2.WellBuilt := fun f hf =>
    let ⟨_, _, h⟩ := hfs f hf
    h.right
  obtain ⟨ha, hka, hhas, hfrom⟩ := build_edges hleft k t
  obtain ⟨hb, hlb, hhas', hfrom'⟩ := build_edges hright l t'
  refine sameNode_of_covers ha hb (BEq.trans (BEq.symm hka) (BEq.trans hl hlb)) (fun x hx => ?_)
    fun y hy => ?_
  · obtain ⟨e, he, hex⟩ := hfrom x hx
    obtain ⟨f, hf, hef⟩ := hes e he
    obtain ⟨y, hy, hfy⟩ := hhas' f hf
    exact ⟨y, hy, hex.symm.trans (hef.trans hfy)⟩
  · obtain ⟨f, hf, hfy⟩ := hfrom' y hy
    obtain ⟨e, he, hef⟩ := hfs f hf
    obtain ⟨x, hx, hex⟩ := hhas e he
    exact ⟨x, hx, hex.symm.trans (hef.trans hfy)⟩

end Build

theorem Fresh.run_bind {α β : Type} (c : Fresh α) (k : α → Fresh β) (tag : Nat) :
    (c >>= k).run tag = (k (c.run tag).1).run (c.run tag).2 := rfl

mutual

theorem transformNode_same [LawfulHashable V] [LawfulHashable E] :
    ∀ (d : Dag V E) {memo : Memo V E} (tag : Nat), d.WellBuilt →
    Spares f d → Pool.Faithful memo →
    SameNode d ((transformNode f d memo).run tag).1.1 ∧
      Pool.Faithful ((transformNode f d memo).run tag).1.2
  | node t h l es, memo, tag, hd, hspares, hmemo => by
    have hinsert : ∀ {memo : Memo V E} {y : Dag V E}, Pool.Faithful memo →
        SameNode (node t h l es) y → Pool.Faithful (memo.insert (node t h l es) y) := by
      intro memo y hmemo hsame i hi
      rcases List.mem_cons.1 hi with rfl | hi
      · exact ⟨hsame.symm.beq, hsame.right⟩
      · exact hmemo i hi
    rw [transformNode]
    cases hget : memo.get? _ with
    | some image =>
      obtain ⟨i, hi, hid, rfl⟩ := Memo.exists_of_get? hget
      obtain ⟨himage, hwell⟩ := hmemo i hi
      have hbeq : (i.2 == node t h l es) = true := beq_trans himage hid
      exact ⟨⟨beq_symm hwell hbeq, hd, hwell⟩, hmemo⟩
    | none =>
      have htails : ∀ e ∈ es, e.2.WellBuilt := fun e he => hd.tail he
      obtain ⟨hsame, hmemo'⟩ := transformEdges_same (node t h l es) es tag htails
        (hspares _ (.self _)) (fun e he x hx => hspares x (.step he hx)) hmemo
      rw [Fresh.run_bind]
      generalize (transformEdges f (node t h l es) es memo).run tag = out at hsame hmemo' ⊢
      dsimp only
      split
      · have hbuilt := sameNode_build hd hsame out.2
        exact ⟨hbuilt, hinsert hmemo' hbuilt⟩
      · exact ⟨.refl hd, hinsert hmemo' (.refl hd)⟩

theorem transformEdges_same [LawfulHashable V] [LawfulHashable E] (head : Dag V E) :
    ∀ (es : List (E × Dag V E)) {memo : Memo V E} (tag : Nat), (∀ e ∈ es, e.2.WellBuilt) →
    (∀ e ∈ es, ∀ k, f ⟨head, e.2, e.1⟩ = some k → SameEdge e (k.label, k.tail)) →
    (∀ e ∈ es, Spares f e.2) → Pool.Faithful memo →
    List.Forall₂ SameEdge es ((transformEdges f head es memo).run tag).1.1 ∧
      Pool.Faithful ((transformEdges f head es memo).run tag).1.2
  | [], memo, tag, _, _, _, hmemo => by
    rw [transformEdges]
    exact ⟨.nil, hmemo⟩
  | (l, d) :: rest, memo, tag, hes, hgiven, hspares, hmemo => by
    rw [transformEdges]
    obtain ⟨hd, hrest⟩ := List.forall_mem_cons.1 hes
    obtain ⟨hfirst, hgiven⟩ := List.forall_mem_cons.1 hgiven
    obtain ⟨hspare, hspares⟩ := List.forall_mem_cons.1 hspares
    split
    · rename_i k hk
      obtain ⟨hsame, hmemo'⟩ := transformEdges_same head rest tag hrest hgiven hspares hmemo
      exact ⟨.cons (hfirst k hk) hsame, hmemo'⟩
    · obtain ⟨himage, hmemo1⟩ := transformNode_same d tag hd hspare hmemo
      obtain ⟨hsame, hmemo2⟩ := transformEdges_same head rest _ hrest hgiven hspares hmemo1
      exact ⟨.cons (.of_tail BEq.rfl himage) hsame, hmemo2⟩

end

theorem transform_same [LawfulHashable V] [LawfulHashable E] (hd : d.WellBuilt) (hspares : Spares f d) (tag : Nat) :
    SameNode d ((transform f d).run tag).1 := by
  have hempty : Pool.Faithful (Memo.empty : Memo V E) := by simp [Pool.Faithful]
  exact (transformNode_same d tag hd hspares hempty).1

end Wiring.Dag
