import Wiring.Proofs.Dag.Replace
import Mathlib.Data.List.Perm.Basic

/-!
# Graphs that cannot be told apart

Nodes are equal as soon as each has an equal edge for every edge of the other, in whatever order.
Replacing equal nodes by equal nodes in equal graphs therefore gives equal graphs. The same is true
of the images of single nodes, also where one of the graphs has more roots than the other.
-/

namespace Wiring.Dag

variable {V E : Type}

/-! ## Edges in any order -/

theorem exists_perm_of_covers {α β : Type} {R : α → β → Prop} {as : List α} :
    ∀ {bs : List β}, as.Pairwise (fun a a' => ∀ b, R a b → ¬ R a' b) →
      bs.Pairwise (fun b b' => ∀ a, R a b → ¬ R a b') → (∀ a ∈ as, ∃ b ∈ bs, R a b) →
      (∀ b ∈ bs, ∃ a ∈ as, R a b) → ∃ cs, cs.Perm bs ∧ List.Forall₂ R as cs := by
  induction as with
  | nil =>
    intro bs _ _ _ hbs
    have hempty : bs = [] := List.eq_nil_iff_forall_not_mem.2 fun b hb => by
      obtain ⟨a, ha, _⟩ := hbs b hb
      cases ha
    exact ⟨[], hempty ▸ .nil, .nil⟩
  | cons a as ih =>
    intro bs has hbs hcov hcov'
    obtain ⟨b, hb, hab⟩ := hcov a List.mem_cons_self
    obtain ⟨left, right, rfl⟩ := List.append_of_mem hb
    rw [List.pairwise_cons] at has
    have hmiddle : ∀ x, x ∈ left ++ b :: right ↔ x = b ∨ x ∈ left ++ right := by
      intro x
      simp only [List.mem_append, List.mem_cons]
      tauto
    have hapart : ∀ x ∈ left ++ right, ∀ a', R a' b → ¬ R a' x := by
      intro x hx a' hb hx'
      obtain ⟨_, hright, hleft⟩ := List.pairwise_append.1 hbs
      rcases List.mem_append.1 hx with hx | hx
      · exact hleft x hx b List.mem_cons_self a' hx' hb
      · exact (List.pairwise_cons.1 hright).1 x hx a' hb hx'
    obtain ⟨cs, hperm, hcs⟩ := @ih (left ++ right) has.2
      (hbs.sublist (List.Sublist.append_left (List.sublist_cons_self b right) left))
      (fun a' ha' => by
        obtain ⟨x, hx, hax⟩ := hcov a' (List.mem_cons_of_mem a ha')
        rcases (hmiddle x).1 hx with rfl | hx
        · exact absurd hax (has.1 a' ha' x hab)
        · exact ⟨x, hx, hax⟩)
      (fun x hx => by
        obtain ⟨a', ha', hax⟩ := hcov' x ((hmiddle x).2 (.inr hx))
        rcases List.mem_cons.1 ha' with rfl | ha'
        · exact absurd hax (hapart x hx a' hab)
        · exact ⟨a', ha', hax⟩)
    exact ⟨b :: cs, (hperm.cons b).trans List.perm_middle.symm, .cons hab hcs⟩

variable [BEq V] [EquivBEq V] [Hashable V] [BEq E] [EquivBEq E] [Hashable E]
variable {a b x y : Dag V E} {e f g : E × Dag V E}

/-! ## Equal nodes and edges -/

structure SameNode (a b : Dag V E) : Prop where
  beq : (a == b) = true
  left : a.WellBuilt
  right : b.WellBuilt

namespace SameNode

theorem refl (ha : a.WellBuilt) : SameNode a a := ⟨same_refl a, ha, ha⟩

theorem symm (h : SameNode a b) : SameNode b a := ⟨beq_symm h.left h.beq, h.right, h.left⟩

theorem trans (h : SameNode a b) (h' : SameNode b x) : SameNode a x :=
  ⟨beq_trans h.beq h'.beq, h.left, h'.right⟩

theorem label (h : SameNode a b) : (a.label == b.label) = true := label_beq h.beq

theorem beq_congr (h : SameNode a b) (h' : SameNode x y) : (a == x) = (b == y) := by
  rw [Bool.eq_iff_iff]
  exact ⟨fun hax => beq_trans h.symm.beq (beq_trans hax h'.beq),
    fun hby => beq_trans h.beq (beq_trans hby h'.symm.beq)⟩

theorem reaches_congr (h : SameNode a b) (h' : SameNode x y) : a.reaches x = b.reaches y := by
  rw [Bool.eq_iff_iff]
  exact ⟨fun hr => reaches_of_beq (reaches_congr_left hr h.beq) h'.symm.beq,
    fun hr => reaches_of_beq (reaches_congr_left hr h.symm.beq) h'.beq⟩

end SameNode

namespace SameEdge

theorem label (h : SameEdge e f) : (e.1 == f.1) = true := ((edge_beq_iff e f).1 h.beq).1

theorem tail (h : SameEdge e f) : SameNode e.2 f.2 :=
  ⟨((edge_beq_iff e f).1 h.beq).2, h.left, h.right⟩

theorem of_tail (hl : (e.1 == f.1) = true) (h : SameNode e.2 f.2) : SameEdge e f :=
  ⟨(edge_beq_iff e f).2 ⟨hl, h.beq⟩, h.left, h.right⟩

theorem refl (he : e.2.WellBuilt) : SameEdge e e := of_tail BEq.rfl (.refl he)

theorem symm (h : SameEdge e f) : SameEdge f e := of_tail (BEq.symm h.label) h.tail.symm

theorem trans (h : SameEdge e f) (h' : SameEdge f g) : SameEdge e g :=
  of_tail (BEq.trans h.label h'.label) (h.tail.trans h'.tail)

end SameEdge

theorem SameNode.edge (h : SameNode a b) (he : e ∈ a.edges) : ∃ f ∈ b.edges, SameEdge e f := by
  obtain ⟨f, hf, hl, ht⟩ := edge_of_beq h.beq he
  exact ⟨f, hf, .of_tail hl ⟨ht, h.left.tail he, h.right.tail hf⟩⟩

theorem sameNode_merge [LawfulHashable V] [LawfulHashable E] {p : Pool V E}
    (hp : ∀ n ∈ p.nodes, n.WellBuilt) (ha : a.WellBuilt) (tag : Nat) :
    SameNode a ((p.merge a).run tag).1.1 := by
  obtain ⟨hbeq, hwell, -⟩ := Pool.merge_spec hp ha tag
  exact ⟨beq_symm hwell hbeq, ha, hwell⟩

variable {old old' new new' root root' : Dag V E} {m m' : Memo V E} {G : List (E × Dag V E)}
  {r r' : Dag V E × Memo V E}

/-- The second node has the edges of the first and those of `G`, and no others. -/
structure Includes (G : List (E × Dag V E)) (a b : Dag V E) : Prop where
  label : (a.label == b.label) = true
  left : a.WellBuilt
  right : b.WellBuilt
  edge : ∀ e ∈ a.edges ++ G, ∃ f ∈ b.edges, SameEdge e f
  origin : ∀ f ∈ b.edges, ∃ e ∈ a.edges ++ G, SameEdge e f

theorem Under.congr (h : Under a x) (hxy : SameNode x y) : Under a y := by
  obtain ⟨e, he, hx⟩ := h
  exact ⟨e, he, reaches_of_beq hx hxy.symm.beq⟩

theorem Includes.under (h : Includes G a b) (hxy : SameNode x y) (hx : a.Under x) : b.Under y := by
  obtain ⟨e, he, hex⟩ := hx
  obtain ⟨f, hf, hef⟩ := h.edge e (List.mem_append_left _ he)
  exact ⟨f, hf, hef.tail.reaches_congr hxy ▸ hex⟩

/-! ## Rebuilt nodes -/

theorem Rebuilt.edge_same (hm : Replacing old new m) (hb : Rebuilt m x b) (hw : b.WellBuilt)
    (hx : x.WellBuilt) (he : e ∈ x.edges) :
    ∃ f ∈ b.edges, (f.1 == e.1) = true ∧
      ∃ i ∈ m.images, SameNode i.1 e.2 ∧ SameNode f.2 i.2 := by
  obtain ⟨f, hf, hl, i, hi, hie, hfi⟩ := hb.edge e he
  exact ⟨f, hf, hl, i, hi, ⟨hie, hm.source i hi, hx.tail he⟩, hfi, hw.tail hf, hm.target i hi⟩

theorem Rebuilt.origin_same (hm : Replacing old new m) (hb : Rebuilt m x b) (hx : x.WellBuilt)
    (hf : f ∈ b.edges) :
    ∃ e ∈ x.edges, f.1 = e.1 ∧ ∃ i ∈ m.images, SameNode i.1 e.2 ∧ i.2 = f.2 := by
  obtain ⟨e, he, hl, i, hi, hie, hif⟩ := hb.origin f hf
  exact ⟨e, he, hl, i, hi, ⟨hie, hm.source i hi, hx.tail he⟩, hif⟩

theorem Rebuilt.covers {a' b' : Dag V E} (hm : Replacing old new m) (hm' : Replacing old' new' m')
    (ha : Rebuilt m a a') (hb : Rebuilt m' b b') (haw : a.WellBuilt) (hbw : b.WellBuilt)
    (hbw' : b'.WellBuilt) (hedges : ∀ e ∈ a.edges, ∃ f ∈ b.edges, SameEdge e f)
    (himages : ∀ e ∈ a.edges, ∀ i ∈ m.images, ∀ j ∈ m'.images, SameNode i.1 e.2 →
      SameNode j.1 e.2 → SameNode i.2 j.2) :
    ∀ f ∈ a'.edges, ∃ g ∈ b'.edges, SameEdge f g := by
  intro f hf
  obtain ⟨e, he, hfe, i, hi, hie, hif⟩ := ha.origin_same hm haw hf
  obtain ⟨e', he', hee⟩ := hedges e he
  obtain ⟨g, hg, hge, j, hj, hje, hgj⟩ := hb.edge_same hm' hbw' hbw he'
  have hij := himages e he i hi j hj hie (hje.trans hee.tail.symm)
  refine ⟨g, hg, .of_tail ?_ ((hif ▸ hij).trans hgj.symm)⟩
  rw [hfe]
  exact BEq.trans hee.label (BEq.symm hge)

theorem NodeReplaced.moved_same (h : NodeReplaced old new root .empty r) (hef : SameEdge e f) :
    SameEdge (e.1, r.2.imageOf e.2) (f.1, r.2.imageOf f.2) :=
  .of_tail hef.label ⟨Memo.imageOf_congr hef.left hef.tail.beq, h.imageOf_wellBuilt hef.left,
    h.imageOf_wellBuilt hef.right⟩

structure RootEdges (m : Memo V E) (a b : Dag V E) : Prop where
  label : (a.label == b.label) = true
  edge : ∀ e ∈ a.edges, ∃ f ∈ b.edges, SameEdge (e.1, m.imageOf e.2) f
  origin : ∀ f ∈ b.edges, ∃ e ∈ a.edges, SameEdge (e.1, m.imageOf e.2) f

theorem NodeReplaced.root_edges (h : NodeReplaced old new a .empty r) (ha : a.WellBuilt)
    (hunder : a.Under old) : RootEdges r.2 a r.1 := by
  have hw := h.wellBuilt
  obtain ⟨⟨c, c'⟩, hi, hca, hcr⟩ := h.image
  have hsame : SameNode c a := ⟨hca, h.replacing.source _ hi, ha⟩
  have hrebuilt : Rebuilt r.2 c r.1 := by
    cases h.replacing.image _ hi with
    | replaced hc =>
      have hne := hunder.not_beq
      simp [beq_trans hsame.symm.beq hc] at hne
    | kept hc => simp [reaches_congr_left hunder.reaches hsame.symm.beq] at hc
    | rebuilt _ _ hc => exact hcr ▸ hc
  have himage : ∀ i ∈ r.2.images, ∀ {x y : Dag V E}, SameNode i.1 x → SameNode x y →
      SameNode (r.2.imageOf y) i.2 := by
    intro i hi x y hix hxy
    rw [h.replacing.imageOf_eq hi (hix.trans hxy).beq]
    exact .refl (h.replacing.target i hi)
  refine ⟨?_, fun e he => ?_, fun f hf => ?_⟩
  · rw [hrebuilt.label]
    exact hsame.symm.label
  · obtain ⟨e', he', hee⟩ := hsame.symm.edge he
    obtain ⟨f, hf, hl, i, hi, hie, hfi⟩ := hrebuilt.edge_same h.replacing hw hsame.left he'
    exact ⟨f, hf, .of_tail (BEq.trans hee.label (BEq.symm hl))
      ((himage i hi hie hee.tail.symm).trans hfi.symm)⟩
  · obtain ⟨e', he', hl, i, hi, hie, hif⟩ := hrebuilt.origin_same h.replacing hsame.left hf
    obtain ⟨e, he, hee⟩ := hsame.edge he'
    refine ⟨e, he, .of_tail ?_ (hif ▸ himage i hi hie hee.tail)⟩
    rw [hl]
    exact BEq.symm hee.label

section Covers

variable [LawfulHashable V] [LawfulHashable E]

omit [BEq V] [EquivBEq V] [BEq E] [EquivBEq E] [LawfulHashable V] [LawfulHashable E] in
theorem digest_perm {l : V} {es fs : List (E × Dag V E)} (h : es.Perm fs) :
    (⟨l, es⟩ : Draft V E).digest = (⟨l, fs⟩ : Draft V E).digest := by
  have hcomm : RightCommutative
      fun (sum : UInt64) (e : E × Dag V E) => sum + Digest.mix (hash e.1) e.2.digest := by
    refine ⟨fun n e f => ?_⟩
    rw [UInt64.add_assoc, UInt64.add_comm (Digest.mix _ _), ← UInt64.add_assoc]
  unfold Draft.digest
  rw [h.foldl_eq, h.length_eq]

theorem sameNode_of_covers (ha : a.WellBuilt) (hb : b.WellBuilt)
    (hl : (a.label == b.label) = true) (hab : ∀ e ∈ a.edges, ∃ f ∈ b.edges, SameEdge e f)
    (hba : ∀ f ∈ b.edges, ∃ e ∈ a.edges, SameEdge e f) : SameNode a b := by
  have hsep : a.edges.Pairwise fun e e' => ∀ f, SameEdge e f → ¬ SameEdge e' f := by
    refine ha.distinct.imp fun {e e'} hne f h h' => ?_
    rw [(h.trans h'.symm).beq] at hne
    cases hne
  have hsep' : b.edges.Pairwise fun f f' => ∀ e, SameEdge e f → ¬ SameEdge e f' := by
    refine hb.distinct.imp fun {f f'} hne e h h' => ?_
    rw [(h.symm.trans h').beq] at hne
    cases hne
  obtain ⟨cs, hperm, hcs⟩ := exists_perm_of_covers hsep hsep' hab hba
  have hdigest : a.digest = b.digest := by
    rw [ha.digest_eq, hb.digest_eq, digest_congr hl (hcs.imp fun _ _ h => h.beq),
      digest_perm hperm]
  refine ⟨beq_iff.2 ⟨hdigest, hcs.length_eq.trans hperm.length_eq, hl, fun e he => ?_⟩, ha, hb⟩
  obtain ⟨f, hf, h⟩ := hab e he
  exact ⟨f, hf, h.beq⟩

theorem Includes.same (h : Includes [] a b) : SameNode a b := by
  obtain ⟨hl, ha, hb, hedge, horigin⟩ := h
  rw [List.append_nil] at hedge horigin
  exact sameNode_of_covers ha hb hl hedge horigin

/-! ## Equal images -/

/-- A node that is replaced by an equal one, and then every node is. -/
theorem Replacing.identity (hm : Replacing old new m) (hnew : SameNode old new) (x : Dag V E) :
    ∀ i ∈ m.images, SameNode i.1 x → SameNode x i.2 := by
  induction x using induction with
  | step x ih =>
    rintro ⟨a, a'⟩ hi hax
    cases hm.image _ hi with
    | replaced ha => exact hax.symm.trans (SameNode.trans ⟨ha, hax.left, hnew.left⟩ hnew)
    | kept _ => exact hax.symm
    | rebuilt _ _ ha =>
      have ha' := hm.target _ hi
      refine sameNode_of_covers hax.right ha' ?_ (fun e he => ?_) fun f hf => ?_
      · rw [ha.label]
        exact hax.symm.label
      · obtain ⟨ea, hea, heea⟩ := hax.symm.edge he
        obtain ⟨f, hf, hl, k, hk, hka, hfk⟩ := ha.edge_same hm ha' hax.left hea
        refine ⟨f, hf, .of_tail (BEq.trans heea.label (BEq.symm hl)) ?_⟩
        exact (ih e he k hk (hka.trans heea.tail.symm)).trans hfk.symm
      · obtain ⟨ea, hea, hl, k, hk, hka, hkf⟩ := ha.origin_same hm hax.left hf
        obtain ⟨e, he, heea⟩ := hax.edge hea
        refine ⟨e, he, .of_tail ?_ (hkf ▸ ih e he k hk (hka.trans heea.tail))⟩
        rw [hl]
        exact BEq.symm heea.label

theorem NodeReplaced.imageOf_identity (h : NodeReplaced old new root .empty r)
    (hnew : SameNode old new) (hx : x.WellBuilt) : SameNode x (r.2.imageOf x) := by
  rcases r.2.imageOf_cases x with ⟨i, hi, hix, he⟩ | ⟨_, he⟩
  · rw [he]
    exact h.replacing.identity hnew x i hi ⟨hix, h.replacing.source i hi, hx⟩
  · rw [he]
    exact .refl hx

section Congruence

variable (hold : SameNode old old') (hnew : SameNode new new')
include hold hnew

theorem Replacing.same (hm : Replacing old new m) (hm' : Replacing old' new' m') (x : Dag V E) :
    ∀ i ∈ m.images, ∀ j ∈ m'.images, SameNode i.1 x → SameNode j.1 x → SameNode i.2 j.2 := by
  induction x using induction with
  | step x ih =>
    rintro ⟨a, a'⟩ hi ⟨b, b'⟩ hj hax hbx
    have hab : SameNode a b := hax.trans hbx.symm
    have hreplaced : (a == old) = (b == old') := hab.beq_congr hold
    have hreaches : a.reaches old = b.reaches old' := hab.reaches_congr hold
    have hself : ∀ {d o : Dag V E}, d.WellBuilt → (d == o) = true → d.reaches o = true :=
      fun hd hdo => reaches_iff.2 ⟨_, .self _, beq_symm hd hdo⟩
    cases hm.image _ hi with
    | replaced ha =>
      cases hm'.image _ hj with
      | replaced _ => exact hnew
      | kept hb => simp [← hreaches, hself hax.left ha] at hb
      | rebuilt hb _ _ => simp [← hreplaced, ha] at hb
    | kept ha =>
      cases hm'.image _ hj with
      | replaced hb => simp [hreaches, hself hbx.left hb] at ha
      | kept _ => exact hab
      | rebuilt _ hb _ => simp [hreaches, hb] at ha
    | rebuilt hne hlead ha =>
      cases hm'.image _ hj with
      | replaced hb => simp [hreplaced, hb] at hne
      | kept hb => simp [← hreaches, hlead] at hb
      | rebuilt _ _ hb =>
        have ha' := hm.target _ hi
        have hb' := hm'.target _ hj
        refine sameNode_of_covers ha' hb' ?_ ?_ fun f hf => ?_
        · rw [ha.label, hb.label]
          exact hab.label
        · refine ha.covers hm hm' hb hax.left hbx.left hb' (fun e he => hab.edge he)
            fun e he k hk l hl hke hle => ?_
          obtain ⟨ex, hex, heex⟩ := hax.edge he
          exact ih ex hex k hk l hl (hke.trans heex.tail) (hle.trans heex.tail)
        · obtain ⟨g, hg, hfg⟩ := hb.covers hm' hm ha hbx.left hax.left ha'
            (fun e he => hab.symm.edge he) (fun e he k hk l hl hke hle => by
              obtain ⟨ex, hex, heex⟩ := hbx.edge he
              exact (ih ex hex l hl k hk (hle.trans heex.tail) (hke.trans heex.tail)).symm) f hf
          exact ⟨g, hg, hfg.symm⟩

variable (h : NodeReplaced old new a .empty r) (h' : NodeReplaced old' new' b .empty r')
include h h'

theorem NodeReplaced.imageOf_same (ha : a.WellBuilt) (hb : b.WellBuilt) (hxy : SameNode x y)
    (hreach : x.reaches old = true → a.reaches x = b.reaches y) :
    SameNode (r.2.imageOf x) (r'.2.imageOf y) := by
  have hlead : x.reaches old = y.reaches old' := hxy.reaches_congr hold
  by_cases hx : x.reaches old = true
  · by_cases hax : a.reaches x = true
    · obtain ⟨z, hz, hxz⟩ := reaches_iff.1 hax
      obtain ⟨i, hi, hiz⟩ := h.met ha hz (reaches_congr_left hx hxz)
      have hix := beq_trans hiz (beq_symm hxy.left hxz)
      obtain ⟨z', hz', hyz⟩ := reaches_iff.1 (hreach hx ▸ hax)
      obtain ⟨j, hj, hjz⟩ := h'.met hb hz' (reaches_congr_left (hlead ▸ hx) hyz)
      have hjy := beq_trans hjz (beq_symm hxy.right hyz)
      rw [h.replacing.imageOf_eq hi hix, h'.replacing.imageOf_eq hj hjy]
      exact h.replacing.same hold hnew h'.replacing x i hi j hj
        ⟨hix, h.replacing.source i hi, hxy.left⟩
        (SameNode.trans ⟨hjy, h'.replacing.source j hj, hxy.right⟩ hxy.symm)
    · rw [Bool.not_eq_true] at hax
      rw [h.imageOf_absent hax, h'.imageOf_absent (hreach hx ▸ hax)]
      exact hxy
  · have hy : y.reaches old' = false := by
      rw [← hlead]
      simpa using hx
    refine ⟨?_, h.imageOf_wellBuilt hxy.left, h'.imageOf_wellBuilt hxy.right⟩
    exact beq_trans (h.imageOf_kept (by simpa using hx))
      (beq_trans hxy.beq (beq_symm (h'.imageOf_wellBuilt hxy.right) (h'.imageOf_kept hy)))

/-- Edges that the replacement keeps make no difference to what it does to the others. -/
theorem Includes.image (hinc : Includes G a b) (hunder : a.Under old)
    (hkept : ∀ g ∈ G, SameNode g.2 (r'.2.imageOf g.2)) : Includes G r.1 r'.1 := by
  have ha := h.root_edges hinc.left hunder
  have hb := h'.root_edges hinc.right (hinc.under hold hunder)
  -- What became of an edge in the one graph is what became of it in the other.
  have himage : ∀ e ∈ a.edges, ∀ f ∈ b.edges, SameEdge e f →
      SameEdge (e.1, r.2.imageOf e.2) (f.1, r'.2.imageOf f.2) := by
    intro e he f hf hef
    refine .of_tail hef.label
      (h.imageOf_same hold hnew h' hinc.left hinc.right hef.tail fun _ => ?_)
    rw [reaches_of_edge he (Has.self _).reaches, reaches_of_edge hf (Has.self _).reaches]
  have hextra : ∀ g ∈ G, ∀ f ∈ b.edges, SameEdge g f → SameEdge g (f.1, r'.2.imageOf f.2) := by
    intro g hg f hf hgf
    exact .of_tail hgf.label ((hkept g hg).trans (h'.moved_same hgf).tail)
  refine ⟨?_, h.wellBuilt, h'.wellBuilt, fun e he => ?_, fun f hf => ?_⟩
  · exact BEq.trans (BEq.symm ha.label) (BEq.trans hinc.label hb.label)
  · rcases List.mem_append.1 he with he | he
    · obtain ⟨e₀, he₀, hee⟩ := ha.origin e he
      obtain ⟨f₀, hf₀, hef⟩ := hinc.edge e₀ (List.mem_append_left _ he₀)
      obtain ⟨f, hf, hff⟩ := hb.edge f₀ hf₀
      exact ⟨f, hf, hee.symm.trans ((himage e₀ he₀ f₀ hf₀ hef).trans hff)⟩
    · obtain ⟨f₀, hf₀, hef⟩ := hinc.edge e (List.mem_append_right _ he)
      obtain ⟨f, hf, hff⟩ := hb.edge f₀ hf₀
      exact ⟨f, hf, (hextra e he f₀ hf₀ hef).trans hff⟩
  · obtain ⟨f₀, hf₀, hff⟩ := hb.origin f hf
    obtain ⟨e₀, he₀, hef⟩ := hinc.origin f₀ hf₀
    rcases List.mem_append.1 he₀ with he₀ | he₀
    · obtain ⟨e, he, hee⟩ := ha.edge e₀ he₀
      exact ⟨e, List.mem_append_left _ he,
        hee.symm.trans ((himage e₀ he₀ f₀ hf₀ hef).trans hff)⟩
    · exact ⟨e₀, List.mem_append_right _ he₀, (hextra e₀ he₀ f₀ hf₀ hef).trans hff⟩

end Congruence

end Covers

end Wiring.Dag
