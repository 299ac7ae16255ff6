import Wiring.Dag.Replace
import Wiring.Proofs.Dag.Merge

/-!
# What replacing a node does

After a replacement the memo tells for every node that was met what became of it: it is the node
that was replaced, it does not lead to that node and was kept, or it was rebuilt over the images of
its tails. From that follows which nodes the new graph has, and where the old ones went.
-/

namespace Wiring.Dag

variable {V E : Type}

section Grows

variable {d b : Dag V E} {m n : Memo V E}

structure Memo.Grows (below above : Dag V E → Prop) (m n : Memo V E) : Prop where
  keeps : ∀ i ∈ m.images, i ∈ n.images
  adds : ∀ i ∈ n.images, i ∈ m.images ∨ below i.1 ∧ above i.2

theorem Memo.Grows.refl (below above : Dag V E → Prop) (m : Memo V E) : m.Grows below above m :=
  ⟨fun _ hi => hi, fun _ hi => .inl hi⟩

theorem Memo.Grows.mono {below above below' above' : Dag V E → Prop}
    (h : Memo.Grows below above m n) (hb : ∀ x, below x → below' x)
    (ha : ∀ x, above x → above' x) : Memo.Grows below' above' m n :=
  ⟨h.keeps, fun i hi => (h.adds i hi).imp_right fun ⟨h1, h2⟩ => ⟨hb _ h1, ha _ h2⟩⟩

theorem Memo.Grows.insert {below above : Dag V E → Prop} (h : Memo.Grows below above m n)
    (hd : below d) (hb : above b) : Memo.Grows below above m (n.insert d b) := by
  refine ⟨fun i hi => List.mem_cons_of_mem _ (h.keeps i hi), fun i hi => ?_⟩
  rcases List.mem_cons.1 hi with rfl | hi
  · exact .inr ⟨hd, hb⟩
  · exact h.adds i hi

end Grows

variable [BEq V] [EquivBEq V] [Hashable V] [BEq E] [EquivBEq E] [Hashable E]

structure Rebuilt (m : Memo V E) (d b : Dag V E) : Prop where
  label : b.label = d.label
  edge : ∀ e ∈ d.edges, ∃ f ∈ b.edges, (f.1 == e.1) = true ∧
    ∃ i ∈ m.images, (i.1 == e.2) = true ∧ (f.2 == i.2) = true
  origin : ∀ f ∈ b.edges, ∃ e ∈ d.edges, f.1 = e.1 ∧
    ∃ i ∈ m.images, (i.1 == e.2) = true ∧ i.2 = f.2

inductive Image (old new : Dag V E) (m : Memo V E) : Dag V E → Dag V E → Prop
  | replaced {d : Dag V E} : (d == old) = true → Image old new m d new
  | kept {d : Dag V E} : d.reaches old = false → Image old new m d d
  | rebuilt {d b : Dag V E} : (d == old) = false → d.reaches old = true → Rebuilt m d b →
      Image old new m d b

variable {old new d b x y root root' : Dag V E} {m n : Memo V E}

omit [Hashable V] [Hashable E] in
theorem Image.mono (h : Image old new m d b) (hmn : ∀ i ∈ m.images, i ∈ n.images) :
    Image old new n d b := by
  cases h with
  | replaced h => exact .replaced h
  | kept h => exact .kept h
  | rebuilt hne hold h =>
    refine .rebuilt hne hold ⟨h.label, fun e he => ?_, fun f hf => ?_⟩
    · obtain ⟨f, hf, hfe, i, hi, h⟩ := h.edge e he
      exact ⟨f, hf, hfe, i, hmn i hi, h⟩
    · obtain ⟨e, he, hfe, i, hi, h⟩ := h.origin f hf
      exact ⟨e, he, hfe, i, hmn i hi, h⟩

structure Replacing (old new : Dag V E) (m : Memo V E) : Prop where
  image : ∀ i ∈ m.images, Image old new m i.1 i.2
  source : ∀ i ∈ m.images, i.1.WellBuilt
  target : ∀ i ∈ m.images, i.2.WellBuilt
  single : m.images.Pairwise fun i j => (i.1 == j.1) = false

theorem replacing_empty : Replacing old new .empty := ⟨by simp, by simp, by simp, .nil⟩

theorem Replacing.insert (h : Replacing old new m) (hi : Image old new m d b) (hd : d.WellBuilt)
    (hb : b.WellBuilt) (hnew : ∀ i ∈ m.images, (d == i.1) = false) :
    Replacing old new (m.insert d b) := by
  have hsub : ∀ i ∈ m.images, i ∈ (m.insert d b).images := by simp +contextual
  refine ⟨fun i hmem => ?_, fun i hmem => ?_, fun i hmem => ?_, ?_⟩
  · rcases List.mem_cons.1 hmem with rfl | hmem
    · exact hi.mono hsub
    · exact (h.image i hmem).mono hsub
  · rcases List.mem_cons.1 hmem with rfl | hmem
    · exact hd
    · exact h.source i hmem
  · rcases List.mem_cons.1 hmem with rfl | hmem
    · exact hb
    · exact h.target i hmem
  · exact List.pairwise_cons.2 ⟨hnew, h.single⟩

theorem Replacing.imageOf_eq (h : Replacing old new m) {i : Dag V E × Dag V E}
    (hi : i ∈ m.images) (hx : (i.1 == x) = true) : m.imageOf x = i.2 := by
  -- Two members of the memo for one node are the same.
  have hsep : ∀ j ∈ m.images, (j.1 == i.1) = true → j = i := by
    have hpair := h.single.imp_of_mem (S := fun i j => (i.1 == j.1) = true → i = j)
      fun _ _ hne he => by simp [hne] at he
    have hflip := h.single.imp_of_mem (S := fun i j => (j.1 == i.1) = true → j = i)
      fun ha _ hne he => by
        have := beq_symm (h.source _ ‹_›) he
        simp [hne] at this
    intro j hj hji
    exact hpair.forall_of_forall_of_flip (fun _ _ _ => rfl) hflip hj hi hji
  rcases m.imageOf_cases x with ⟨j, hj, hjx, he⟩ | ⟨hnone, _⟩
  · rw [he, hsep j hj (beq_trans hjx (beq_symm (h.source i hi) hx))]
  · simp [hnone i hi] at hx

/-! ## The walk -/

def TailImage (m : Memo V E) (e f : E × Dag V E) : Prop :=
  f.1 = e.1 ∧ ∃ i ∈ m.images, (i.1 == e.2) = true ∧ i.2 = f.2

theorem rebuilt_build {l : V} {es fs : List (E × Dag V E)} {t : Nat} {digest : UInt64} {tag : Nat}
    (hfs : List.Forall₂ (TailImage m) es fs) :
    Rebuilt m (node t digest l es) ((((Draft.ofLabel l).addEdges fs).build).run tag).1 := by
  refine ⟨Draft.label_addEdges _ _, fun e he => ?_, fun f hf => ?_⟩
  · obtain ⟨f, hf, hl, i, hi, hie, hif⟩ := exists_of_forall₂ hfs e he
    obtain ⟨g, hg, hgl, hgt⟩ := Draft.exists_addEdges (Draft.ofLabel l) hf
    exact ⟨g, hg, hl ▸ hgl, i, hi, hie, hif ▸ hgt⟩
  · rcases Draft.mem_addEdges hf with hf | hf
    · simp at hf
    · obtain ⟨e, he, hl, i, hi, hie, hif⟩ := exists_of_forall₂ hfs.flip f hf
      exact ⟨e, he, hl, i, hi, hie, hif⟩

structure NodeReplaced (old new d : Dag V E) (m : Memo V E) (r : Dag V E × Memo V E) : Prop where
  replacing : Replacing old new r.2
  grows : Memo.Grows d.Has (fun b => r.1.reaches b = true) m r.2
  image : ∃ i ∈ r.2.images, (i.1 == d) = true ∧ i.2 = r.1

structure TailsReplaced (old new : Dag V E) (es : List (E × Dag V E)) (m : Memo V E)
    (r : List (E × Dag V E) × Memo V E) : Prop where
  replacing : Replacing old new r.2
  grows : Memo.Grows (fun x => ∃ e ∈ es, e.2.Has x)
    (fun b => ∃ f ∈ r.1, f.2.reaches b = true) m r.2
  images : List.Forall₂ (TailImage r.2) es r.1

theorem NodeReplaced.of_insert (h : Replacing old new n) (hd : d.WellBuilt) (hb : b.WellBuilt)
    (hi : Image old new n d b) (hnew : ∀ i ∈ n.images, (d == i.1) = false)
    (hg : Memo.Grows d.Has (fun x => b.reaches x = true) m n) :
    NodeReplaced old new d m (b, n.insert d b) :=
  ⟨h.insert hi hd hb hnew, hg.insert (.self d) (Has.self b).reaches, (d, b), by simp, same_refl d,
    rfl⟩

theorem TailsReplaced.wellBuilt {l : V} {es : List (E × Dag V E)}
    {r : List (E × Dag V E) × Memo V E} (h : TailsReplaced old new es m r) :
    ((Draft.ofLabel l).addEdges r.1).Ready := by
  refine (Draft.ready_ofLabel l).addEdges fun f hf => ?_
  obtain ⟨_, _, _, i, hi, _, hif⟩ := exists_of_forall₂ h.images.flip f hf
  exact hif ▸ h.replacing.target i hi

theorem Memo.fresh_of_get?_eq_none (hd : d.WellBuilt) (hn : m.get? d = none) :
    ∀ i ∈ m.images, (d == i.1) = false := by
  intro i hi
  rw [Bool.eq_false_iff]
  intro hdi
  have := Memo.get?_eq_none hn i hi
  simp [beq_symm hd hdi] at this

mutual

theorem replaceNode_spec (hnew : new.WellBuilt) : ∀ (d : Dag V E) {m : Memo V E},
    Replacing old new m → d.WellBuilt → ∀ tag : Nat,
      NodeReplaced old new d m ((replaceNode old new d m).run tag).1
  | node _ _ l es, m, hm, hd, tag => by
    rw [replaceNode]
    cases hget : m.get? _ with
    | some image => exact ⟨hm, .refl _ _ _, Memo.exists_of_get? hget⟩
    | none =>
      have hfresh := Memo.fresh_of_get?_eq_none hd hget
      dsimp only
      split
      · rename_i heq
        exact .of_insert hm hd hnew (.replaced heq) hfresh (.refl _ _ _)
      · rename_i hne
        split
        · rename_i hnot
          exact .of_insert hm hd hd (.kept (by simpa using hnot)) hfresh (.refl _ _ _)
        · rename_i hold
          have htails := replaceTails_spec hnew es hm (fun e he => hd.tail he) tag
          refine .of_insert htails.replacing hd ?_
            (.rebuilt (by simpa using hne) (by simpa using hold) (rebuilt_build htails.images))
            ?_ ?_
          · exact htails.wellBuilt.build _
          · intro i hi
            rcases htails.grows.adds i hi with hi | ⟨⟨e, he, hei⟩, _⟩
            · exact hfresh i hi
            · exact beq_below he hei
          · refine htails.grows.mono (fun x ⟨e, he, hx⟩ => .step he hx) fun x ⟨f, hf, hx⟩ => ?_
            obtain ⟨g, hg, _, hgf⟩ := Draft.exists_addEdges (Draft.ofLabel l) hf
            have hfg := beq_symm (htails.wellBuilt.tails g hg) hgf
            exact reaches_of_edge hg (reaches_congr_left hx hfg)

theorem replaceTails_spec (hnew : new.WellBuilt) : ∀ (es : List (E × Dag V E)) {m : Memo V E},
    Replacing old new m → (∀ e ∈ es, e.2.WellBuilt) → ∀ tag : Nat,
      TailsReplaced old new es m ((replaceTails old new es m).run tag).1
  | [], m, hm, _, tag => by
    rw [replaceTails]
    exact ⟨hm, .refl _ _ _, .nil⟩
  | (l, d) :: rest, m, hm, hes, tag => by
    rw [replaceTails]
    have hnode := replaceNode_spec hnew d hm (hes (l, d) (by simp)) tag
    have hrest := replaceTails_spec hnew rest hnode.replacing (fun e he => hes e (by simp [he]))
      ((replaceNode old new d m).run tag).2
    refine ⟨hrest.replacing, ⟨fun i hi => hrest.grows.keeps i (hnode.grows.keeps i hi), ?_⟩, ?_⟩
    · intro i hi
      rcases hrest.grows.adds i hi with hi | ⟨⟨e, he, hx⟩, f, hf, hb⟩
      · rcases hnode.grows.adds i hi with hi | ⟨hx, hb⟩
        · exact .inl hi
        · exact .inr ⟨⟨(l, d), by simp, hx⟩, _, List.mem_cons_self, hb⟩
      · exact .inr ⟨⟨e, by simp [he], hx⟩, f, List.mem_cons_of_mem _ hf, hb⟩
    · obtain ⟨i, hi, hid, hib⟩ := hnode.image
      exact .cons ⟨rfl, i, hrest.grows.keeps i hi, hid, hib⟩ hrest.images

end

/-! ## The new graph -/

theorem replaceNode_root (hroot : root.WellBuilt) (hnew : new.WellBuilt) (tag : Nat) :
    NodeReplaced old new root .empty ((replaceNode old new root .empty).run tag).1 :=
  replaceNode_spec hnew root replacing_empty hroot tag

namespace NodeReplaced

variable {r : Dag V E × Memo V E} (h : NodeReplaced old new root .empty r)
include h

theorem has_source {i : Dag V E × Dag V E} (hi : i ∈ r.2.images) : root.Has i.1 := by
  rcases h.grows.adds i hi with hi | hi
  · simp at hi
  · exact hi.1

theorem wellBuilt : r.1.WellBuilt := by
  obtain ⟨i, hi, _, hir⟩ := h.image
  exact hir ▸ h.replacing.target i hi

theorem imageOf_root : r.2.imageOf root = r.1 := by
  obtain ⟨i, hi, hir, he⟩ := h.image
  rw [h.replacing.imageOf_eq hi hir, he]

theorem imageOf_wellBuilt (hx : x.WellBuilt) : (r.2.imageOf x).WellBuilt := by
  rcases r.2.imageOf_cases x with ⟨i, hi, _, he⟩ | ⟨_, he⟩
  · rw [he]
    exact h.replacing.target i hi
  · rw [he]
    exact hx

theorem imageOf_absent (hroot : root.reaches x = false) :
    r.2.imageOf x = x := by
  rcases r.2.imageOf_cases x with ⟨i, hi, hix, _⟩ | ⟨_, he⟩
  · have hxi := beq_symm (h.replacing.source i hi) hix
    rw [reaches_iff.2 ⟨i.1, h.has_source hi, hxi⟩] at hroot
    cases hroot
  · exact he

theorem image_has_cases {i : Dag V E × Dag V E} (hi : i ∈ r.2.images) (hy : i.2.Has y) :
    (∃ x, root.Has x ∧ (x == old) = false ∧ x.reaches old = true ∧ r.2.imageOf x = y ∧
      Rebuilt r.2 x y) ∨ new.Has y ∨
      root.Has y ∧ y.reaches old = false := by
  obtain ⟨x, d⟩ := i
  dsimp only at hy
  induction hy generalizing x with
  | self d =>
    have hx := h.has_source hi
    cases h.replacing.image _ hi with
    | replaced _ => exact .inr (.inl (.self _))
    | kept hk => exact .inr (.inr ⟨hx, hk⟩)
    | rebuilt hne hold hb =>
      exact .inl ⟨x, hx, hne, hold, h.replacing.imageOf_eq hi (same_refl x), hb⟩
  | step he hx ih =>
    cases h.replacing.image _ hi with
    | replaced _ => exact .inr (.inl (.step he hx))
    | kept hk =>
      refine .inr (.inr ⟨(h.has_source hi).trans (.step he hx), ?_⟩)
      rw [Bool.eq_false_iff] at hk ⊢
      exact fun hold => hk (reaches_of_has (.step he hx) hold)
    | rebuilt _ _ hb =>
      obtain ⟨_, _, _, j, hj, _, hjt⟩ := hb.origin _ he
      exact ih j.1 (hjt ▸ hj)

theorem has_cases (hy : r.1.Has y) :
    (∃ x, root.Has x ∧ (x == old) = false ∧ x.reaches old = true ∧ r.2.imageOf x = y ∧
      Rebuilt r.2 x y) ∨ new.Has y ∨
      root.Has y ∧ y.reaches old = false := by
  obtain ⟨i, hi, _, hir⟩ := h.image
  exact h.image_has_cases hi (hir ▸ hy)

theorem met (hroot : root.WellBuilt) (hx : root.Has x) (hold : x.reaches old = true) :
    ∃ i ∈ r.2.images, (i.1 == x) = true := by
  have key : ∀ d x : Dag V E, d.Has x → d.WellBuilt → x.reaches old = true →
      (∃ i ∈ r.2.images, (i.1 == d) = true) → ∃ i ∈ r.2.images, (i.1 == x) = true := by
    intro d x hdx
    induction hdx with
    | self d => exact fun _ _ hd => hd
    | @step d x e he hx ih =>
      rintro hd hold ⟨⟨a, b⟩, hi, had⟩
      have hda := beq_symm (h.replacing.source _ hi) had
      have hd' : d.reaches old = true := reaches_of_edge he (reaches_of_has hx hold)
      refine ih (hd.tail he) hold ?_
      cases h.replacing.image _ hi with
      | replaced ha =>
        rw [reaches_below (beq_trans hda ha) he hx] at hold
        cases hold
      | kept ha => simp [reaches_congr_left hd' hda] at ha
      | rebuilt _ _ hb =>
        obtain ⟨g, hg, _, heg⟩ := edge_of_beq hda he
        obtain ⟨_, _, _, j, hj, hjg, _⟩ := hb.edge g hg
        exact ⟨j, hj, beq_trans hjg (beq_symm (hd.tail he) heg)⟩
  obtain ⟨i, hi, hir, _⟩ := h.image
  exact key root x hx hroot hold ⟨i, hi, hir⟩

theorem imageOf_old (hroot : root.WellBuilt) (hold : old.WellBuilt)
    (hr : root.reaches old = true) : r.2.imageOf old = new := by
  obtain ⟨x, hx, hxo⟩ := reaches_iff.1 hr
  obtain ⟨⟨d, b⟩, hi, hdx⟩ := h.met hroot hx (reaches_iff.2 ⟨x, .self x, hxo⟩)
  have hdo := beq_trans hdx (beq_symm hold hxo)
  rw [h.replacing.imageOf_eq hi hdo]
  cases h.replacing.image _ hi with
  | replaced _ => rfl
  | kept hk => simp [reaches_iff.2 ⟨d, .self d, beq_symm (h.replacing.source _ hi) hdo⟩] at hk
  | rebuilt hne _ _ => simp [hdo] at hne

theorem imageOf_kept (hx : x.reaches old = false) : (r.2.imageOf x == x) = true := by
  rw [Bool.eq_false_iff] at hx
  rcases r.2.imageOf_cases x with ⟨⟨d, b⟩, hi, hdx, he⟩ | ⟨_, he⟩
  · rw [he]
    cases h.replacing.image _ hi with
    | replaced hd =>
      have hold := beq_trans (beq_symm (h.replacing.source _ hi) hd) hdx
      exact absurd (reaches_iff.2 ⟨x, .self x, hold⟩) hx
    | kept _ => exact hdx
    | rebuilt _ hold _ => exact absurd (reaches_congr_left hold hdx) hx
  · rw [he]
    exact same_refl x

theorem imageOf_label (hl : (old.label == new.label) = true) (x : Dag V E) :
    (x.label == (r.2.imageOf x).label) = true := by
  rcases r.2.imageOf_cases x with ⟨⟨d, b⟩, hi, hdx, he⟩ | ⟨_, he⟩
  · rw [he]
    have hxd := BEq.symm (label_beq hdx)
    cases h.replacing.image _ hi with
    | replaced hd => exact BEq.trans hxd (BEq.trans (label_beq hd) hl)
    | kept _ => exact hxd
    | rebuilt _ _ hb => rw [hb.label]; exact hxd
  · rw [he]
    exact BEq.rfl

theorem imageOf_edges (hne : (x == old) = false) {e : E × Dag V E} (he : e ∈ x.edges) :
    ∃ f ∈ (r.2.imageOf x).edges, (f.1 == e.1) = true := by
  rcases r.2.imageOf_cases x with ⟨⟨d, b⟩, hi, hdx, himage⟩ | ⟨_, himage⟩
  · rw [himage]
    have hxd := beq_symm (h.replacing.source _ hi) hdx
    obtain ⟨g, hg, heg, _⟩ := edge_of_beq hxd he
    cases h.replacing.image _ hi with
    | replaced hd => simp [beq_trans hxd hd] at hne
    | kept _ => exact ⟨g, hg, BEq.symm heg⟩
    | rebuilt _ _ hb =>
      obtain ⟨f, hf, hfg, _⟩ := hb.edge g hg
      exact ⟨f, hf, BEq.trans hfg (BEq.symm heg)⟩
  · rw [himage]
    exact ⟨e, he, BEq.rfl⟩

section Below

variable (hbelow : ∀ e ∈ old.edges, new.reaches e.2 = true) (hxw : x.WellBuilt)
include hbelow hxw

theorem image_reaches (hdy : d.Has y) (hd : d.WellBuilt) (hxy : (x == y) = true)
    {i : Dag V E × Dag V E} (hi : i ∈ r.2.images) (hid : (i.1 == d) = true) :
    i.2.reaches (r.2.imageOf x) = true := by
  induction hdy generalizing i with
  | self d =>
    rw [h.replacing.imageOf_eq hi (beq_trans hid (beq_symm hxw hxy))]
    exact (Has.self _).reaches
  | @step d y e he hy ih =>
    obtain ⟨a, b⟩ := i
    have hda := beq_symm (h.replacing.source _ hi) hid
    have hex : e.2.reaches x = true := reaches_of_beq hy.reaches hxy
    cases h.replacing.image _ hi with
    | replaced ha =>
      obtain ⟨f, hf, _, hef⟩ := edge_of_beq (beq_trans hda ha) he
      have hfx := reaches_congr_left hex hef
      obtain ⟨z, hz, hxz⟩ := reaches_iff.1 hfx
      have hkept : x.reaches old = false := by
        rw [Bool.eq_false_iff]
        intro hx
        have hz' := reaches_below (same_refl old) hf hz
        simp [reaches_congr_left hx hxz] at hz'
      exact reaches_of_beq (reaches_trans (hbelow f hf) hfx) (h.imageOf_kept hkept)
    | kept ha =>
      have hax := reaches_congr_left (reaches_of_edge he hex) hda
      have hkept : x.reaches old = false := by
        rw [Bool.eq_false_iff] at ha ⊢
        exact fun hx => ha (reaches_trans hax hx)
      exact reaches_of_beq hax (h.imageOf_kept hkept)
    | rebuilt _ _ hb =>
      obtain ⟨g, hg, _, heg⟩ := edge_of_beq hda he
      obtain ⟨f, hf, _, j, hj, hjg, hfj⟩ := hb.edge g hg
      have hjx := ih (hd.tail he) hxy hj (beq_trans hjg (beq_symm (hd.tail he) heg))
      exact reaches_of_edge hf
        (reaches_congr_left hjx (beq_symm ((h.replacing.target _ hi).tail hf) hfj))

theorem under_imageOf (hroot : root.WellBuilt) (hne : (root == old) = false)
    (hx : root.Under x) : r.1.Under (r.2.imageOf x) := by
  obtain ⟨e, he, hex⟩ := hx
  obtain ⟨⟨a, b⟩, hi, har, hb⟩ := h.image
  have hra := beq_symm (h.replacing.source _ hi) har
  rw [← hb]
  cases h.replacing.image _ hi with
  | replaced ha => simp [beq_trans hra ha] at hne
  | kept ha =>
    obtain ⟨f, hf, _, hef⟩ := edge_of_beq hra he
    have hfx := reaches_congr_left hex hef
    have hkept : x.reaches old = false := by
      rw [Bool.eq_false_iff] at ha ⊢
      exact fun hx => ha (reaches_of_edge hf (reaches_trans hfx hx))
    exact ⟨f, hf, reaches_of_beq hfx (h.imageOf_kept hkept)⟩
  | rebuilt _ _ hrebuilt =>
    obtain ⟨g, hg, _, heg⟩ := edge_of_beq hra he
    obtain ⟨f, hf, _, j, hj, hjg, hfj⟩ := hrebuilt.edge g hg
    obtain ⟨y, hy, hxy⟩ := reaches_iff.1 hex
    have hjx := h.image_reaches hbelow hxw hy (hroot.tail he) hxy hj
      (beq_trans hjg (beq_symm (hroot.tail he) heg))
    exact ⟨f, hf, reaches_congr_left hjx (beq_symm ((h.replacing.target _ hi).tail hf) hfj)⟩

end Below

end NodeReplaced

end Wiring.Dag
