import Wiring.Dag.Replace
import Wiring.Proofs.Dag.Merge

/-!
# Nodes in one memory

Tags are handed out in order, so among nodes that were built one after the other a tag names one
node, and nodes that are identical are equal. Every operation that builds nodes goes on from one
memory to a larger one.
-/

namespace Wiring.Dag

variable {V E : Type} [BEq V] [EquivBEq V] [Hashable V] [BEq E] [EquivBEq E] [Hashable E]

/-- The nodes built so far. Whatever they lead to was built before, and no two have one tag. -/
structure Memory (V E : Type) [BEq V] [EquivBEq V] [Hashable V] [BEq E] [EquivBEq E]
    [Hashable E] where
  next : Nat
  nodes : Dag V E → Prop
  wellBuilt : ∀ {x}, nodes x → x.WellBuilt
  tail : ∀ {x}, nodes x → ∀ e ∈ x.edges, nodes e.2
  old : ∀ {x}, nodes x → x.tag < next
  own : ∀ {x y}, nodes x → nodes y → x.tag = y.tag → x = y

namespace Memory

def empty (tag : Nat) : Memory V E where
  next := tag
  nodes _ := False
  wellBuilt h := h.elim
  tail h := h.elim
  old h := h.elim
  own h := h.elim

/-- The memory when some tags were handed out to no node. -/
def skip (m : Memory V E) (tag : Nat) (h : m.next ≤ tag) : Memory V E where
  next := tag
  nodes := m.nodes
  wellBuilt := m.wellBuilt
  tail := m.tail
  old hx := Nat.lt_of_lt_of_le (m.old hx) h
  own := m.own

structure Extends (m m' : Memory V E) : Prop where
  le : m.next ≤ m'.next
  nodes : ∀ {x}, m.nodes x → m'.nodes x

theorem Extends.refl (m : Memory V E) : m.Extends m := ⟨Nat.le_refl _, id⟩

theorem Extends.trans {m m' m'' : Memory V E} (h : m.Extends m') (h' : m'.Extends m'') :
    m.Extends m'' := ⟨Nat.le_trans h.le h'.le, h'.nodes ∘ h.nodes⟩

theorem extends_skip (m : Memory V E) {tag : Nat} (h : m.next ≤ tag) :
    m.Extends (m.skip tag h) := ⟨h, id⟩

variable {m : Memory V E} {x y : Dag V E}

theorem has (hx : m.nodes x) (hy : x.Has y) : m.nodes y := by
  induction hy with
  | self => exact hx
  | step he _ ih => exact ih (m.tail hx _ he)

theorem eq_of_identical (hx : m.nodes x) (hy : m.nodes y) (h : x.identical y = true) : x = y := by
  unfold identical at h
  exact m.own hx hy (by simpa using h)

/-! ## Computations -/

/-- Started in the memory, the computation goes on to a larger one, where `P` holds of the
result. -/
def Allows {α : Type} (m : Memory V E) (c : Fresh α) (P : Memory V E → α → Prop) : Prop :=
  ∃ m', m.Extends m' ∧ m'.next = (c.run m.next).2 ∧ P m' (c.run m.next).1

variable {α β : Type} {P : Memory V E → α → Prop} {Q : Memory V E → β → Prop}

theorem allows_pure {a : α} (h : P m a) : m.Allows (pure a) P := ⟨m, .refl m, rfl, h⟩

theorem Allows.bind {c : Fresh α} {f : α → Fresh β} (h : m.Allows c P)
    (hf : ∀ m' a, m.Extends m' → P m' a → m'.Allows (f a) Q) : m.Allows (c >>= f) Q := by
  obtain ⟨m', hm', hnext, ha⟩ := h
  obtain ⟨m'', hm'', hnext', hb⟩ := hf m' _ hm' ha
  rw [hnext] at hnext' hb
  exact ⟨m'', hm'.trans hm'', hnext', hb⟩

theorem Allows.result {c : Fresh α} (h : m.Allows c P) :
    m.Allows c fun m' a => P m' a ∧ a = (c.run m.next).1 := by
  obtain ⟨m', hm', hnext, ha⟩ := h
  exact ⟨m', hm', hnext, ha, rfl⟩

theorem allows_build {b : Draft V E} (hb : b.Ready) (htails : ∀ e ∈ b.edges, m.nodes e.2) :
    m.Allows b.build fun m' x => m'.nodes x := by
  refine ⟨⟨m.next + 1, fun x => m.nodes x ∨ x = (b.build.run m.next).1, ?_, ?_, ?_, ?_⟩,
    ⟨Nat.le_succ _, .inl⟩, rfl, .inr rfl⟩
  · rintro x (hx | rfl)
    · exact m.wellBuilt hx
    · exact hb.build m.next
  · rintro x (hx | rfl) e he
    · exact .inl (m.tail hx e he)
    · exact .inl (htails e he)
  · rintro x (hx | rfl)
    · exact Nat.lt_succ_of_lt (m.old hx)
    · exact Nat.lt_succ_self m.next
  · -- The tag of the new node is larger than all before it.
    have hnew : ∀ {x}, m.nodes x → x.tag ≠ (b.build.run m.next).1.tag := by
      intro x hx
      have hlt := m.old hx
      show x.tag ≠ m.next
      omega
    rintro x y (hx | rfl) (hy | rfl) htag
    · exact m.own hx hy htag
    · exact absurd htag (hnew hx)
    · exact absurd htag.symm (hnew hy)
    · rfl

theorem allows_addEdges {b : Draft V E} {es : List (E × Dag V E)} (hb : b.Ready)
    (htails : ∀ e ∈ b.edges, m.nodes e.2) (hes : ∀ e ∈ es, m.nodes e.2) :
    m.Allows (b.addEdges es).build fun m' x => m'.nodes x := by
  refine allows_build (hb.addEdges fun e he => m.wellBuilt (hes e he)) fun e he => ?_
  rcases Draft.mem_addEdges he with he | he
  · exact htails e he
  · exact hes e he

theorem allows_over {l : V} {es : List (E × Dag V E)} (hes : ∀ e ∈ es, m.nodes e.2) :
    m.Allows ((Draft.ofLabel l).addEdges es).build fun m' x => m'.nodes x :=
  allows_addEdges (Draft.ready_ofLabel l) (by simp) hes

theorem allows_copy {l : E} (hx : m.nodes x) (hy : m.nodes y) :
    m.Allows (x.copy.addEdge l y).build fun m' z => m'.nodes z := by
  have hedges : ∀ e ∈ [(l, y)], m.nodes e.2 := by simpa using hy
  have hcopy : x.copy.addEdge l y = x.copy.addEdges [(l, y)] := rfl
  rw [hcopy]
  exact allows_addEdges (m.wellBuilt hx).copy (m.tail hx) hedges

/-! ## Merging -/

def Images (m : Memory V E) (memo : Memo V E) : Prop := ∀ i ∈ memo.images, m.nodes i.2

def Holds (m : Memory V E) (p : Pool V E) : Prop := ∀ n ∈ p.nodes, m.nodes n

variable {memo : Memo V E} {p : Pool V E} {d old new : Dag V E} {m' : Memory V E}

theorem Images.mono (h : m.Images memo) (hm : m.Extends m') : m'.Images memo :=
  fun i hi => hm.nodes (h i hi)

theorem Images.insert (h : m.Images memo) (hx : m.nodes x) : m.Images (memo.insert d x) := by
  intro i hi
  rcases List.mem_cons.1 hi with rfl | hi
  · exact hx
  · exact h i hi

theorem Images.imageOf (h : m.Images memo) (hd : m.nodes d) : m.nodes (memo.imageOf d) := by
  rcases memo.imageOf_cases d with ⟨i, hi, -, he⟩ | ⟨-, he⟩
  · rw [he]
    exact h i hi
  · rw [he]
    exact hd

theorem Holds.mono (h : m.Holds p) (hm : m.Extends m') : m'.Holds p :=
  fun n hn => hm.nodes (h n hn)

theorem Holds.intern (h : m.Holds p) (hd : m.nodes d) :
    m.nodes (p.intern d).1 ∧ m.Holds (p.intern d).2 := by
  unfold Pool.intern
  cases hfound : p.canonical? d with
  | some found => exact ⟨h found (List.mem_of_find?_eq_some hfound), h⟩
  | none =>
    refine ⟨hd, fun n hn => ?_⟩
    rcases List.mem_append.1 hn with hn | hn
    · exact h n hn
    · exact List.mem_singleton.1 hn ▸ hd

theorem allows_mergeNode (hp : m.Holds p) (hmemo : m.Images memo) (hd : m.nodes d) :
    m.Allows (p.mergeNode memo d) fun m' r => m'.Holds r.1 ∧ m'.Images r.2 := by
  have hrest : ∀ m' x, m.Extends m' → m'.nodes x →
      m'.Allows (pure ((p.intern x).2, memo.insert d (p.intern x).1) : Fresh _)
        fun m' r => m'.Holds r.1 ∧ m'.Images r.2 := by
    intro m' x hm' hx
    obtain ⟨hfound, hpool⟩ := (hp.mono hm').intern hx
    exact allows_pure ⟨hpool, (hmemo.mono hm').insert hfound⟩
  unfold Pool.mergeNode
  dsimp only
  split
  · refine (allows_over fun e he => ?_).bind hrest
    obtain ⟨f, hf, rfl⟩ := List.mem_map.1 he
    exact hmemo.imageOf (m.tail hd f hf)
  · exact hrest m d (.refl m) hd

theorem allows_mergeNodes {ds : List (Dag V E)} (hp : m.Holds p) (hmemo : m.Images memo)
    (hds : ∀ d ∈ ds, m.nodes d) :
    m.Allows (p.mergeNodes memo ds) fun m' r => m'.Holds r.1 ∧ m'.Images r.2 := by
  induction ds generalizing m p memo with
  | nil => exact allows_pure ⟨hp, hmemo⟩
  | cons d ds ih =>
    refine (allows_mergeNode hp hmemo (hds d List.mem_cons_self)).bind fun m' r hm' hr => ?_
    exact ih hr.1 hr.2 fun x hx => hm'.nodes (hds x (List.mem_cons_of_mem d hx))

theorem allows_merge (hp : m.Holds p) (hd : m.nodes d) :
    m.Allows (p.merge d) fun m' r => m'.nodes r.1 ∧ m'.Holds r.2 := by
  have hempty : m.Images (.empty : Memo V E) := by simp [Images]
  have hmerge := allows_mergeNodes hp hempty fun x hx => has hd (has_of_mem_sorted hx)
  refine hmerge.bind fun m' r hm' hr => ?_
  exact allows_pure ⟨hr.2.imageOf (hm'.nodes hd), hr.1⟩

/-! ## Replacing -/

mutual

theorem allows_replaceNode : ∀ (d : Dag V E) {m : Memory V E} {memo : Memo V E}, m.nodes new →
    m.Images memo → m.nodes d →
    m.Allows (replaceNode old new d memo) fun m' r => m'.nodes r.1 ∧ m'.Images r.2
  | node t h l es, m, memo, hnew, hmemo, hd => by
    rw [replaceNode]
    cases hget : memo.get? _ with
    | some image =>
      obtain ⟨i, hi, -, rfl⟩ := Memo.exists_of_get? hget
      exact allows_pure ⟨hmemo i hi, hmemo⟩
    | none =>
      dsimp only
      split
      · exact allows_pure ⟨hnew, hmemo.insert hnew⟩
      · split
        · exact allows_pure ⟨hd, hmemo.insert hd⟩
        · refine (allows_replaceTails es hnew hmemo fun e he => m.tail hd e he).bind
            fun m1 r _ hr => (allows_over hr.1).bind fun m2 x hm2 hx => ?_
          exact allows_pure ⟨hx, (hr.2.mono hm2).insert hx⟩

theorem allows_replaceTails : ∀ (es : List (E × Dag V E)) {m : Memory V E} {memo : Memo V E},
    m.nodes new → m.Images memo → (∀ e ∈ es, m.nodes e.2) →
    m.Allows (replaceTails old new es memo)
      fun m' r => (∀ e ∈ r.1, m'.nodes e.2) ∧ m'.Images r.2
  | [], _, _, _, hmemo, _ => by
    rw [replaceTails]
    exact allows_pure ⟨by simp, hmemo⟩
  | (l, d) :: rest, m, memo, hnew, hmemo, hes => by
    rw [replaceTails]
    refine (allows_replaceNode d hnew hmemo (hes (l, d) List.mem_cons_self)).bind
      fun m1 r hm1 hr => ?_
    refine (allows_replaceTails rest (hm1.nodes hnew) hr.2
      fun e he => hm1.nodes (hes e (List.mem_cons_of_mem _ he))).bind fun m2 rs hm2 hrs => ?_
    refine allows_pure ⟨fun e he => ?_, hrs.2⟩
    rcases List.mem_cons.1 he with rfl | he
    · exact hm2.nodes hr.1
    · exact hrs.1 e he

end

end Memory

end Wiring.Dag
