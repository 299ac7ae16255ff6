import Wiring.Proofs.Dag.Canonical
import Wiring.TypeKey
import Mathlib.Data.List.Perm.Subperm

/-!
# Merging session after session

A session builds nodes over nodes it has, and merges some of them in one pool that was empty at the
start. Whatever is built and merged in between, equal inputs of merges have one result, and the pool
has one node for each structure that was below an input.
-/

namespace Wiring.Dag

variable {V E : Type} [BEq V] [EquivBEq V] [Hashable V] [BEq E] [EquivBEq E] [Hashable E]

/-! ## Counting structures -/

theorem length_le_of_beq {as bs : List (Dag V E)} (hbuilt : ∀ a ∈ as, a.WellBuilt)
    (hdistinct : as.Pairwise fun a a' => (a == a') = false)
    (hbs : ∀ a ∈ as, ∃ b ∈ bs, (a == b) = true) : as.length ≤ bs.length := by
  cases as with
  | nil => exact Nat.zero_le _
  | cons first as =>
    have : Nonempty (Dag V E) := ⟨first⟩
    choose! partner hmem hbeq using hbs
    have hnodup : ((first :: as).map partner).Nodup := by
      refine List.pairwise_map.mpr (hdistinct.imp_of_mem fun {a a'} ha ha' hne heq => ?_)
      have haa' := beq_trans (hbeq a ha) (heq ▸ beq_symm (hbuilt a' ha') (hbeq a' ha'))
      simp [hne] at haa'
    have hsubset : (first :: as).map partner ⊆ bs := by
      intro b hb
      obtain ⟨a, ha, rfl⟩ := List.mem_map.mp hb
      exact hmem a ha
    have hlength := (hnodup.subperm hsubset).length_le
    rwa [List.length_map] at hlength

structure Representatives (xs ns : List (Dag V E)) : Prop where
  distinct : ns.Pairwise fun x y => (x == y) = false
  below : ∀ n ∈ ns, ∃ x ∈ xs, x.Has n
  covers : ∀ x ∈ xs, ∀ y, x.Has y → ∃ n ∈ ns, (y == n) = true

/-! ## Sessions -/

structure Session (V E : Type) where
  next : Nat
  nodes : List (Dag V E)
  pool : Pool V E
  merges : List (Dag V E × Dag V E)

namespace Session

def start (tag : Nat) : Session V E := ⟨tag, [], .empty, []⟩

def build (s : Session V E) (b : Draft V E) : Session V E :=
  { s with next := (b.build.run s.next).2, nodes := (b.build.run s.next).1 :: s.nodes }

def merge (s : Session V E) (d : Dag V E) : Session V E :=
  let r := (s.pool.merge d).run s.next
  ⟨r.2, r.1.1 :: s.nodes, r.1.2, s.merges ++ [(d, r.1.1)]⟩

inductive Drafted (s : Session V E) : Draft V E → Prop
  | ofLabel (l : V) : Drafted s (.ofLabel l)
  | copy {x : Dag V E} : x ∈ s.nodes → Drafted s x.copy
  | setLabel {b : Draft V E} (l : V) : Drafted s b → Drafted s (b.setLabel l)
  | addEdge {b : Draft V E} (l : E) {x : Dag V E} : Drafted s b → x ∈ s.nodes →
      Drafted s (b.addEdge l x)
  | removeEdges {b : Draft V E} (p : E → Bool) : Drafted s b → Drafted s (b.removeEdges p)

def inputs (s : Session V E) : List (Dag V E) := s.merges.map (·.1)

inductive Reached : Session V E → Prop
  | start (tag : Nat) : Reached (start tag)
  | build {s : Session V E} {b : Draft V E} : Reached s → s.Drafted b → Reached (s.build b)
  | tail {s : Session V E} {x : Dag V E} {e : E × Dag V E} : Reached s → x ∈ s.nodes →
      e ∈ x.edges → Reached { s with nodes := e.2 :: s.nodes }
  | merge {s : Session V E} {d : Dag V E} : Reached s → d ∈ s.nodes → Reached (s.merge d)

/-- All nodes of the session are in the memory, and the pool is that of its merges. -/
structure Sound (s : Session V E) (m : Memory V E) : Prop where
  next : m.next = s.next
  nodes : ∀ x ∈ s.nodes, m.nodes x
  holds : m.Holds s.pool
  canonical : s.pool.Canonical
  merged : ∀ i ∈ s.merges, m.nodes i.1 ∧ i.2 ∈ s.pool.nodes ∧ (i.2 == i.1) = true
  below : ∀ n ∈ s.pool.nodes, ∃ i ∈ s.merges, ∃ x, i.1.Has x ∧ (n == x) = true

variable {s : Session V E} {m : Memory V E} {b : Draft V E} {d : Dag V E}

theorem sound_start (tag : Nat) : (start tag : Session V E).Sound (.empty tag) where
  next := rfl
  nodes := List.forall_mem_nil _
  holds := List.forall_mem_nil _
  canonical := Pool.canonical_empty
  merged := List.forall_mem_nil _
  below := List.forall_mem_nil _

theorem Drafted.ready (h : s.Drafted b) (hs : s.Sound m) :
    b.Ready ∧ ∀ e ∈ b.edges, m.nodes e.2 := by
  induction h with
  | ofLabel l => exact ⟨Draft.ready_ofLabel l, by simp⟩
  | copy hx => exact ⟨(m.wellBuilt (hs.nodes _ hx)).copy, m.tail (hs.nodes _ hx)⟩
  | setLabel l _ ih => exact ⟨ih.1.setLabel l, ih.2⟩
  | addEdge l _ hx ih =>
    refine ⟨ih.1.addEdge l (m.wellBuilt (hs.nodes _ hx)), fun e he => ?_⟩
    rcases Draft.mem_addEdge he with he | rfl
    · exact ih.2 e he
    · exact hs.nodes _ hx
  | removeEdges p _ ih =>
    exact ⟨ih.1.removeEdges p, fun e he => ih.2 e (List.mem_filter.1 he).1⟩

theorem Sound.build (hs : s.Sound m) (hb : s.Drafted b) : ∃ m', (s.build b).Sound m' := by
  obtain ⟨hready, htails⟩ := hb.ready hs
  obtain ⟨m', hm', hnext, hx⟩ := Memory.allows_build hready htails
  rw [hs.next] at hnext hx
  refine ⟨m', hnext, List.forall_mem_cons.mpr ⟨hx, fun x hx => hm'.nodes (hs.nodes x hx)⟩,
    hs.holds.mono hm', hs.canonical, fun i hi => ?_, hs.below⟩
  obtain ⟨hinput, hresult⟩ := hs.merged i hi
  exact ⟨hm'.nodes hinput, hresult⟩

/-! ## The size of the pool -/

theorem Sound.distinct (hs : s.Sound m) :
    s.pool.nodes.Pairwise fun x y => (x == y) = false := by
  refine hs.canonical.nodup.imp_of_mem fun {x y} hx hy hne => ?_
  rw [Bool.eq_false_iff]
  exact fun hxy => hne (hs.canonical.own x hx y hy hxy)

theorem Sound.covers (hs : s.Sound m) {x y : Dag V E} (hx : x ∈ s.inputs) (hy : x.Has y) :
    ∃ n ∈ s.pool.nodes, (y == n) = true := by
  obtain ⟨i, hi, rfl⟩ := List.mem_map.mp hx
  obtain ⟨-, hmem, hbeq⟩ := hs.merged i hi
  obtain ⟨n, hn, hyn⟩ := hy.congr (beq_symm (hs.canonical.wellBuilt _ hmem) hbeq)
  exact ⟨n, hs.canonical.has hmem hn, hyn⟩

theorem Sound.exists_representatives (hs : s.Sound m) : ∃ ns, Representatives s.inputs ns := by
  have hbelow : ∀ n ∈ s.pool.nodes, ∃ y, (∃ x ∈ s.inputs, x.Has y) ∧ (n == y) = true := by
    intro n hn
    obtain ⟨i, hi, y, hy, hny⟩ := hs.below n hn
    exact ⟨y, ⟨i.1, List.mem_map_of_mem hi, hy⟩, hny⟩
  have : ∀ n, ∃ y, n ∈ s.pool.nodes → (∃ x ∈ s.inputs, x.Has y) ∧ (n == y) = true := by
    intro n
    by_cases hn : n ∈ s.pool.nodes
    · obtain ⟨y, hy⟩ := hbelow n hn
      exact ⟨y, fun _ => hy⟩
    · exact ⟨n, fun h => absurd h hn⟩
  choose below hbelow using this
  refine ⟨s.pool.nodes.map below, ?_, ?_, ?_⟩
  · refine List.pairwise_map.mpr (hs.distinct.imp_of_mem fun {x y} hx hy hne => ?_)
    rw [Bool.eq_false_iff]
    intro heq
    have hyb := beq_symm (hs.canonical.wellBuilt y hy) (hbelow y hy).2
    have hxy := beq_trans (beq_trans (hbelow x hx).2 heq) hyb
    simp [hne] at hxy
  · intro n hn
    obtain ⟨x, hx, rfl⟩ := List.mem_map.mp hn
    exact (hbelow x hx).1
  · intro x hx y hy
    obtain ⟨n, hn, hyn⟩ := hs.covers hx hy
    exact ⟨below n, List.mem_map_of_mem hn, beq_trans hyn (hbelow n hn).2⟩

theorem Sound.size_eq (hs : s.Sound m) {ns : List (Dag V E)}
    (h : Representatives s.inputs ns) : s.pool.size = ns.length := by
  apply Nat.le_antisymm
  · refine length_le_of_beq hs.canonical.wellBuilt hs.distinct fun n hn => ?_
    obtain ⟨i, hi, x, hx, hnx⟩ := hs.below n hn
    obtain ⟨y, hy, hxy⟩ := h.covers i.1 (List.mem_map_of_mem hi) x hx
    exact ⟨y, hy, beq_trans hnx hxy⟩
  · refine length_le_of_beq (fun n hn => ?_) h.distinct fun n hn => ?_
    · obtain ⟨x, hx, hxn⟩ := h.below n hn
      obtain ⟨i, hi, rfl⟩ := List.mem_map.mp hx
      exact hxn.wellBuilt (m.wellBuilt (hs.merged i hi).1)
    · obtain ⟨x, hx, hxn⟩ := h.below n hn
      exact hs.covers hx hxn

/-! ## What a session may rely on -/

variable [LawfulHashable V] [LawfulHashable E]

theorem Sound.merge (hs : s.Sound m) (hd : d ∈ s.nodes) : ∃ m', (s.merge d).Sound m' := by
  obtain ⟨m', hm', hnext, hr⟩ := Pool.allows_merged hs.holds hs.canonical (hs.nodes d hd)
  rw [hs.next] at hnext hr
  have hnodes : ∀ x ∈ (s.merge d).nodes, m'.nodes x :=
    List.forall_mem_cons.mpr ⟨hr.holds _ hr.mem, fun x hx => hm'.nodes (hs.nodes x hx)⟩
  refine ⟨m', hnext, hnodes, hr.holds, hr.canonical, ?_, ?_⟩
  · intro i hi
    rcases List.mem_append.mp hi with hi | hi
    · obtain ⟨hinput, hmem, hbeq⟩ := hs.merged i hi
      exact ⟨hm'.nodes hinput, hr.keeps _ hmem, hbeq⟩
    · rw [List.mem_singleton.mp hi]
      exact ⟨hm'.nodes (hs.nodes d hd), hr.mem, hr.beq⟩
  · intro n hn
    rcases hr.adds n hn with hn | ⟨x, hx, hnx⟩
    · obtain ⟨i, hi, x, hx, hnx⟩ := hs.below n hn
      exact ⟨i, List.mem_append_left _ hi, x, hx, hnx⟩
    · exact ⟨(d, _), List.mem_append_right _ (List.mem_singleton_self _), x, hx, hnx⟩

theorem Reached.exists_sound (h : s.Reached) : ∃ m, s.Sound m := by
  induction h with
  | start tag =>
    exact ⟨.empty tag, sound_start tag⟩
  | build _ hb ih =>
    obtain ⟨m, hm⟩ := ih
    exact hm.build hb
  | tail _ hx he ih =>
    obtain ⟨m, hm⟩ := ih
    exact ⟨m, hm.next, List.forall_mem_cons.mpr ⟨m.tail (hm.nodes _ hx) _ he, hm.nodes⟩, hm.holds,
      hm.canonical, hm.merged, hm.below⟩
  | merge _ hd ih =>
    obtain ⟨m, hm⟩ := ih
    exact hm.merge hd

/-- What the pool of a session has made of its merges, and would make of others. -/
structure Canonicalizes (s : Session V E) : Prop where
  equal : ∀ i ∈ s.merges, (i.2 == i.1) = true
  one : ∀ i ∈ s.merges, ∀ j ∈ s.merges, (i.1 == j.1) = true → i.2.identical j.2 = true
  fixed : ∀ i ∈ s.merges, ∀ x, i.2.Has x →
    ((s.pool.merge x).run s.next).1.1.identical x = true
  shared : ∀ i ∈ s.merges, ∀ j ∈ s.merges, ∀ x y, i.2.Has x → j.2.Has y → (x == y) = true →
    x.identical y = true
  counted : (∃ ns, Representatives s.inputs ns) ∧
    ∀ ns, Representatives s.inputs ns → s.pool.size = ns.length
  idle : ∀ i ∈ s.merges, ((s.pool.merge i.2).run s.next).1.2 = s.pool

/-- In every session the pool has the canonical node of everything that was merged. -/
theorem canonicalizes_of_reached (h : s.Reached) : s.Canonicalizes := by
  obtain ⟨m, hs⟩ := h.exists_sound
  have hresult : ∀ i ∈ s.merges, ∀ x, i.2.Has x → x ∈ s.pool.nodes :=
    fun i hi x hx => hs.canonical.has (hs.merged i hi).2.1 hx
  have hown : ∀ {x y}, x ∈ s.pool.nodes → y ∈ s.pool.nodes → (x == y) = true →
      x.identical y = true := by
    intro x y hx hy hxy
    rw [hs.canonical.own x hx y hy hxy]
    exact beq_self_eq_true y.tag
  refine ⟨fun i hi => (hs.merged i hi).2.2, ?_, ?_, ?_, ⟨hs.exists_representatives,
    fun ns => hs.size_eq⟩, ?_⟩
  · intro i hi j hj hij
    obtain ⟨-, hmem, hbeq⟩ := hs.merged i hi
    obtain ⟨-, hmem', hbeq'⟩ := hs.merged j hj
    have hji := beq_symm (hs.canonical.wellBuilt _ hmem') hbeq'
    exact hown hmem hmem' (beq_trans hbeq (beq_trans hij hji))
  · intro i hi x hx
    rw [hs.canonical.merge_self (hresult i hi x hx)]
    exact beq_self_eq_true x.tag
  · intro i hi j hj x y hx hy
    exact hown (hresult i hi x hx) (hresult j hj y hy)
  · intro i hi
    rw [hs.canonical.merge_self (hs.merged i hi).2.1]
    rfl

/-- Two graphs of one structure that were built apart, merged one after the other. -/
theorem canonicalizes_of_twins : ∃ s : Session TypeKey TypeKey, s.Canonicalizes ∧
    ∃ i j, s.merges = [i, j] ∧ i.1.identical j.1 = false ∧ i.2.identical j.2 = true := by
  let inner := TypeKey.named "B"
  let outer := TypeKey.named "A"
  let leaf (tag : Nat) : Dag TypeKey TypeKey := ((Draft.ofLabel inner).build.run tag).1
  let draft (tag : Nat) : Draft TypeKey TypeKey := (Draft.ofLabel outer).addEdge inner (leaf tag)
  let root (tag : Nat) : Dag TypeKey TypeKey := ((draft tag).build.run (tag + 2)).1
  let leaves : Session TypeKey TypeKey := ((start 0).build (.ofLabel inner)).build (.ofLabel inner)
  let roots := (leaves.build (draft 0)).build (draft 1)
  have hleaves : leaves.Reached := ((Reached.start 0).build (.ofLabel inner)).build (.ofLabel inner)
  have hroots : roots.Reached := by
    refine (hleaves.build (.addEdge inner (.ofLabel outer) ?_)).build
      (.addEdge inner (.ofLabel outer) ?_)
    · exact .tail _ (.head _)
    · exact .tail _ (.head _)
  have hmerged : ((roots.merge (root 0)).merge (root 1)).Reached := by
    refine (hroots.merge ?_).merge ?_
    · exact .tail _ (.head _)
    · exact .tail _ (.head _)
  have hs := canonicalizes_of_reached hmerged
  have hnone : List.Forall₂ SameEdge ([] : List (TypeKey × Dag TypeKey TypeKey)) [] := .nil
  have hleaf := build_addEdges_beq (l := inner) (k := inner) BEq.rfl hnone 0 1
  have hroot : (root 0 == root 1) = true := by
    have hedge : SameEdge (inner, leaf 0) (inner, leaf 1) :=
      ⟨(edge_beq_iff _ _).mpr ⟨BEq.rfl, hleaf.2.2⟩, hleaf.1, hleaf.2.1⟩
    exact (build_addEdges_beq BEq.rfl (.cons hedge .nil) 2 3).2.2
  refine ⟨_, hs, (root 0, _), (root 1, _), rfl, rfl, ?_⟩
  exact hs.one _ (.head _) _ (.tail _ (.head _)) hroot

end Session

end Wiring.Dag
