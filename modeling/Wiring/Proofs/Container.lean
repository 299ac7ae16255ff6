import Wiring.Container
import Wiring.Proofs.BackEdges
import Wiring.Proofs.Dag.Same

/-!
# What a container keeps

A container has one maker for all nodes that are equal. A maker whose instances are shared has a
cell of its own, so no two nodes share instances unless they are equal. Makers stay, and so does
what is known of a cell, until the container is closed.
-/

namespace Wiring

variable {k k' k'' : Container} {x y : Graph} {b : BackEdges} {m : Instantiator} {c d : Nat}
  {st : Cell}

def Instantiator.cell? (m : Instantiator) : Option Nat :=
  match m.source with
  | .memoized cell _ => some cell
  | _ => none

abbrev BackEdges.BuiltTails (b : BackEdges) : Prop := b.AllEdges fun _ e => e.tail.WellBuilt

structure Dependencies.Built (deps : Dependencies) : Prop where
  edges : ∀ e ∈ deps.edges, e.2.WellBuilt
  back : deps.backEdges.BuiltTails

namespace Container

/-- The instances of the node are shared: its policy says so, or that of the container does where it
has none. -/
def Shares (k : Container) (x : Graph) : Prop := x.label.policy.or k.policy = .memoize

/-- The maker of a node: it produces the satisfaction of the node, by way of a cell if the instances
are shared. -/
inductive MakerOf (k : Container) (x : Graph) : Instantiator → Prop
  | plain {deps : Dependencies} : ¬ k.Shares x → deps.Built →
      MakerOf k x ⟨x.label.satisfaction.type, .satisfaction x.label.satisfaction deps⟩
  | shared {deps : Dependencies} {c : Nat} : k.Shares x → deps.Built → c < k.nextCell →
      MakerOf k x
        ⟨x.label.satisfaction.type, .memoized c (.satisfaction x.label.satisfaction deps)⟩

def Has (k : Container) (m : Instantiator) : Prop := ∃ x, (x, m) ∈ k.cache

structure Sound (k : Container) : Prop where
  node : ∀ e ∈ k.cache, e.1.WellBuilt
  maker : ∀ e ∈ k.cache, k.MakerOf e.1 e.2
  apart : k.cache.Pairwise fun e f => (e.1 == f.1) = false
  cells : ∀ e ∈ k.cache, ∀ f ∈ k.cache, ∀ c, e.2.cell? = some c → f.2.cell? = some c → e = f
  unused : ∀ c, k.nextCell ≤ c → k.cell? c = none
  /-- A maker that was an instance is one the container has. -/
  injected : ∀ c i m, k.cell? c = some (.done (.ok (some (.maker i m)))) → k.Has m

structure Grows (k k' : Container) : Prop where
  policy : k'.policy = k.policy
  cache : ∀ e ∈ k.cache, e ∈ k'.cache
  cells : ∀ c st, k.cell? c = some st → k'.cell? c = some st

theorem sound_of_empty (hcache : k.cache = []) (hcells : k.cells = []) : k.Sound := by
  have hcell : ∀ c, k.cell? c = none := by
    intro c
    unfold cell?
    rw [hcells]
    rfl
  constructor
  case unused => exact fun c _ => hcell c
  case injected => exact fun c i m h => by simp [hcell] at h
  all_goals
    rw [hcache]
  · exact List.forall_mem_nil _
  · exact List.forall_mem_nil _
  · exact .nil
  · exact List.forall_mem_nil _

theorem Grows.refl (k : Container) : k.Grows k := ⟨rfl, fun _ => id, fun _ _ => id⟩

theorem Grows.trans (h : k.Grows k') (h' : k'.Grows k'') : k.Grows k'' :=
  ⟨h'.policy.trans h.policy, fun e he => h'.cache e (h.cache e he),
    fun c st hc => h'.cells c st (h.cells c st hc)⟩

theorem Has.mono (hm : k.Has m) (h : k.Grows k') : k'.Has m := by
  obtain ⟨x, hx⟩ := hm
  exact ⟨x, h.cache _ hx⟩

/-! ## Makers of nodes -/

theorem maker?_eq_some (h : k.maker? x = some m) : ∃ y, (y, m) ∈ k.cache ∧ (y == x) = true := by
  obtain ⟨⟨y, m'⟩, hfind, rfl⟩ := Option.map_eq_some_iff.1 h
  exact ⟨y, List.mem_of_find?_eq_some hfind, by simpa using List.find?_some hfind⟩

theorem maker?_congr (h : Dag.SameNode x y) (k : Container) : k.maker? y = k.maker? x := by
  unfold maker?
  simp only [Dag.beq_right_congr h.left h.beq]

theorem Sound.maker?_of_mem (hk : k.Sound) (h : (x, m) ∈ k.cache) : k.maker? x = some m := by
  obtain ⟨before, after, hsplit⟩ := List.append_of_mem h
  have hapart := hk.apart
  rw [hsplit, List.pairwise_append] at hapart
  unfold maker?
  rw [hsplit, List.find?_append, List.find?_eq_none.2 fun e he => by
    simpa using hapart.2.2 e he _ List.mem_cons_self]
  simp

theorem Sound.beq_of_cell (hk : k.Sound) (hmx : k.maker? x = some m) (hmy : k.maker? y = some m)
    (hc : m.cell? = some c) : (x == y) = true := by
  obtain ⟨x', hx', hxx⟩ := maker?_eq_some hmx
  obtain ⟨y', hy', hyy⟩ := maker?_eq_some hmy
  cases hk.cells _ hx' _ hy' c hc hc
  exact Dag.beq_trans (Dag.beq_symm (hk.node _ hx') hxx) hyy

theorem cache_newMaker (k : Container) (x : Graph) (b : BackEdges) :
    (k.newMaker x b).2.cache = k.cache := by
  unfold newMaker
  dsimp only
  split <;> rfl

theorem maker?_makerFor (k : Container) (x : Graph) (b : BackEdges) :
    (k.makerFor x b).2.maker? x = some (k.makerFor x b).1 := by
  unfold makerFor
  cases hx : k.maker? x with
  | some m => exact hx
  | none =>
    have hnone : (k.cache.find? fun e => e.1 == x) = none := Option.map_eq_none_iff.1 hx
    unfold maker?
    simp [cache_newMaker, hnone]

theorem makerFor_of_same (h : Dag.SameNode x y) (k : Container) (b b' : BackEdges) :
    (k.makerFor x b).2.makerFor y b' = k.makerFor x b := by
  have hm := maker?_makerFor k x b
  revert hm
  generalize k.makerFor x b = found
  intro hm
  unfold makerFor
  rw [maker?_congr h, hm]

theorem Sound.eq_of_cell {m' : Instantiator} (hk : k.Sound) (hm : k.Has m) (hm' : k.Has m')
    (hc : m.cell? = some c) (hc' : m'.cell? = some c) : m = m' := by
  obtain ⟨x, hx⟩ := hm
  obtain ⟨y, hy⟩ := hm'
  cases hk.cells _ hx _ hy c hc hc'
  rfl

theorem Sound.cell?_of_maker? (hk : k.Sound) (hm : k.maker? x = some m) :
    m.cell?.isSome = true ↔ k.Shares x := by
  obtain ⟨y, hy, hyx⟩ := maker?_eq_some hm
  have hpolicy : y.label.policy = x.label.policy :=
    ((Component.beq_iff _ _).1 (Dag.label_beq hyx)).2
  unfold Shares
  rw [← hpolicy]
  have hmaker : k.MakerOf y m := hk.maker _ hy
  cases hmaker with
  | plain hshares _ => exact iff_of_false (by simp [Instantiator.cell?]) hshares
  | shared hshares _ _ => exact iff_of_true rfl hshares

/-! ## New makers -/

theorem built_dependencies (hx : x.WellBuilt) (hb : b.BuiltTails) : Dependencies.Built
    ⟨x.edges ++ (b.edgesOf x).map fun e => (e.label, e.tail), b⟩ := by
  refine ⟨fun e he => ?_, hb⟩
  rcases List.mem_append.1 he with he | he
  · exact hx.tail he
  · obtain ⟨f, hf, rfl⟩ := List.mem_map.1 he
    obtain ⟨_, _, hwell⟩ := hb.edgesOf hf
    exact hwell

theorem newMaker_spec (k : Container) (hx : x.WellBuilt) (hb : b.BuiltTails) :
    ∃ n, (k.newMaker x b).2 = { k with nextCell := n } ∧ k.nextCell ≤ n ∧
      (k.newMaker x b).2.MakerOf x (k.newMaker x b).1 ∧
      ∀ c, (k.newMaker x b).1.cell? = some c → k.nextCell ≤ c := by
  have hdeps := built_dependencies hx hb
  unfold newMaker
  dsimp only
  split
  · rename_i hshares
    refine ⟨k.nextCell + 1, rfl, Nat.le_succ _, .shared hshares hdeps (Nat.lt_succ_self _), ?_⟩
    intro c hc
    cases hc
    exact Nat.le.refl
  · rename_i hshares
    exact ⟨k.nextCell, rfl, Nat.le.refl, .plain hshares hdeps, nofun⟩

theorem MakerOf.cell_lt (h : k.MakerOf x m) (hc : m.cell? = some c) : c < k.nextCell := by
  cases h with
  | plain _ _ => cases hc
  | shared _ _ hlt =>
    cases hc
    exact hlt

theorem MakerOf.mono (h : k.MakerOf x m) (hpolicy : k'.policy = k.policy)
    (hn : k.nextCell ≤ k'.nextCell) : k'.MakerOf x m := by
  have hshares : k'.Shares x ↔ k.Shares x := by
    unfold Shares
    rw [hpolicy]
  cases h with
  | plain hplain hdeps => exact .plain (mt hshares.1 hplain) hdeps
  | shared h hdeps hlt => exact .shared (hshares.2 h) hdeps (Nat.lt_of_lt_of_le hlt hn)

structure Extended (k k' : Container) (m : Instantiator) : Prop where
  sound : k'.Sound
  grows : k.Grows k'
  has : k'.Has m
  cells : k'.cells = k.cells
  /-- Nothing is known of the cells of makers that were not there before. -/
  fresh : ∀ m c, k'.Has m → m.cell? = some c → k.Has m ∨ k.cell? c = none

theorem Sound.makerFor (hk : k.Sound) (hx : x.WellBuilt) (hb : b.BuiltTails) :
    k.Extended (k.makerFor x b).2 (k.makerFor x b).1 := by
  unfold Container.makerFor
  cases hm : k.maker? x with
  | some m =>
    obtain ⟨y, hy, -⟩ := maker?_eq_some hm
    exact ⟨hk, .refl k, ⟨y, hy⟩, rfl, fun _ _ hm _ => .inl hm⟩
  | none =>
    obtain ⟨n, hcontainer, hn, hmaker, hcell⟩ := k.newMaker_spec hx hb
    revert hcontainer hmaker hcell
    generalize k.newMaker x b = new
    obtain ⟨m, k'⟩ := new
    rintro rfl hmaker hcell
    have hold : ∀ e ∈ k.cache, ∀ c, e.2.cell? = some c → c < k.nextCell :=
      fun e he c hc => (hk.maker e he).cell_lt hc
    have hmem : ∀ e, e ∈ k.cache ++ [(x, m)] ↔ e ∈ k.cache ∨ e = (x, m) := by simp
    have hgrows : k.Grows { k with nextCell := n, cache := k.cache ++ [(x, m)] } :=
      ⟨rfl, fun e he => (hmem e).2 (.inl he), fun _ _ => id⟩
    refine ⟨⟨fun e he => ?_, fun e he => ?_, ?_, fun e he f hf c hec hfc => ?_, fun c hc => ?_,
      fun c i m h => (hk.injected c i m h).mono hgrows⟩, hgrows, ⟨x, (hmem _).2 (.inr rfl)⟩, rfl,
      fun m' c hm' hc => ?_⟩
    · rcases (hmem e).1 he with he | rfl
      · exact hk.node e he
      · exact hx
    · rcases (hmem e).1 he with he | rfl
      · exact (hk.maker e he).mono rfl hn
      · exact hmaker.mono rfl Nat.le.refl
    · refine List.pairwise_append.2 ⟨hk.apart, List.pairwise_singleton _ _, fun e he f hf => ?_⟩
      rw [List.mem_singleton.1 hf]
      simpa using List.find?_eq_none.1 (Option.map_eq_none_iff.1 hm) e he
    · rcases (hmem e).1 he with he | rfl <;> rcases (hmem f).1 hf with hf | rfl
      · exact hk.cells e he f hf c hec hfc
      · exact absurd (hold e he c hec) (Nat.not_lt.2 (hcell c hfc))
      · exact absurd (hold f hf c hfc) (Nat.not_lt.2 (hcell c hec))
      · rfl
    · exact hk.unused c (Nat.le_trans hn hc)
    · obtain ⟨y, hy⟩ := hm'
      rcases (hmem _).1 hy with hy | hy
      · exact .inl ⟨y, hy⟩
      · cases hy
        exact .inr (hk.unused c (hcell c hc))

/-! ## Cells -/

@[simp] theorem cell?_setCell_self (k : Container) (c : Nat) (st : Cell) :
    (k.setCell c st).cell? c = some st := by
  unfold cell? setCell
  rw [List.lookup_cons, beq_self_eq_true]

theorem cell?_setCell_of_ne (h : d ≠ c) (k : Container) (st : Cell) :
    (k.setCell c st).cell? d = k.cell? d := by
  unfold cell? setCell
  rw [List.lookup_cons, beq_eq_false_iff_ne.2 h]

theorem Sound.setCell (hk : k.Sound) (hc : c < k.nextCell)
    (hst : ∀ i m, st = .done (.ok (some (.maker i m))) → k.Has m) : (k.setCell c st).Sound := by
  refine ⟨hk.node, fun e he => (hk.maker e he).mono rfl Nat.le.refl, hk.apart, hk.cells,
    fun d hd => ?_, fun d i m hd => ?_⟩
  · have hdc : d ≠ c := by
      rintro rfl
      exact absurd hc (Nat.not_lt.2 hd)
    exact (cell?_setCell_of_ne hdc k st).trans (hk.unused d hd)
  · by_cases hdc : d = c
    · subst hdc
      rw [cell?_setCell_self] at hd
      exact hst i m (Option.some.inj hd)
    · rw [cell?_setCell_of_ne hdc] at hd
      exact hk.injected d i m hd

theorem grows_setCell (hnone : k.cell? c = none) (st : Cell) : k.Grows (k.setCell c st) := by
  refine ⟨rfl, fun _ => id, fun d st' hd => ?_⟩
  have hdc : d ≠ c := by
    rintro rfl
    simp [hnone] at hd
  exact (cell?_setCell_of_ne hdc k st).trans hd

theorem Grows.setCell (h : (k.setCell c st).Grows k') (hnone : k.cell? c = none) (st' : Cell) :
    k.Grows (k'.setCell c st') := by
  refine ⟨h.policy, h.cache, fun d st'' hd => ?_⟩
  have hdc : d ≠ c := by
    rintro rfl
    simp [hnone] at hd
  rw [cell?_setCell_of_ne hdc]
  exact h.cells d st'' ((cell?_setCell_of_ne hdc k st).trans hd)

end Container

/-! ## Instances that are not shared -/

def BackEdges.edgesFrom (b : BackEdges) (x : Graph) : List (Dependency × Graph) :=
  x.edges ++ (b.edgesOf x).map fun e => (e.label, e.tail)

def plainMaker (p : Graph × BackEdges) : Instantiator :=
  ⟨p.1.label.satisfaction.type, .satisfaction p.1.label.satisfaction ⟨p.2.edgesFrom p.1, p.2⟩⟩

namespace Container

variable {p : Graph × BackEdges}

theorem newMaker_of_not_shares (h : ¬ k.Shares p.1) : k.newMaker p.1 p.2 = (plainMaker p, k) := by
  unfold newMaker
  exact if_neg h

end Container

end Wiring
