import Wiring.Injector
import Wiring.Proofs.Container
import Wiring.Proofs.Solver.Representation

/-!
# Watching makers

Makers are watched as they run: each call is noted when it ends, with its outcome and with whether
the recipe ran in it. This is one of the things that making instances may do besides, so a maker
that is watched runs as it does otherwise.
-/

namespace Wiring

/-- A call of a maker that has ended: whether the recipe ran in it, and what it gave. -/
structure Call where
  maker : Instantiator
  ran : Bool
  outcome : Outcome

/-- The calls that have ended, in order, and whether the recipe of the latest that has not has
run. -/
structure Watch where
  calls : List Call := []
  ran : Bool := false

abbrev Watched := MakingOver (StateT Watch Option)

def Watched.note (f : Watch → Watch) : Watched Unit := ExceptT.lift (StateT.lift (modify f))

open Making Watched

def watchRecipe (run : Instantiator → Watched (Option Product)) (s : Satisfaction)
    (deps : Dependencies) : Watched (Option Product) := do
  let outcome ← attempt (produce run s deps)
  note fun w => { w with ran := true }
  outcome

namespace Instantiator

/-- Runs a maker, as `runWithin` does, and notes its calls and those of other makers inside of
it. -/
def watchWithin : (depth : Nat) → Instantiator → Watched (Option Product)
  | 0, _ => endless
  | depth + 1, m => do
    note fun w => { w with ran := false }
    let outcome ← attempt (runSource (watchRecipe (watchWithin depth)) m.type m.source)
    note fun w => { w with calls := w.calls ++ [⟨m, w.ran, outcome⟩] }
    outcome

def watch (m : Instantiator) : Watched (Option Product) := m.watchWithin nestingBound

end Instantiator

/-! ## Runs -/

variable {α β : Type} {i i' i'' : Injector} {w w' : Watch} {k : Container} {m : Instantiator}

/-- Started with an injector, the making ends with a result and leaves another injector. -/
def RunsTo (u : Making α) (i : Injector) (r : Attempt α) (i' : Injector) : Prop :=
  u.run.run i = some (r, i')

def Shows (t : Watched α) (i : Injector) (w : Watch) (r : Attempt α) (i' : Injector)
    (w' : Watch) : Prop :=
  (t.run.run i).run w = some ((r, i'), w')

theorem runsTo_bind {u : Making α} {g : α → Making β} {r : Attempt β} :
    RunsTo (u >>= g) i r i' ↔ (∃ a i1, RunsTo u i (.ok a) i1 ∧ RunsTo (g a) i1 r i') ∨
      ∃ e, r = .error e ∧ RunsTo u i (.error e) i' := by
  unfold RunsTo
  rw [ExceptT.run_bind, StateT.run_bind]
  cases h : u.run.run i with
  | none => simp
  | some x =>
    obtain ⟨_ | a, i1⟩ := x
    · simp [eq_comm]
    · simp

theorem shows_bind {t : Watched α} {f : α → Watched β} {r : Attempt β} :
    Shows (t >>= f) i w r i' w' ↔
      (∃ a i1 w1, Shows t i w (.ok a) i1 w1 ∧ Shows (f a) i1 w1 r i' w') ∨
        ∃ e, r = .error e ∧ Shows t i w (.error e) i' w' := by
  unfold Shows
  rw [ExceptT.run_bind, StateT.run_bind, StateT.run_bind]
  cases h : (t.run.run i).run w with
  | none => simp
  | some x =>
    obtain ⟨⟨_ | a, i1⟩, w1⟩ := x
    · simp [eq_comm, and_assoc]
    · simp

theorem shows_bind_ok {t : Watched α} {f : α → Watched β} {a : α} {i1 : Injector} {w1 : Watch}
    {r : Attempt β} (h : Shows t i w (.ok a) i1 w1) (hf : Shows (f a) i1 w1 r i' w') :
    Shows (t >>= f) i w r i' w' :=
  shows_bind.2 (.inl ⟨a, i1, w1, h, hf⟩)

theorem runsTo_attempt {u : Making α} {r : Attempt (Attempt α)} :
    RunsTo (attempt u) i r i' ↔ ∃ o, r = .ok o ∧ RunsTo u i o i' := by
  unfold RunsTo attempt
  rw [ExceptT.run_lift, StateT.run_map]
  cases u.run.run i with
  | none => simp
  | some x =>
    obtain ⟨o, i1⟩ := x
    simp [eq_comm]

theorem shows_attempt {t : Watched α} {r : Attempt (Attempt α)} :
    Shows (attempt t) i w r i' w' ↔ ∃ o, r = .ok o ∧ Shows t i w o i' w' := by
  unfold Shows attempt
  rw [ExceptT.run_lift, StateT.run_map, StateT.run_map]
  cases (t.run.run i).run w with
  | none => simp
  | some x =>
    obtain ⟨⟨o, i1⟩, w1⟩ := x
    simp [eq_comm, and_assoc]

/-! ## What the calls say -/

structure Logged (k : Container) (calls : List Call) : Prop where
  has : ∀ a ∈ calls, k.Has a.maker
  plain : ∀ a ∈ calls, a.maker.cell? = none → a.ran = true
  done : ∀ a ∈ calls, ∀ c, a.maker.cell? = some c → k.cell? c = some (.done a.outcome)
  ran : ∀ m c o, k.Has m → m.cell? = some c → k.cell? c = some (.done o) →
    ∃ a ∈ calls, a.maker = m ∧ a.ran = true
  once : calls.Pairwise fun a b => a.maker = b.maker → a.maker.cell?.isSome = true → b.ran = false

theorem logged_nil {k : Container} (hcache : k.cache = []) : Logged k [] := by
  refine ⟨nofun, nofun, nofun, fun m c o ⟨x, hx⟩ => ?_, .nil⟩
  rw [hcache] at hx
  cases hx

variable {k' : Container} {calls : List Call} {a : Call}

theorem Logged.extended (h : Logged k calls) (hk : k.Extended k' m) : Logged k' calls := by
  have hcell : ∀ c, k'.cell? c = k.cell? c := fun c => congrArg (List.lookup c) hk.cells
  refine ⟨fun a ha => (h.has a ha).mono hk.grows, h.plain, fun a ha c hc => ?_,
    fun m c o hm hc ho => ?_, h.once⟩
  · exact hk.grows.cells _ _ (h.done a ha c hc)
  · rw [hcell] at ho
    rcases hk.fresh m c hm hc with hm | hnone
    · exact h.ran m c o hm hc ho
    · rw [hnone] at ho
      cases ho

theorem Logged.append (h : Logged k calls) (hk : k.Sound) (hcache : k'.cache = k.cache)
    (hcells : ∀ c o, k.cell? c = some (.done o) → k'.cell? c = some (.done o))
    (hothers : ∀ c, a.maker.cell? ≠ some c → k'.cell? c = k.cell? c) (hm : k.Has a.maker)
    (hplain : a.maker.cell? = none → a.ran = true)
    (hdone : ∀ c, a.maker.cell? = some c → k'.cell? c = some (.done a.outcome))
    (hfirst : a.ran = true → ∀ c o, a.maker.cell? = some c → k.cell? c ≠ some (.done o))
    (hagain : a.ran = false → ∃ b ∈ calls, b.maker = a.maker ∧ b.ran = true) :
    Logged k' (calls ++ [a]) := by
  have hmem : ∀ b, b ∈ calls ++ [a] ↔ b ∈ calls ∨ b = a := by simp
  have hhas : ∀ m, k'.Has m ↔ k.Has m := by
    intro m
    unfold Container.Has
    rw [hcache]
  refine ⟨fun b hb => (hhas _).2 ?_, fun b hb hb' => ?_, fun b hb c hc => ?_,
    fun m c o hm' hc ho => ?_, ?_⟩
  · rcases (hmem b).1 hb with hb | rfl
    · exact h.has b hb
    · exact hm
  · rcases (hmem b).1 hb with hb | rfl
    · exact h.plain b hb hb'
    · exact hplain hb'
  · rcases (hmem b).1 hb with hb | rfl
    · exact hcells c _ (h.done b hb c hc)
    · exact hdone c hc
  · by_cases hown : a.maker.cell? = some c
    · obtain rfl := hk.eq_of_cell hm ((hhas m).1 hm') hown hc
      cases hran : a.ran with
      | true => exact ⟨a, (hmem a).2 (.inr rfl), rfl, hran⟩
      | false =>
        obtain ⟨b, hb, hbran⟩ := hagain hran
        exact ⟨b, (hmem b).2 (.inl hb), hbran⟩
    · rw [hothers c hown] at ho
      obtain ⟨b, hb, hbran⟩ := h.ran m c o ((hhas m).1 hm') hc ho
      exact ⟨b, (hmem b).2 (.inl hb), hbran⟩
  · refine List.pairwise_append.2
      ⟨h.once, List.pairwise_singleton _ _, fun b hb b' hb' heq hs => ?_⟩
    obtain rfl := List.mem_singleton.1 hb'
    obtain ⟨c, hc⟩ := Option.isSome_iff_exists.1 hs
    by_contra hran
    exact hfirst (by simpa using hran) c _ (heq ▸ hc) (h.done b hb c hc)

end Wiring
