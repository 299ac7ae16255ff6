import Wiring.Solver.Tree
import Mathlib.Tactic.Common

/-!
# Running work

What a run of work gives and the workspace it leaves, step by step. A run is determined by the
workspace it starts in.
-/

namespace Wiring.Work

variable {α β : Type} {m : Work α} {f : α → Work β} {w w' : Workspace} {r : Attempt α}

def Runs (m : Work α) (w : Workspace) (r : Attempt α) (w' : Workspace) : Prop :=
  r = (m.run.run w).1 ∧ w' = (m.run.run w).2

theorem runs_self (m : Work α) (w : Workspace) : m.Runs w (m.run.run w).1 (m.run.run w).2 :=
  ⟨rfl, rfl⟩

theorem Runs.unique {r' : Attempt α} {w'' : Workspace} (h : m.Runs w r w')
    (h' : m.Runs w r' w'') : r = r' ∧ w' = w'' :=
  ⟨h.1.trans h'.1.symm, h.2.trans h'.2.symm⟩

theorem run_bind (m : Work α) (f : α → Work β) (w : Workspace) :
    (m >>= f).run.run w = match (m.run.run w).1 with
      | .ok a => (f a).run.run (m.run.run w).2
      | .error e => (.error e, (m.run.run w).2) := by
  rw [ExceptT.run_bind, StateT.run_bind]
  generalize m.run.run w = x
  rcases x with ⟨_ | _, v⟩ <;> rfl

theorem runs_bind {r : Attempt β} : (m >>= f).Runs w r w' ↔
    (∃ a v, m.Runs w (.ok a) v ∧ (f a).Runs v r w') ∨
      ∃ e, r = .error e ∧ m.Runs w (.error e) w' := by
  unfold Runs
  rw [run_bind]
  cases (m.run.run w).1 with
  | error e => simp
  | ok a => simp

theorem runs_bind_ok {b : β} : (m >>= f).Runs w (.ok b) w' ↔
    ∃ a v, m.Runs w (.ok a) v ∧ (f a).Runs v (.ok b) w' := by
  rw [runs_bind]
  simp

/-! ## Single steps -/

theorem runs_pure {a : α} : (pure a : Work α).Runs w r w' ↔ r = .ok a ∧ w' = w :=
  Iff.rfl

theorem runs_throw {e : WiringError} : (throw e : Work α).Runs w r w' ↔ r = .error e ∧ w' = w :=
  Iff.rfl

theorem runs_lift {x : StateM Workspace α} : Runs (ExceptT.lift x) w r w' ↔
    r = .ok (x.run w).1 ∧ w' = (x.run w).2 :=
  Iff.rfl

theorem runs_report {es : List Event} {r : Attempt Unit} : (report es).Runs w r w' ↔
    r = .ok () ∧ w' = { w with events := w.events ++ es } :=
  Iff.rfl

theorem runs_putOff {d : Deferral} {r : Attempt Unit} : (putOff d).Runs w r w' ↔
    r = .ok () ∧ w' = { w with queue := w.queue ++ [d] } :=
  Iff.rfl

theorem runs_takeQueue {r : Attempt (List Deferral)} : takeQueue.Runs w r w' ↔
    r = .ok w.queue ∧ w' = { w with queue := [] } :=
  Iff.rfl

theorem runs_build {x : Dag.Fresh α} : (build x).Runs w r w' ↔
    r = .ok (x.run w.nextTag).1 ∧ w' = { w with nextTag := (x.run w.nextTag).2 } :=
  Iff.rfl

theorem runs_merge {g : Graph} {r : Attempt Graph} : (merge g).Runs w r w' ↔
    r = .ok ((w.pool.merge g).run w.nextTag).1.1 ∧
      w' = { w with nextTag := ((w.pool.merge g).run w.nextTag).2,
                    pool := ((w.pool.merge g).run w.nextTag).1.2 } :=
  Iff.rfl

end Wiring.Work
