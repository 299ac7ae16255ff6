import Wiring.Solver.Rounds
import Mathlib.Tactic.Common

/-!
# Rounds without bounds

`Ends` says what the binding rounds come to, with no bound on their number. What the solver settles
on is the end of its rounds.
-/

namespace Wiring.Rounds

inductive Ends (c : Catalog) (turn : Nat) (context : Context) : Rounds → Settled → Prop
  | ended {r : Rounds} : r.isOver = true → Ends c turn context r ⟨r.resolution context, []⟩
  | failed {r : Rounds} {e : WiringError} : r.isOver = false →
      (askBinders c turn context r.chain r.binders).offer = .error e →
      Ends c turn context r ⟨.error e, (askBinders c turn context r.chain r.binders).notes⟩
  | stuck {r : Rounds} : r.isOver = false →
      (askBinders c turn context r.chain r.binders).offer = .ok none →
      Ends c turn context r
        ⟨r.resolution context, (askBinders c turn context r.chain r.binders).notes⟩
  | bound {r : Rounds} {o : Offer} {x : Settled} : r.isOver = false →
      (askBinders c turn context r.chain r.binders).offer = .ok (some o) →
      Ends c turn context
        (r.accept o (askBinders c turn context r.chain r.binders).binders) x →
      Ends c turn context r ⟨x.outcome, (askBinders c turn context r.chain r.binders).notes ++
        .bound (r.chain.extend o.desire) context :: x.events⟩

variable {c : Catalog} {turn fuel : Nat} {context : Context} {r : Rounds} {x y : Settled}
  {functions : List BindingFunction} {d : Desire} {res : Resolution}

theorem ends_of_run? (h : r.run? c turn context fuel = some x) : Ends c turn context r x := by
  induction fuel generalizing r x with
  | zero => simp [run?] at h
  | succ fuel ih =>
    rw [run?] at h
    split at h
    · rename_i hover
      rw [← Option.some.inj h]
      exact .ended hover
    · rename_i hover
      have hover : r.isOver = false := by simpa using hover
      dsimp only at h
      split at h
      · rename_i he
        rw [← Option.some.inj h]
        exact .failed hover he
      · rename_i hn
        rw [← Option.some.inj h]
        exact .stuck hover hn
      · rename_i ho
        obtain ⟨y, hy, rfl⟩ := Option.map_eq_some_iff.1 h
        exact .bound hover ho (ih hy)

theorem Ends.unique (h : Ends c turn context r x) (h' : Ends c turn context r y) : x = y := by
  induction h generalizing y with
  | ended h =>
    cases h' with
    | ended _ => rfl
    | failed h' _ | stuck h' _ | bound h' _ _ => simp [h] at h'
  | failed hover h =>
    cases h' with
    | ended h' => simp [hover] at h'
    | failed _ h' => rw [h] at h'; cases h'; rfl
    | stuck _ h' | bound _ h' _ => simp [h] at h'
  | stuck hover h =>
    cases h' with
    | ended h' => simp [hover] at h'
    | stuck _ _ => rfl
    | failed _ h' | bound _ h' _ => simp [h] at h'
  | bound hover h _ ih =>
    cases h' with
    | ended h' => simp [hover] at h'
    | failed _ h' | stuck _ h' => simp [h] at h'
    | bound _ h' hy =>
      rw [h] at h'
      cases h'
      rw [ih hy]

theorem Ends.initial (h : Ends c turn context r x) (hx : x.outcome = .ok res) :
    res.chain.initial = r.chain.initial := by
  have hresolution : ∀ r : Rounds, r.resolution context = .ok res →
      res.chain.initial = r.chain.initial := by
    intro r hr
    unfold resolution at hr
    split at hr
    · cases hr
      rfl
    · cases hr
  induction h with
  | ended _ | stuck _ _ => exact hresolution _ hx
  | failed _ _ => cases hx
  | bound _ _ _ ih => exact ih hx

theorem ends_of_settle (h : (settle c functions turn context d).outcome = .ok res) :
    ∃ x, Ends c turn context (start functions d) x ∧ x.outcome = .ok res := by
  unfold settle at h
  cases hx : (start functions d).run? c turn context (roundBound c functions) with
  | none =>
    rw [hx] at h
    cases h
  | some x =>
    rw [hx] at h
    exact ⟨x, ends_of_run? hx, h⟩

theorem initial_of_settle (h : (settle c functions turn context d).outcome = .ok res) :
    res.chain.initial = d := by
  obtain ⟨x, hends, hx⟩ := ends_of_settle h
  exact hends.initial hx

end Wiring.Rounds
