import Wiring.Solver
import Wiring.Proofs.Solver.Queue

/-!
# Calls without bounds

`Calls` says what resolving a root comes to: the tree of the desire is resolved, merged and linked
below the root node, and the queue is worked off to its end. There is one outcome, and it is what
the solver returns.
-/

namespace Wiring.Solver

open Work Settings

variable {s : Settings} {v : Solver} {d : Desire} {w w' : Workspace} {p : Pass}

inductive Calls (v : Solver) (d : Desire) (w : Workspace) : Attempt Pass → Workspace → Prop
  | unresolved {e : WiringError} {w' : Workspace} :
      Resolves v.settings d .initial w (.error e) w' → Calls v d w (.error e) w'
  | drained {edge : Resolved} {node root : Graph} {o : Attempt Pass} {w1 w2 w3 w' : Workspace} :
      Resolves v.settings d .initial w (.ok edge) w1 → (merge edge.2).Runs w1 (.ok node) w2 →
      (build (v.graph.copy.addEdge edge.1 node).build).Runs w2 (.ok root) w3 →
      Drains v.settings { root, backEdges := v.backEdges } w3 o w' → Calls v d w o w'

theorem Calls.unique {o o' : Attempt Pass} {w'' : Workspace} (h : Calls v d w o w')
    (h' : Calls v d w o' w'') : o = o' ∧ w' = w'' := by
  rcases h with h | ⟨hd, hmerge, hbuild, hdrains⟩
  · rcases h' with h' | ⟨hd', -, -, -⟩
    · obtain ⟨he, hw⟩ := h.unique h'
      cases he
      exact ⟨rfl, hw⟩
    · cases (h.unique hd').1
  · rcases h' with h' | ⟨hd', hmerge', hbuild', hdrains'⟩
    · cases (hd.unique h').1
    · obtain ⟨hedge, rfl⟩ := hd.unique hd'
      cases hedge
      obtain ⟨hnode, rfl⟩ := hmerge.unique hmerge'
      cases hnode
      obtain ⟨hroot, rfl⟩ := hbuild.unique hbuild'
      cases hroot
      exact hdrains.unique hdrains'

theorem deeper_of_resolves {c : Context} {o : Attempt Resolved} (hw : w.queue = [])
    (h : Resolves s d c w o w') : ∀ f ∈ w'.queue, s.Deeper c.depth f := by
  intro f hf
  have hf := h.putsOff hw f hf
  exact ⟨hf.depth.1, hf.depth.2, hf.bare⟩

theorem calls_of_runs {o : Attempt (Graph × BackEdges × Component)} (hw : w.queue = [])
    (h : (v.resolveRoot d).Runs w o w') :
    ∃ x pre, Calls v d w x (w'.behind pre) ∧
      o.map (fun r => (r.1, r.2.1)) = x.map fun p => (p.root, p.backEdges) := by
  unfold resolveRoot at h
  rcases runs_bind.1 h with ⟨edge, w1, hd, h⟩ | ⟨e, rfl, hd⟩
  · have hd := resolves_of_runs hd
    rcases runs_bind.1 h with ⟨node, w2, hmerge, h⟩ | ⟨_, _, hmerge⟩
    · have hqueue : ∀ f ∈ w2.queue, v.settings.Deeper 0 f := by
        obtain ⟨_, rfl⟩ := runs_merge.1 hmerge
        exact deeper_of_resolves hw hd
      rcases runs_bind.1 h with ⟨root, w3, hbuild, h⟩ | ⟨_, _, hbuild⟩
      · have hqueue : ∀ f ∈ w3.queue, v.settings.Deeper 0 f := by
          obtain ⟨_, rfl⟩ := runs_build.1 hbuild
          exact hqueue
        rcases runs_bind.1 h with ⟨⟨g, b⟩, w4, hrest, hpure⟩ | ⟨e, rfl, hrest⟩
        · obtain ⟨rfl, rfl⟩ := runs_pure.1 hpure
          obtain ⟨x, pre, hdrains, hx⟩ := drains_of_processDeferrals hqueue hrest
          exact ⟨x, pre, .drained hd hmerge hbuild hdrains, hx⟩
        · obtain ⟨x, pre, hdrains, hx⟩ := drains_of_processDeferrals hqueue hrest
          refine ⟨x, pre, .drained hd hmerge hbuild hdrains, ?_⟩
          rw [← hx]
          rfl
      · cases (runs_build.1 hbuild).1
    · cases (runs_merge.1 hmerge).1
  · exact ⟨.error e, [], .unresolved (resolves_of_runs hd), rfl⟩

/-! ## What a call returns -/

theorem run_perform {α : Type} {work : Work α} {o : Attempt α} {tag : Nat}
    (h : work.Runs (v.workspace tag) o w') :
    (v.perform work).run tag = (⟨o, { v with pool := w'.pool }, w'.events⟩, w'.nextTag) := by
  obtain ⟨rfl, rfl⟩ := h
  rfl

theorem run_resolve_ok {g : Graph} {b : BackEdges} {l : Component} {tag : Nat}
    (h : (v.resolveRoot d).Runs (v.workspace tag) (.ok (g, b, l)) w') :
    (v.resolve d).run tag = (⟨.ok (), { v with pool := w'.pool, graph := g, backEdges := b },
      .resolving d :: w'.events ++ [.resolved d l]⟩, w'.nextTag) := by
  unfold resolve
  rw [StateT.run_bind, run_perform h]
  rfl

theorem run_resolve_error {e : WiringError} {tag : Nat}
    (h : (v.resolveRoot d).Runs (v.workspace tag) (.error e) w') :
    (v.resolve d).run tag = (⟨.error e, { v with pool := w'.pool },
      .resolving d :: w'.events ++ [.failed d e]⟩, w'.nextTag) := by
  unfold resolve
  rw [StateT.run_bind, run_perform h]
  rfl

/-- The solver that a call leaves. If it fails, the graph and the back-edges stay as they are. -/
def keep (v : Solver) (pool : GraphPool) : Attempt Pass → Solver
  | .ok p => { v with pool, graph := p.root, backEdges := p.backEdges }
  | .error _ => { v with pool }

theorem exists_calls (v : Solver) (d : Desire) (tag : Nat) :
    ∃ o w', Calls v d (v.workspace tag) o w' ∧
      ((v.resolve d).run tag).1.result = o.map (fun _ => ()) ∧
      ((v.resolve d).run tag).1.solver = v.keep w'.pool o := by
  have hrun := runs_self (v.resolveRoot d) (v.workspace tag)
  revert hrun
  generalize ((v.resolveRoot d).run.run (v.workspace tag)).1 = o
  generalize ((v.resolveRoot d).run.run (v.workspace tag)).2 = w'
  intro hrun
  obtain ⟨x, pre, hcalls, hx⟩ := calls_of_runs rfl hrun
  refine ⟨x, _, hcalls, ?_⟩
  rcases o with e | ⟨g, b, l⟩
  · rw [run_resolve_error hrun]
    cases x with
    | error =>
      cases hx
      exact ⟨rfl, rfl⟩
    | ok => cases hx
  · rw [run_resolve_ok hrun]
    cases x with
    | error => cases hx
    | ok =>
      cases hx
      exact ⟨rfl, rfl⟩

end Wiring.Solver
