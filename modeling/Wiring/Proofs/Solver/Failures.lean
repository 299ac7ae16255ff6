import Wiring.Proofs.Solver.Paths
import Wiring.Proofs.Solver.Simulation

/-!
# Calls that fail leave no trace

A call that fails leaves the graph and the back-edges as they are. What else it changes, the pool
and the tags that are handed out, makes no difference to later calls: a run of calls goes on as it
would without those that fail.
-/

namespace Wiring.Solver

open Settings BackEdges

/-- Resolves root desires one after the other, and goes on where one fails. -/
def resolveAll (v : Solver) : List Desire → Dag.Fresh (List (Desire × Called Unit))
  | [] => return []
  | d :: ds => do
    let called ← v.resolve d
    let rest ← called.solver.resolveAll ds
    return (d, called) :: rest

def succeeded (call : Desire × Called Unit) : Bool := call.2.result.isOk

variable {s : Settings} {v u : Solver} {d : Desire} {ds : List Desire}

theorem run_resolveAll_cons (v : Solver) (d : Desire) (ds : List Desire) (tag : Nat) :
    ((v.resolveAll (d :: ds)).run tag).1 = (d, ((v.resolve d).run tag).1) ::
      ((((v.resolve d).run tag).1.solver.resolveAll ds).run ((v.resolve d).run tag).2).1 := by
  rw [resolveAll, StateT.run_bind]
  rfl

/-- Calls that succeed alike: the graphs are equal, and so are the back-edges, in any order. -/
structure SameCall (a b : Desire × Called Unit) : Prop where
  desire : a.1 = b.1
  left : a.2.result = .ok ()
  right : b.2.result = .ok ()
  graph : Dag.SameNode a.2.solver.graph b.2.solver.graph
  backEdges : a.2.solver.backEdges.Same b.2.solver.backEdges

theorem resolve_error {tag : Nat} {e : WiringError}
    (h : ((v.resolve d).run tag).1.result = .error e) :
    ((v.resolve d).run tag).1.solver.graph = v.graph ∧
      ((v.resolve d).run tag).1.solver.backEdges = v.backEdges := by
  obtain ⟨o, w', -, hresult, hsolver⟩ := v.exists_calls d tag
  rw [hresult] at h
  rw [hsolver]
  cases o with
  | error _ => exact ⟨rfl, rfl⟩
  | ok _ => cases h

def anyComponent : Components := ⟨fun _ => True, fun _ _ _ _ => trivial⟩

theorem aside_nil (c : Catalog) (K : Components) : Aside c K [] [] where
  wellBuilt := by simp
  covered := by simp
  fits := by simp
  head := by simp
  tail := by simp

theorem beside_fresh (s : Settings) (orders orders' : Nat → BackEdges.Order) (tag tag' : Nat) :
    Beside [] [] ((ofSettings s orders).run tag).1 ((ofSettings s orders').run tag').1 := by
  have hsame : Dag.SameNode ((ofSettings s orders).run tag).1.graph
      ((ofSettings s orders').run tag').1.graph :=
    Dag.sameNode_of_covers (sound_ofSettings s orders tag).wellBuilt
      (sound_ofSettings s orders' tag').wellBuilt BEq.rfl nofun nofun
  exact ⟨hsame.includes, joined_empty⟩

theorem succeeded_eq {call : Desire × Called Unit} {o : Attempt Unit} (h : call.2.result = o) :
    succeeded call = o.isOk := by
  unfold succeeded
  rw [h]

theorem resolveAll_same (hs : s.Unscripted) (hplain : s.catalog.Plain) (hv : v.Sound) (hu : u.Sound)
    (hvs : v.settings = s) (hus : u.settings = s) (hb : Beside [] [] v u) (tag tag' : Nat) :
    List.Forall₂ SameCall (((v.resolveAll ds).run tag).1.filter succeeded)
      ((u.resolveAll ((((v.resolveAll ds).run tag).1.filter succeeded).map (·.1))).run tag').1 := by
  induction ds generalizing v u tag tag' with
  | nil => exact .nil
  | cons d ds ih =>
    have hv' := hv.resolve d tag
    have hvs' : ((v.resolve d).run tag).1.solver.settings = s := by
      rw [settings_resolve, hvs]
    rw [run_resolveAll_cons, List.filter_cons]
    cases hresult : ((v.resolve d).run tag).1.result with
    | error e =>
      obtain ⟨hgraph, hback⟩ := resolve_error hresult
      rw [succeeded_eq hresult]
      refine ih hv' hu hvs' hus ⟨?_, ?_⟩ _ tag'
      · rw [hgraph]
        exact hb.root
      · rw [hback]
        exact hb.back
    | ok _ =>
      obtain ⟨hresult', hb'⟩ := resolve_beside (hvs ▸ hs) (hvs ▸ hplain)
        (aside_nil _ anyComponent) (absurd rfl) (hus.trans hvs.symm) hv hu hb hresult
        (fun _ _ => trivial) tag'
      have hus' : ((u.resolve d).run tag').1.solver.settings = s := by
        rw [settings_resolve, hus]
      rw [succeeded_eq hresult, Except.isOk, Except.toBool, if_pos rfl, List.map_cons,
        run_resolveAll_cons]
      exact .cons ⟨rfl, hresult, hresult', hb'.root.same, hb'.back.same⟩
        (ih hv' (hu.resolve d tag') hvs' hus' hb' _ _)

/-- A call that fails leaves the graph and the back-edges as they are. With the standard functions a
run of calls on a new solver goes on as it does without the calls that fail: after each of the
others the graph and the back-edges are equal, and these calls succeed in both runs. In which order
back-edges come when they get new keys may differ between the runs. -/
theorem resolveAll_without_failures (types : List TypeSpec) (qualifiers : List QualifierSpec)
    (given : List ScopedRule) (config : Config) (orders orders' : Nat → BackEdges.Order)
    (ds : List Desire) (tag tag' : Nat) :
    let s : Settings := .ofConfig (.freeze types qualifiers) given config
    let run := (do (← ofSettings s orders).resolveAll ds : Dag.Fresh _).run tag |>.1
    let ds' := (run.filter succeeded).map (·.1)
    let kept := (do (← ofSettings s orders').resolveAll ds' : Dag.Fresh _).run tag' |>.1
    (∀ (v : Solver) d t e, ((v.resolve d).run t).1.result = .error e →
      ((v.resolve d).run t).1.solver.graph = v.graph ∧
        ((v.resolve d).run t).1.solver.backEdges = v.backEdges) ∧
    List.Forall₂ SameCall (run.filter succeeded) kept := by
  intro s run ds' kept
  refine ⟨fun v d t e h => resolve_error h, ?_⟩
  have hs : s.Unscripted := BindingFunction.isScripted_standard _ given
  exact resolveAll_same hs (Catalog.plain_freeze types qualifiers) (sound_ofSettings s orders tag)
    (sound_ofSettings s orders' tag') rfl rfl (beside_fresh s orders orders' tag tag') _ _

end Wiring.Solver
