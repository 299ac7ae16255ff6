import Wiring.Proofs.Catalog.Hierarchy
import Wiring.Proofs.Solver.Calls
import Wiring.Proofs.Solver.Narrowings

/-!
# Resolving ends

With the standard functions a call ends, whatever the catalog declares and whatever the solver holds
already. The three loops in it end for reasons of their own: desires of a chain run out, contexts
grow as deep as the settings allow, and deferrals put off later are deeper.
-/

namespace Wiring.Solver

open Work Settings

/-- With the standard functions walks up the hierarchy, binding rounds and resolving a desire with
its dependencies come to exactly one end, from wherever they start, and so does a call, which
returns it and leaves the solver that goes with it. -/
theorem resolve_ends (catalog : Catalog) (given : List ScopedRule) (config : Config) (graph : Graph)
    (backEdges : BackEdges) (pool : GraphPool) (orders : Nat → BackEdges.Order) :
    let v : Solver := ⟨.ofConfig catalog given config, graph, backEdges, pool, orders⟩
    (∀ t types, catalog.Climbs 0 [t] [t] types ↔ types = catalog.ascent t) ∧
    (∀ turn context d x, Rounds.Ends catalog turn context (.start v.settings.functions d) x ↔
      x = settle catalog v.settings.functions turn context d) ∧
    (∀ d context w, ∃ o w', ∀ o' w'',
      v.settings.Resolves d context w o' w'' ↔ o' = o ∧ w'' = w') ∧
    ∀ d tag, ∃ o w',
      (∀ o' w'', v.Calls d (v.workspace tag) o' w'' ↔ o' = o ∧ w'' = w') ∧
      ((v.resolve d).run tag).1.result = o.map (fun _ => ()) ∧
      ((v.resolve d).run tag).1.solver = v.keep w'.pool o := by
  intro v
  refine ⟨fun t types => ?_, fun turn context d x => ?_, fun d context w => ?_, fun d tag => ?_⟩
  · have hclimbs := catalog.climbs_ascent t
    refine ⟨fun h => h.unique hclimbs, ?_⟩
    rintro rfl
    exact hclimbs
  · have hends : Rounds.Ends catalog turn context (.start v.settings.functions d) _ :=
      Rounds.ends_settle (BindingFunction.isScripted_standard catalog given)
    refine ⟨fun h => h.unique hends, ?_⟩
    rintro rfl
    exact hends
  · have hresolves := resolves_of_runs (runs_self (v.settings.resolveFully d context) w)
    refine ⟨_, _, fun o' w'' => ⟨fun h => h.unique hresolves, ?_⟩⟩
    rintro ⟨rfl, rfl⟩
    exact hresolves
  · obtain ⟨o, w', hcalls, hreturns⟩ := exists_calls v d tag
    refine ⟨o, w', fun o' w'' => ⟨fun h => h.unique hcalls, ?_⟩, hreturns⟩
    rintro ⟨rfl, rfl⟩
    exact hcalls

end Wiring.Solver
