import Wiring.Proofs.Solver.Agreement
import Wiring.Proofs.Solver.Failing

/-!
# Solvers with the same rules in another order

Two solvers are asked the same, one with the rules of the other in another order. After every call
their graphs and back-edges are equal, and every call has the same result, where of several tied
rules an error may list them in another order.
-/

namespace Wiring.Solver

open Settings BackEdges

variable {s : Settings} {v v' : Solver} {given given' : List ScopedRule}

/-- Solvers of two settings after the same calls, whatever tags each hands out, and in whatever
order the back-edges of each come when they get new keys. -/
inductive InStep (s s' : Settings) : Solver → Solver → Prop
  | fresh (orders orders' : Nat → BackEdges.Order) (tag tag' : Nat) :
      InStep s s' ((ofSettings s orders).run tag).1 ((ofSettings s' orders').run tag').1
  | resolve {v v' : Solver} (d : Desire) (tag tag' : Nat) : InStep s s' v v' →
      InStep s s' ((v.resolve d).run tag).1.solver ((v'.resolve d).run tag').1.solver

/-- The second solver is one with the settings of the first that holds the same, but for its
functions. -/
structure Mirrors (s : Settings) (fs : List BindingFunction) (v u v' : Solver) : Prop where
  left : v.Sound ∧ v.settings = s
  right : u.Sound ∧ u.settings = s
  same : Beside [] [] v u
  functions : v' = u.withFunctions fs

theorem InStep.mirrors {fs : List BindingFunction} (hs : s.Unscripted) (hplain : s.catalog.Plain)
    (hlike : s.SettlesLike fs) (h : InStep s (s.withFunctions fs) v v') :
    ∃ u, Mirrors s fs v u v' := by
  induction h with
  | fresh orders orders' tag tag' =>
    exact ⟨((ofSettings s orders').run tag').1, ⟨sound_ofSettings s orders tag, rfl⟩,
      ⟨sound_ofSettings s orders' tag', rfl⟩, beside_fresh s orders orders' tag tag', rfl⟩
  | @resolve v v' d tag tag' _ ih =>
    obtain ⟨u, ⟨hv, rfl⟩, ⟨hu, hus⟩, hsame, rfl⟩ := ih
    obtain ⟨-, hafter⟩ := resolve_same hs hplain hus hv hu hsame d tag tag'
    obtain ⟨-, hfunctions⟩ := resolve_withFunctions (hus ▸ hlike) d tag'
    exact ⟨((u.resolve d).run tag').1.solver, ⟨hv.resolve d tag, settings_resolve _ d tag⟩,
      ⟨hu.resolve d tag', (settings_resolve _ d tag').trans hus⟩, hafter, hfunctions⟩

/-- With the standard functions the order in which rules are given makes no difference, where equal
targets of rules that serve the same are the same: after the same calls two solvers hold equal
graphs and equal back-edges, and what is asked next has the same result in both. -/
theorem same_of_perm (types : List TypeSpec) (qualifiers : List QualifierSpec) (config : Config)
    (hperm : given.Perm given') (hgiven : Distinguished given)
    (h : InStep (.ofConfig (.freeze types qualifiers) given config)
      (.ofConfig (.freeze types qualifiers) given' config) v v') :
    Dag.SameNode v.graph v'.graph ∧
      v.backEdges.Same v'.backEdges ∧
      ∀ (d : Desire) (tag tag' : Nat), Alike Reordered Eq ((v.resolve d).run tag).1.result
        ((v'.resolve d).run tag').1.result := by
  have hs : Unscripted (.ofConfig (.freeze types qualifiers) given config) :=
    BindingFunction.isScripted_standard _ given
  have hplain : (Catalog.freeze types qualifiers).Plain := Catalog.plain_freeze types qualifiers
  have hlike : SettlesLike (.ofConfig (.freeze types qualifiers) given config)
      (BindingFunction.standard (.freeze types qualifiers) given') :=
    fun turn context d => settle_reordered hs (sameOffers_standard hgiven hperm _)
  obtain ⟨u, ⟨hv, hvs⟩, ⟨hu, hus⟩, hsame, rfl⟩ := InStep.mirrors hs hplain hlike h
  refine ⟨hsame.root.same, hsame.back.same, fun d tag tag' => ?_⟩
  obtain ⟨hresult, -⟩ :=
    resolve_same (hvs ▸ hs) (hvs ▸ hplain) (hus.trans hvs.symm) hv hu hsame d tag tag'
  obtain ⟨halike, -⟩ := resolve_withFunctions (hus ▸ hlike) d tag'
  rwa [hresult] at halike

/-- Two rules for one interface that are tied, in either order. -/
theorem same_of_perm_tied :
    let c : Catalog := .freeze [⟨.named "I", false, [], [], {}, .noPreference, none, none⟩,
      ⟨.named "A", true, [.named "I"], [], {}, .noPreference, none, none⟩,
      ⟨.named "B", true, [.named "I"], [], {}, .noPreference, none, none⟩] []
    let a : ScopedRule := ⟨.any, .named "I", .default, .type (.named "A"), .noPreference, {}⟩
    let b : ScopedRule := ⟨.any, .named "I", .default, .type (.named "B"), .noPreference, {}⟩
    let d := c.rootDesire (.named "I") none
    let v := ((ofSettings (.ofConfig c [a, b] {})).run 0).1
    let v' := ((ofSettings (.ofConfig c [b, a] {})).run 1).1
    [a, b].Perm [b, a] ∧ Distinguished [a, b] ∧
      InStep (.ofConfig c [a, b] {}) (.ofConfig c [b, a] {}) v v' ∧
      Alike Reordered Eq ((v.resolve d).run 1).1.result ((v'.resolve d).run 2).1.result := by
  intro c a b d v v'
  have hperm : [a, b].Perm [b, a] := .swap b a []
  have hgiven : Distinguished [a, b] :=
    distinguished_of_typed (List.forall_mem_cons.mpr ⟨trivial, List.forall_mem_singleton.mpr trivial⟩)
  have h : InStep (.ofConfig c [a, b] {}) (.ofConfig c [b, a] {}) v v' := .fresh _ _ 0 1
  exact ⟨hperm, hgiven, h, (same_of_perm _ _ _ hperm hgiven h).2.2 d 1 2⟩

end Wiring.Solver
