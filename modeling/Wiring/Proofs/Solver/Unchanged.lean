import Wiring.Proofs.Solver.Revision
import Wiring.Proofs.Solver.Standing

/-!
# Revisions that change nothing

Where every edge is what its desire comes to in the context of the path to it, an edge that is
resolved again on the way of the walk comes out as it was.
-/

namespace Wiring

open Work Settings
open Dag (SameNode SameEdge)

variable {s : Settings} {v : Solver} {d : Desire} {c : Context} {g g' x : Graph} {e f : Resolved}
  {r : Revision} {w w' : Workspace}

namespace Settings

theorem Made.redone (hs : s.Unscripted) (h : s.Made c e) (hf : Redone s e.1.initial c f) :
    SameEdge e f := by
  obtain ⟨u, u', edge, hd, hq, hsame⟩ := h
  cases hf with
  | @mk w w1 w2 w3 dep tree node b p hempty hpool hd' hmerge hdrains =>
    have halike : SameEdge edge (dep, tree) := hd.alike hs rfl hd'
    -- Nothing was put off then, so nothing is now, and the merged tree is the outcome.
    have hqueue : w1.queue = [] := by
      obtain ⟨fs, gs, hfs, hgs, hput⟩ := hd.putAlike hs hd'
      have hnone : fs = [] := List.self_eq_append_right.1 (hq.symm.trans hfs)
      subst hnone
      rw [hgs, hempty, List.forall₂_nil_left_iff.1 hput, List.append_nil]
    obtain ⟨hnode, rfl⟩ := runs_merge.1 hmerge
    cases hnode
    have hmerged : SameNode tree ((w1.pool.merge tree).run w1.nextTag).1.1 :=
      Dag.sameNode_merge (hd'.queues.pool hpool) halike.right w1.nextTag
    obtain ⟨hdrained, -⟩ := hdrains.idle hqueue
    cases hdrained
    exact hsame.symm.trans (halike.trans (.of_tail BEq.rfl hmerged))

theorem Walks.stands (h : Walks s g x c) (hg : Stands s g .initial) : Stands s x c := by
  induction h with
  | root => exact hg
  | step _ he _ ih => exact ih.onward he

theorem Stands.spares (hs : s.Unscripted) (h : Stands s g .initial) (hg : g.WellBuilt)
    (hr : r.AllStaged s g) : Dag.Spares r.replacement? g := by
  intro x hx e he k hk
  obtain ⟨p, hp, hkey, rfl⟩ := Revision.replacement?_eq_some hk
  obtain ⟨c, hstaged⟩ := hr p hp
  -- The walk met the key in a context of the graph, where the key stands as well.
  have hsame : SameEdge (p.1.label, p.1.tail) (p.2.label, p.2.tail) :=
    ((hstaged.walks.stands h).made hstaged.mem).redone hs hstaged.redone
  obtain ⟨-, htail, hl⟩ := (Dag.Edge.beq_iff _ _).1 hkey
  have hedge : SameEdge (p.1.label, p.1.tail) e :=
    .of_tail hl ⟨htail, hsame.left, (hx.wellBuilt hg).tail he⟩
  exact hedge.symm.trans hsame

end Settings

namespace Solver

theorem same_of_reviseWork (hs : v.settings.Unscripted) (hstands : Stands v.settings g .initial)
    (hg : g.WellBuilt) (hpool : PoolBuilt w) {b : BackEdges}
    (h : (v.reviseWork g).Runs w (.ok (g', b)) w') : (g' == g) = true := by
  unfold reviseWork at h
  simp only [runs_bind_ok] at h
  obtain ⟨r, w1, hwalk, staged, w2, htransform, ⟨_, pool⟩, w3, hgiven, ⟨_, _⟩, w4, hmerge,
    hpure⟩ := h
  obtain ⟨hr, -⟩ := staged_of_reviseNode hpool hwalk
  have hstaged := Dag.transform_same hg (hstands.spares hs hg hr) w1.nextTag
  obtain ⟨hresult, -⟩ := runs_build.1 htransform
  cases hresult
  obtain ⟨-, -, hbuilt⟩ :=
    Dag.Pool.merge_spec (p := .empty) (by simp [Dag.Pool.empty]) hg w2.nextTag
  obtain ⟨hresult, -⟩ := runs_build.1 hgiven
  cases hresult
  have hrevised := Dag.sameNode_merge hbuilt hstaged.right w3.nextTag
  obtain ⟨hresult, -⟩ := runs_build.1 hmerge
  cases hresult
  obtain ⟨hresult, -⟩ := runs_pure.1 hpure
  cases hresult
  exact (hstaged.trans hrevised).symm.beq

theorem Calm.revise (hs : s.TypedRules) (h : Calm s v) {tag : Nat}
    (hok : ((v.revise v.graph).run tag).1.result = .ok g') : (g' == v.graph) = true := by
  obtain ⟨hsound, rfl⟩ := h.reachable.sound
  rcases v.revise_cases v.graph tag with ⟨e, herror, -⟩ | ⟨g'', b, w', hrun, hresult⟩
  · rw [hok] at herror
    cases herror
  · rw [hok] at hresult
    cases hresult
    exact same_of_reviseWork hs.unscripted (h.standing hs).stands hsound.wellBuilt
      (hsound.poolBuilt tag) hrun

/-- Where nothing was put off and every injected provider in the rules and the desires has the type
of a provider of what it serves, revising the graph of a solver gives an equal graph, whatever the
triggers have an opinion on. -/
theorem same_of_revise {types : List TypeSpec} {qualifiers : List QualifierSpec}
    {given : List ScopedRule} {config : Config} {triggers : List BindingFunction} {tag : Nat}
    (hgiven : ∀ a ∈ given, a.rule.target.Typed)
    (h : Calm { ofConfig (.freeze types qualifiers) given config with triggers } v)
    (hok : ((v.revise v.graph).run tag).1.result = .ok g') : (g' == v.graph) = true := by
  refine h.revise ⟨?_, ?_, ?_⟩ hok
  · exact BindingFunction.isScripted_standard _ given
  · exact typedTargets_standard hgiven
  · exact Catalog.frozen_freeze types qualifiers

/-- A class with a dependency on an interface that a rule binds, where a trigger has an opinion on
everything. -/
theorem same_of_revise_bound :
    let types : List TypeSpec :=
      [⟨.named "A", true, [], [⟨none, "b", .named "I", none, false⟩], {}, .noPreference, none, none⟩,
        ⟨.named "B", true, [.named "I"], [], {}, .noPreference, none, none⟩,
        ⟨.named "I", false, [], [], {}, .noPreference, none, none⟩]
    let given : List ScopedRule :=
      [⟨.any, ⟨.named "I", .any, .type (.named "B"), .noPreference, {}⟩⟩]
    let s : Settings := { ofConfig (.freeze types []) given {} with
      triggers := [.chosen [.offer none .noPreference {}] fun _ _ => some 0] }
    let v := (((ofSettings s).run 0).1.resolve (s.catalog.rootDesire (.named "A") none)).run 1
    (∀ a ∈ given, a.rule.target.Typed) ∧ Calm s v.1.solver ∧
      ∃ g', ((v.1.solver.revise v.1.solver.graph).run v.2).1.result = .ok g' ∧
        (g' == v.1.solver.graph) = true := by
  intro types given s v
  have hgiven : ∀ a ∈ given, a.rule.target.Typed := by
    intro a ha
    rw [List.mem_singleton.1 ha]
    trivial
  have hqueue : ((s.resolveFully (s.catalog.rootDesire (.named "A") none) .initial).run.run
      (((ofSettings s).run 0).1.workspace 1)).2.queue = [] := by
    subst s given types
    decide +kernel
  have hcalm : Calm s v.1.solver := by
    subst v
    exact .resolve _ 1 (.fresh _ 0) (s.catalog.typed_desire _ _) hqueue
  have hok : ((v.1.solver.revise v.1.solver.graph).run v.2).1.result.isOk = true := by
    subst v s given types
    decide +kernel
  clear_value v
  cases hresult : ((v.1.solver.revise v.1.solver.graph).run v.2).1.result with
  | error e =>
    rw [hresult] at hok
    cases hok
  | ok g' =>
    have hsame : (g' == v.1.solver.graph) = true :=
      @same_of_revise _ _ types [] given {} _ v.2 hgiven hcalm hresult
    exact ⟨hgiven, hcalm, g', rfl, hsame⟩

end Solver

end Wiring
