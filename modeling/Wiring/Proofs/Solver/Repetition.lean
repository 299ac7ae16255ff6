import Wiring.Proofs.Solver.Independence

/-!
# Resolving a root once more

A root that is resolved again is linked once more as a tree in which nothing is expanded yet. That
changes nothing where the tree hangs below the root node in this form already: then all that was put
off in it has back-edges. It changes nothing either where the desire closes no cycle on its own and
the desires stay out of each other's way: then the tree becomes what it was before.
-/

namespace Wiring

open Work Settings Catalog BackEdges

/-- Equal heads, in whatever order they come, with equal edges under each of them. -/
def BackEdges.Agree (b b' : BackEdges) : Prop :=
  Multiset.Rel (fun e f : Graph × List GraphEdge => (e.1 == f.1) = true ∧
      List.Forall₂ (fun edge edge' => (edge == edge') = true) e.2 f.2)
    (b.entries : Multiset (Graph × List GraphEdge)) b'.entries

/-- The tree of the desire hangs below the root node as it was resolved. -/
def Settings.Unexpanded (s : Settings) (d : Desire) (g : Graph) : Prop :=
  ∃ w edge w', Resolves s d .initial w (.ok edge) w' ∧ ∃ e ∈ g.edges, Dag.SameEdge edge e

variable {s : Settings} {v : Solver} {d : Desire} {ds : List Desire} {tag : Nat} {p : Pass}
  {f : Deferral} {w w' : Workspace} {o : Attempt Pass} {b b' k : BackEdges}
  {orders : Nat → BackEdges.Order}

/-! ## Back-edges -/

theorem BackEdges.Agree.refl (b : BackEdges) : b.Agree b :=
  Multiset.rel_refl_of_refl_on fun _ _ => ⟨BEq.rfl, List.forall₂_same.2 fun _ _ => by
    show (_ && _ && _) = true
    simp⟩

theorem BackEdges.SameBackEdge.beq {e f : GraphEdge} (h : SameBackEdge e f) : (e == f) = true := by
  show (e.head == f.head && e.tail == f.tail && e.label == f.label) = true
  rw [h.head.beq, h.tail.beq, h.label]
  rfl

theorem BackEdges.Joined.agree (h : Joined b.entries k b') (hk : k.entries = []) : b.Agree b' := by
  obtain ⟨xs, ys, hperm, hxs, hys⟩ := h.exists_split
  rw [hk, List.forall₂_nil_left_iff] at hys
  rw [hys, List.append_nil] at hperm
  unfold Agree
  rw [← Multiset.coe_eq_coe.2 hperm]
  exact rel_of_forall₂ (hxs.imp fun _ _ h => ⟨h.head.beq, h.edges.imp fun _ _ h => h.beq⟩)

/-! ## A tree that is there already -/

theorem Settings.runs_skipped
    (hskip : (p.backEdges.contains f.node || !p.root.reaches f.node) = true)
    (h : (s.processDeferral p f).Runs w o w') : o = .ok p ∧ w' = w := by
  unfold processDeferral at h
  dsimp only at h
  rw [if_pos hskip] at h
  exact runs_pure.1 h

theorem Settings.Drains.skipped (h : Drains s p w o w')
    (hskip : ∀ f ∈ w.queue, (p.backEdges.contains f.node || !p.root.reaches f.node) = true) :
    o = .ok p := by
  induction h with
  | done _ => rfl
  | failed hq hrun => exact (runs_skipped (hskip _ (hq ▸ List.mem_cons_self)) hrun).1
  | next hq hrun _ ih =>
    obtain ⟨he, rfl⟩ := runs_skipped (hskip _ (hq ▸ List.mem_cons_self)) hrun
    cases he
    exact ih fun f hf => hskip f (hq ▸ List.mem_cons_of_mem _ hf)

namespace Solver

theorem Sound.contains (h : v.Sound) {x : Graph} (hbare : Bare x.label x)
    (hneeds : v.settings.catalog.needs x ≠ []) (hroot : (x == v.graph) = false)
    (hreach : v.graph.reaches x = true) : v.backEdges.contains x = true := by
  obtain ⟨need, hneed⟩ := List.exists_mem_of_ne_nil _ hneeds
  rcases h.covered hbare.wellBuilt hroot hreach need hneed with ⟨e, he, -⟩ | ⟨e, he, -⟩
  · rw [hbare.edges] at he
    cases he
  · obtain ⟨entry, hentry, hbeq, -⟩ := mem_edgesOf he
    exact contains_iff.2 ⟨entry, hentry, hbeq⟩

theorem resolve_unexpanded (hs : v.settings.Unscripted) (hv : v.Sound)
    (hneeds : ∀ f, v.settings.Queued [d] f → v.settings.catalog.needs f.node ≠ [])
    (h : v.settings.Unexpanded d v.graph) (tag : Nat) :
    ((v.resolve d).run tag).1.result = .ok () ∧
      (v.graph == ((v.resolve d).run tag).1.solver.graph) = true ∧
      ((v.resolve d).run tag).1.solver.backEdges = v.backEdges := by
  obtain ⟨w, first, w', hfirst, e, he, hsame⟩ := h
  obtain ⟨o, w', hcalls, hresult, hsolver⟩ := v.exists_calls d tag
  rw [hresult, hsolver]
  rcases hcalls with hfails | ⟨hd, hmerge, hbuild, hdrains⟩
  · exact (hfirst.alike hs rfl hfails).elim
  rename_i edge node root w1 w2 w3
  obtain ⟨_, ho, hbeq, hnode, -, hqueue⟩ := raw_of_merge (hd.queues.pool (hv.poolBuilt tag))
    ((hd.tree_grown rfl).raw edge (by simp)) hmerge
  cases ho
  obtain ⟨hroot, rfl⟩ := runs_build.1 hbuild
  cases hroot
  have hlinked : (v.graph == withChild v.graph edge.1 node w2.nextTag) = true := by
    have halike : Dag.SameEdge first edge := hfirst.alike hs rfl hd
    have hee := hsame.symm.trans halike
    exact beq_withChild_of_mem hv.wellBuilt (hnode node (.self _)).wellBuilt he hee.label
      (Dag.beq_trans hee.tail.beq hbeq) _
  suffices hskip : ∀ f ∈ w2.queue, (v.backEdges.contains f.node ||
      !(withChild v.graph edge.1 node w2.nextTag).reaches f.node) = true by
    rw [hdrains.skipped hskip]
    exact ⟨rfl, hlinked, rfl⟩
  intro f hf
  have hputs := hd.putsOff rfl f (hqueue ▸ hf)
  have hbare := hputs.bare
  have hroot : (f.node == v.graph) = false := by
    rw [Bool.eq_false_iff]
    intro hbeq
    rw [(Dag.edges_eq_nil_iff hbeq).1 hbare.edges] at he
    cases he
  have hqueued : v.settings.Queued [d] f := .tree List.mem_cons_self hputs
  by_cases hreach : v.graph.reaches f.node = true
  · rw [hv.contains hbare (hneeds f hqueued) hroot hreach]
    rfl
  · have hw := withChild_wellBuilt hv.wellBuilt edge.1 (hnode node (.self _)).wellBuilt w2.nextTag
    have hcongr := Dag.SameNode.reaches_congr ⟨hlinked, hv.wellBuilt, hw⟩ (.refl hbare.wellBuilt)
    rw [← hcongr, Bool.eq_false_iff.2 hreach, Bool.or_comm]
    rfl

/-! ## A desire that closes no cycle -/

theorem Independent.again (hi : Independent s orders tag ds) (hd : d ∈ ds)
    (hloops : (alone s orders tag d).solver.backEdges.entries = []) :
    Independent s orders tag (d :: ds) := by
  have hsubset : ∀ d' ∈ d :: ds, d' ∈ ds := List.forall_mem_cons.2 ⟨hd, fun _ h => h⟩
  refine ⟨fun d' h => hi.root d' (hsubset d' h), fun d' h => hi.resolved d' (hsubset d' h),
    fun f hf => hi.needs f (hf.mono hsubset), List.pairwise_cons.2 ⟨fun d' hd' => ?_, hi.apart⟩⟩
  by_cases hdd : d = d'
  · subst hdd
    exact ⟨apart_of_entries hloops, apart_of_entries hloops⟩
  · exact hi.apart.forall hd hd' hdd

theorem Gathered.again (hs : s.Unscripted) (hplain : s.catalog.Plain)
    (h : Gathered s orders tag ds v) (hi : Independent s orders tag ds) (hd : d ∈ ds)
    (hloops : (alone s orders tag d).solver.backEdges.entries = []) (tag' : Nat) :
    ((v.resolve d).run tag').1.result = .ok () ∧
      (v.graph == ((v.resolve d).run tag').1.solver.graph) = true ∧
      v.backEdges.Agree ((v.resolve d).run tag').1.solver.backEdges := by
  obtain ⟨hok, hroot, hback⟩ := h.follow hs hplain (hi.again hd hloops) tag'
  refine ⟨hok, (Dag.sameNode_of_covers h.root.right hroot.right ?_ (fun e he => ?_)
    fun f hf => ?_).beq, hback.agree hloops⟩
  · have hlabel := BEq.trans (oneRoot_alone (hi.resolved d hd)).label hroot.label
    exact BEq.trans (BEq.symm h.root.label) hlabel
  · exact hroot.edge e (List.mem_append_right _ he)
  · obtain ⟨e, he, hef⟩ := hroot.origin f hf
    rcases List.mem_append.1 he with he | he
    · -- The edge to the root of the desire was there before.
      have hroots : e ∈ rootsOf s orders tag ds := List.mem_flatMap.2 ⟨d, hd, he⟩
      obtain ⟨g, hg, heg⟩ := h.root.edge e (List.mem_append_right _ hroots)
      exact ⟨g, hg, heg.symm.trans hef⟩
    · exact ⟨e, he, hef⟩

/-- Resolving a desire again succeeds, and leaves an equal graph and equal back-edges, if the tree
of the desire is below the root node with nothing expanded in it, or if the desire closes no cycle
on its own and those resolved before are independent. What may be put off needs something. -/
theorem resolve_again {types : List TypeSpec} {qualifiers : List QualifierSpec}
    {given : List ScopedRule} {config : Config}
    (hs : s = .ofConfig (.freeze types qualifiers) given config)
    (h : After s ds v) (hneeds : ∀ f, s.Queued [d] f → s.catalog.needs f.node ≠ [])
    (hd : s.Unexpanded d v.graph ∨
      d ∈ ds ∧ Independent s orders tag ds ∧
        (alone s orders tag d).solver.backEdges.entries = []) (tag' : Nat) :
    ((v.resolve d).run tag').1.result = .ok () ∧
      (v.graph == ((v.resolve d).run tag').1.solver.graph) = true ∧
      v.backEdges.Agree ((v.resolve d).run tag').1.solver.backEdges := by
  have hscript : s.Unscripted := hs ▸ BindingFunction.isScripted_standard _ given
  have hplain : s.catalog.Plain := hs ▸ Catalog.plain_freeze types qualifiers
  rcases hd with hd | ⟨hd, hi, hloops⟩
  · obtain ⟨hv, hvs⟩ := h.reachable.sound
    obtain ⟨hok, hgraph, hback⟩ :=
      resolve_unexpanded (hvs ▸ hscript) hv (hvs ▸ hneeds) (hvs ▸ hd) tag'
    exact ⟨hok, hgraph, hback ▸ .refl _⟩
  · exact (h.gathered hscript hplain hi).again hscript hplain hi hd hloops tag'

/-- A class that needs a provider, whose target is put off, and another class, resolved twice. -/
theorem resolve_again_nested :
    let c : Catalog := .freeze [⟨.named "A", true, [],
      [⟨some (.named "A"), "b", .provider (.named "B"), none, false⟩,
        ⟨some (.named "A"), "c", .named "C", none, false⟩], {}, .noPreference, none, none⟩,
      ⟨.named "B", true, [], [⟨some (.named "B"), "c", .named "C", none, false⟩], {}, .noPreference,
        none, none⟩,
      ⟨.named "C", true, [], [], {}, .noPreference, none, none⟩] []
    let s : Settings := .ofConfig c [] {}
    let a := c.rootDesire (.named "A") none
    let v := ((((ofSettings s).run 0).1.resolve a).run 1).1.solver
    Independent s (fun _ => .added) 0 [a] ∧ ((v.resolve a).run 2).1.result = .ok () ∧
      (v.graph == ((v.resolve a).run 2).1.solver.graph) = true ∧
      v.backEdges.Agree ((v.resolve a).run 2).1.solver.backEdges := by
  intro c s a v
  have hroot : ∀ d ∈ [a], ∃ t q, c.isInstantiable t = true ∧ d = c.rootDesire t q :=
    List.forall_mem_singleton.2 ⟨_, _, by decide +kernel, rfl⟩
  have hloops : ∀ d ∈ [a],
      (alone s (fun _ => .added) 0 d).solver.backEdges.entries.isEmpty = true := by
    subst v a s c
    decide +kernel
  have hi : Independent s (fun _ => .added) 0 [a] := by
    refine independent_of_definite (definite_of_types ?_ ?_) hroot ?_ (List.pairwise_singleton _ _)
    all_goals
      subst v a s c
      decide +kernel
  have hv : After s [a] v := .resolve a 1 (.fresh _ 0)
  have ha : a ∈ [a] := List.mem_singleton_self a
  have hs : s = .ofConfig c [] {} := rfl
  have hloop := List.isEmpty_iff.1 (hloops a ha)
  exact ⟨hi, resolve_again hs hv hi.needs (.inr ⟨ha, hi, hloop⟩) 2⟩

end Solver

end Wiring
