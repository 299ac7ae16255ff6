import Wiring.Proofs.Solver.Calls
import Wiring.Proofs.Solver.Deferral

/-!
# The resolved state

What holds of the graph and the back-edges of a solver after any calls, successful or not.
-/

namespace Wiring.Solver

open Work Settings Catalog

variable {s : Settings} {v : Solver} {d : Desire} {w w' : Workspace}
  {p : Pass}

/-- The solvers that calls lead to from one that has resolved nothing, whatever tags are handed out
meanwhile and in whatever orders back-edges come. -/
inductive Reachable (s : Settings) : Solver → Prop
  | fresh (orders : Nat → BackEdges.Order) (tag : Nat) : Reachable s ((ofSettings s orders).run tag).1
  | resolve {v : Solver} (d : Desire) (tag : Nat) :
      Reachable s v → Reachable s ((v.resolve d).run tag).1.solver

/-- The graph and the back-edges of a solver between two calls. -/
structure Sound (v : Solver) : Prop extends
    Wired v.settings.catalog (fun _ => False) [] v.graph v.backEdges where
  pool : ∀ n ∈ v.pool.nodes, n.WellBuilt

theorem Sound.link {q : List Deferral} {node : Graph} {dep : Dependency} (h : v.Sound)
    (hnode : ∀ y, node.Has y → v.settings.catalog.Raw (Waits q) y)
    (tag : Nat) :
    Pass.Idle v.settings.catalog q
      { root := withChild v.graph dep node tag, backEdges := v.backEdges } := by
  have hnew : (withChild v.graph dep node tag).WellBuilt :=
    withChild_wellBuilt h.wellBuilt dep (hnode node (.self _)).wellBuilt tag
  refine ⟨⟨hnew, ?_, fun y hy hne => ?_, fun e he => ?_, fun e he f hf => ?_⟩, ?_, by simp⟩
  · rw [needs_withChild]
    exact h.needs
  · rcases hy.eq_or_below with rfl | ⟨e, he, hy⟩
    · simp at hne
    · rcases mem_withChild he with he | rfl
      · obtain ⟨hdeclared, hcovered | ⟨_, _, hf, _⟩ | hfalse⟩ :=
          h.node y (.step he hy) (Dag.Has.not_root h.wellBuilt (.self _) he hy)
        · exact ⟨hdeclared, .inl hcovered⟩
        · simp at hf
        · exact hfalse.elim
      · obtain ⟨_, hdeclared, hcomplete⟩ := hnode y hy
        exact ⟨hdeclared, hcomplete.imp Complete.covered .inl⟩
  · obtain ⟨hw, ⟨edge, hedge, hreach⟩, hcovered⟩ := h.head e he
    exact ⟨hw, ⟨edge, subset_withChild hedge, hreach⟩, hcovered⟩
  · obtain ⟨hhead, hdeclared, hw, htail⟩ := h.edge e he f hf
    refine ⟨hhead, hdeclared, hw, htail.imp_left ?_⟩
    rintro ⟨edge, hedge, hreach⟩
    exact ⟨edge, subset_withChild hedge, hreach⟩
  · obtain ⟨e, he, _⟩ := exists_withChild v.graph dep node tag
    exact List.ne_nil_of_mem he

/-! ## Calls keep it -/

theorem sound_ofSettings (s : Settings) (orders : Nat → BackEdges.Order) (tag : Nat) :
    ((ofSettings s orders).run tag).1.Sound := by
  refine ⟨⟨Dag.Draft.Ready.build ⟨.nil, by simp⟩ tag, rfl, fun y hy hne => ?_, ?_, ?_⟩, ?_⟩
  · rcases hy.eq_or_below with rfl | ⟨e, he, _⟩
    · simp at hne
    · cases he
  · exact fun e he => by cases he
  · exact fun e he => by cases he
  · exact fun n hn => by cases hn

theorem Sound.ready (h : v.Sound) {edge : Resolved} {node : Graph} {w1 : Workspace}
    (hd : Resolves v.settings d .initial w (.ok edge) w1) (hw : w.queue = [])
    (hnode : ∀ y, node.Has y → v.settings.catalog.Raw (Waits w1.queue) y) (w2 : Workspace)
    (hpool : PoolBuilt w2) (hqueue : w2.queue = w1.queue) (dep : Dependency) (tag : Nat) :
    Pass.Ready v.settings w2
      { root := withChild v.graph dep node tag, backEdges := v.backEdges } where
  pool := hpool
  bare f hf := (deeper_of_resolves hw hd f (hqueue ▸ hf)).bare
  idle := hqueue ▸ h.link hnode tag

/-- A call that succeeds links the node of a tree below the root node and works off what was put off
in the tree. -/
theorem Calls.linked (hv : v.Sound) (hpool : PoolBuilt w) (hw : w.queue = [])
    (h : v.Calls d w (.ok p) w') :
    ∃ edge node tag w1 w2, Resolves v.settings d .initial w (.ok edge) w1 ∧
      (edge.2 == node) = true ∧ node.WellBuilt ∧ w2.queue = w1.queue ∧
      Pass.Ready v.settings w2
        { root := withChild v.graph edge.1 node tag, backEdges := v.backEdges } ∧
      Drains v.settings
        { root := withChild v.graph edge.1 node tag, backEdges := v.backEdges } w2 (.ok p) w' := by
  rcases h with _ | ⟨hd, hmerge, hbuild, hdrains⟩
  rename_i edge node root w1 w2 w3
  obtain ⟨_, hnode', hbeq, hnode, hpool2, hqueue2⟩ := raw_of_merge (hd.queues.pool hpool)
    ((hd.tree_grown rfl).raw edge (by simp)) hmerge
  cases hnode'
  obtain ⟨hroot, rfl⟩ := runs_build.1 hbuild
  cases hroot
  have hready := hv.ready hd hw hnode { w2 with nextTag := w2.nextTag + 1 } hpool2 hqueue2
    edge.1 w2.nextTag
  exact ⟨edge, node, w2.nextTag, w1, { w2 with nextTag := w2.nextTag + 1 }, hd, hbeq,
    (hnode node (.self _)).wellBuilt, hqueue2, hready, hdrains⟩

theorem Calls.pool {o : Attempt Pass} (hpool : PoolBuilt w) (h : v.Calls d w o w') :
    PoolBuilt w' := by
  rcases h with hd | ⟨hd, hmerge, hbuild, hdrains⟩
  · exact hd.queues.pool hpool
  · have hmerged := (queues_merge (P := fun _ => True) (tree_wellBuilt hd) hmerge).pool
      (hd.queues.pool hpool)
    obtain ⟨_, rfl⟩ := runs_build.1 hbuild
    exact hdrains.pool hmerged

theorem Sound.poolBuilt (h : v.Sound) (tag : Nat) : PoolBuilt (v.workspace tag) :=
  h.pool

theorem Sound.calls (h : v.Sound) (hpool : PoolBuilt w) (hw : w.queue = [])
    (hcalls : v.Calls d w (.ok p) w') :
    Wired v.settings.catalog (fun _ => False) [] p.root p.backEdges := by
  obtain ⟨_, _, _, _, _, -, -, -, -, hready, hdrains⟩ := hcalls.linked h hpool hw
  exact (hdrains.sound hready rfl).toWired

theorem Sound.resolve (h : v.Sound) (d : Desire) (tag : Nat) :
    ((v.resolve d).run tag).1.solver.Sound := by
  obtain ⟨o, w', hcalls, -, hsolver⟩ := v.exists_calls d tag
  have hpool := hcalls.pool (h.poolBuilt tag)
  rw [hsolver]
  cases o with
  | error e => exact ⟨h.toWired, hpool⟩
  | ok p => exact ⟨h.calls (h.poolBuilt tag) rfl hcalls, hpool⟩

theorem settings_resolve (v : Solver) (d : Desire) (tag : Nat) :
    ((v.resolve d).run tag).1.solver.settings = v.settings := by
  obtain ⟨o, w', -, -, hsolver⟩ := v.exists_calls d tag
  rw [hsolver]
  cases o <;> rfl

theorem Reachable.sound (h : Reachable s v) : v.Sound ∧ v.settings = s := by
  induction h with
  | fresh orders tag => exact ⟨sound_ofSettings s orders tag, rfl⟩
  | resolve d tag _ ih => exact ⟨ih.1.resolve d tag, (settings_resolve _ d tag).trans ih.2⟩

/-- After any calls the heads of back-edges are nodes of the graph, the edges under a head leave it
for declared dependencies, and every node of the graph has edges or back-edges for its declared
dependencies, and edges for nothing else. -/
theorem state_of_reachable (h : Reachable s v) :
    (∀ entry ∈ v.backEdges.entries, v.graph.reaches entry.1 = true) ∧
    (∀ entry ∈ v.backEdges.entries, ∀ e ∈ entry.2, (e.head == entry.1) = true) ∧
    (∀ entry ∈ v.backEdges.entries, ∀ e ∈ entry.2,
      ∃ d ∈ s.catalog.needs entry.1, (e.label.initial == d) = true) ∧
    ∀ g, v.graph.Has g → (g == v.graph) = false →
      s.catalog.Covered v.backEdges g ∧ s.catalog.Declared g := by
  obtain ⟨hsound, rfl⟩ := h.sound
  refine ⟨fun entry hentry => ?_, fun entry hentry e he => ?_, fun entry hentry e he => ?_,
    fun g hg hne => ?_⟩
  · obtain ⟨_, hunder, _⟩ := hsound.head entry hentry
    exact hunder.reaches
  · exact (hsound.edge entry hentry e he).head
  · exact (hsound.edge entry hentry e he).declared
  · obtain ⟨hdeclared, hcovered | ⟨_, _, hf, _⟩ | hfalse⟩ := hsound.node g hg hne
    · exact ⟨hcovered, hdeclared⟩
    · simp at hf
    · exact hfalse.elim

/-- A class and a provider of it in a cycle, resolved once. -/
theorem state_of_ring :
    let ring : Catalog := .freeze [⟨.named "A", true, [], [⟨none, "next", .provider (.named "A"),
      none, false⟩], {}, .noPreference, none, none⟩] []
    let s : Settings := .ofConfig ring [] {}
    let v := ((((ofSettings s).run 0).1.resolve (ring.rootDesire (.named "A") none)).run 1).1.solver
    Reachable s v ∧ (∀ entry ∈ v.backEdges.entries, v.graph.reaches entry.1 = true) ∧
    ∀ g, v.graph.Has g → (g == v.graph) = false → ring.Covered v.backEdges g := by
  intro ring s v
  have hv : Reachable s v := .resolve (ring.rootDesire (.named "A") none) 1 (.fresh _ 0)
  obtain ⟨hkeys, -, -, hnodes⟩ := state_of_reachable hv
  exact ⟨hv, hkeys, fun g hg hne => (hnodes g hg hne).1⟩

end Wiring.Solver
