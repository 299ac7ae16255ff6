import Wiring.Proofs.Dag.Same
import Wiring.Proofs.Solver.Representation

/-!
# What every step of a pass keeps

A pass changes in four ways: a cycle is closed, a node is replaced by one with another child, a node
gets the children of an equal one, and the children of a node are noted. What each of these keeps
holds of the pass at the end of the queue if it held when the root was linked.
-/

namespace Wiring

open Work Settings

variable {s : Settings} {I : Pass → Prop} {p p' : Pass} {f : Deferral} {parent : Graph}
  {context : Context} {d : Desire} {w w' : Workspace}

structure Settings.Keeps (s : Settings) (I : Pass → Prop) : Prop where
  closed : ∀ {q p current d ds} (dep : Dependency) (child : Graph),
    Growing s.catalog q p current (d :: ds) → I p → I (closed p current dep child)
  replaced : ∀ {q p current d ds} {child : Graph} (dep : Dependency) (tag : Nat)
    (order : BackEdges.Order) (tag' : Nat), Growing s.catalog q p current (d :: ds) →
      child.WellBuilt → I p → I (replaced p current (withChild current dep child tag) order tag')
  repeated : ∀ {p} (node : Graph) (children : List Resolved), I p → I (repeated p node children)
  noted : ∀ {p} (found : List (Graph × List Resolved)), I p → I { p with expanded := found }

namespace Settings.Keeps

theorem expandChildren (hI : s.Keeps I) (parent : Graph) (context : Context) (ds : List Desire)
    {current : Graph} {p : Pass} {children : List Resolved} {w : Workspace} (hpool : PoolBuilt w)
    (h : (s.expandChildren parent context ds current p).Runs w (.ok (children, p')) w')
    (hg : Growing s.catalog w.queue p current ds) (hds : ∀ d ∈ ds, d ∈ s.catalog.needs current)
    (hp : I p) : I p' := by
  have hstep : ∀ {d ds current p edge x w v}, ChildAdded s parent current context d p w edge x v →
      (Growing s.catalog w.queue p current (d :: ds) ∧
        (∀ d' ∈ d :: ds, d' ∈ s.catalog.needs current) ∧ I p) →
      Growing s.catalog v.queue x.2 x.1 ds ∧ (∀ d' ∈ ds, d' ∈ s.catalog.needs x.1) ∧ I x.2 := by
    intro d ds current p edge x w v hadded ⟨hg, hds, hp⟩
    obtain ⟨hgx, hlabel, _⟩ := hadded.growing hg (hds d List.mem_cons_self)
    refine ⟨hgx, fun d' hd' => Catalog.needs_congr hlabel ▸ hds d' (List.mem_cons_of_mem _ hd'), ?_⟩
    rcases hadded.choice with rfl | ⟨tag, order, tag', rfl⟩
    · exact hI.closed _ _ hg hp
    · exact hI.replaced _ _ _ _ hg (hadded.raw _ (.self _)).wellBuilt hp
  obtain ⟨⟨_, -, -, hend⟩, -⟩ := keeps_of_expandChildren
    (I := fun q p current ds => Growing s.catalog q p current ds ∧
      (∀ d ∈ ds, d ∈ s.catalog.needs current) ∧ I p) hstep ds hpool h ⟨hg, hds, hp⟩
  exact hend

theorem processDeferral (hI : s.Keeps I) (hpool : PoolBuilt w)
    (hs : p.Idle s.catalog (f :: w.queue)) (hbare : Bare f.node.label f.node)
    (h : (s.processDeferral p f).Runs w (.ok p') w') (hp : I p) : I p' := by
  cases runs_processDeferral.1 h with
  | skipped _ => exact hp
  | repeated _ _ => exact hI.repeated _ _ hp
  | expanded hskip _ hexpand =>
    exact hI.noted _ (hI.expandChildren _ _ _ hpool hexpand
      (hs.start hbare (reaches_of_skip hskip)) (fun _ hd => hd) hp)

theorem drains (hI : s.Keeps I) {o : Attempt Pass} (h : Drains s p w o w') (hs : p.Ready s w)
    (ho : o = .ok p') (hp : I p) : I p' :=
  (h.keeps (I := fun q p => p.Idle s.catalog q ∧ I p) (fun hpool hbare ⟨hidle, hp⟩ hrun =>
    ⟨hidle.processDeferral hpool hbare hrun, hI.processDeferral hpool hidle hbare hrun hp⟩)
    hs.pool hs.bare ⟨hs.idle, hp⟩ ho).2

theorem resolve {v : Solver} (hI : v.settings.Keeps I) (hv : v.Sound)
    (hstart : ∀ (edge : Resolved) (tag : Nat), edge.1.initial = d → edge.2.WellBuilt →
      I { root := withChild v.graph edge.1 edge.2 tag, backEdges := v.backEdges })
    {tag : Nat} (hok : ((v.resolve d).run tag).1.result = .ok ()) :
    ∃ p, I p ∧ ((v.resolve d).run tag).1.solver.graph = p.root ∧
      ((v.resolve d).run tag).1.solver.backEdges = p.backEdges := by
  obtain ⟨o, w', hcalls, hresult, hsolver⟩ := v.exists_calls d tag
  rw [hresult] at hok
  cases o with
  | error e => cases hok
  | ok p =>
    rw [hsolver]
    refine ⟨p, ?_, rfl, rfl⟩
    obtain ⟨edge, node, tag, w1, w2, hd, -, hnode, -, hready, hdrains⟩ :=
      hcalls.linked hv (hv.poolBuilt tag) rfl
    have hinitial : edge.1.initial = d := by
      cases (hd.tree_grown rfl).initial with
      | cons h _ => exact h
    exact hI.drains hdrains hready rfl (hstart (edge.1, node) tag hinitial hnode)

end Settings.Keeps

/-! ## The edges of the root node -/

structure OneRoot (d : Desire) (g : Graph) : Prop where
  label : (Component.root == g.label) = true
  rooted : g.edges ≠ []
  initial : ∀ e ∈ g.edges, (e.1.initial == d) = true
  same : ∀ e ∈ g.edges, ∀ f ∈ g.edges, Dag.SameEdge e f

theorem keeps_oneRoot (s : Settings) (d : Desire) : s.Keeps fun p => OneRoot d p.root where
  closed _ _ _ h := h
  repeated _ _ h := h
  noted _ h := h
  replaced := @fun _ p current _ _ child dep tag order tag' hg hchild h => by
    have hnew := withChild_wellBuilt hg.wellBuilt dep hchild tag
    have hnode : Dag.NodeReplaced current (withChild current dep child tag) p.root .empty _ :=
      replaced_node hg.sound.wellBuilt hnew order tag'
    have hedges := hnode.root_edges hg.sound.wellBuilt hg.reached
    refine ⟨BEq.trans h.label hedges.label, ?_, fun f hf => ?_, fun f hf f' hf' => ?_⟩
    · obtain ⟨e, he⟩ := List.exists_mem_of_ne_nil _ h.rooted
      obtain ⟨f, hf, -⟩ := hedges.edge e he
      exact List.ne_nil_of_mem hf
    · obtain ⟨e, he, hef⟩ := hedges.origin f hf
      exact BEq.trans (BEq.symm (Dependency.initial_beq hef.label)) (h.initial e he)
    · obtain ⟨e, he, hef⟩ := hedges.origin f hf
      obtain ⟨e', he', hef'⟩ := hedges.origin f' hf'
      exact hef.symm.trans ((hnode.moved_same (h.same e he e' he')).trans hef')

end Wiring
