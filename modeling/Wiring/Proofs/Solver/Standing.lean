import Wiring.Proofs.Dag.Labels
import Wiring.Proofs.Solver.Puts
import Wiring.Proofs.Solver.Paths
import Wiring.Proofs.Typed

/-!
# Graphs that stand by themselves

While nothing is put off, every edge of a tree is what its desire comes to in the context of the
path to it. Where labels that are equal are one, merging keeps it so.
-/

namespace Wiring

open Work Settings
open Dag (SameNode SameEdge)

variable {s : Settings} {d : Desire} {c : Context} {r : Resolution} {w w' : Workspace}
  {g x y : Graph} {e f edge : Resolved}

abbrev TypedGraph (g : Graph) : Prop := g.All Component.Typed Dependency.Typed

namespace Settings

/-! ## Trees -/

theorem typed_bare {l : Component} (hl : l.Typed) (h : Bare l g) : TypedGraph g := by
  refine Dag.all_iff.2 ⟨h.label ▸ hl, fun e he => ?_⟩
  rw [h.edges] at he
  cases he

theorem Grown.typed {q : List Deferral} {ds : List Desire} {es : List Resolved}
    (hs : s.TypedRules) (h : Grown s q c ds es) (hds : ∀ d ∈ ds, d.Typed) :
    ∀ e ∈ es, e.1.Typed ∧ TypedGraph e.2 := by
  induction h with
  | nil => simp
  | @deferred d c r f ds es h _ _ _ hbare _ _ ih =>
    obtain ⟨hd, hds⟩ := List.forall_mem_cons.1 hds
    have hr := (Binds.settled h).typed hs hd
    have hl : (r.component s.catalog s.defaultPolicy).Typed := hr.component
    exact List.forall_mem_cons.2 ⟨⟨hr.chain, typed_bare hl hbare⟩, ih hds⟩
  | @expanded d c r ds es edges tag h _ _ _ _ ihin ih =>
    obtain ⟨hd, hds⟩ := List.forall_mem_cons.1 hds
    have hr := h.typed hs hd
    have hl : (r.component s.catalog s.defaultPolicy).Typed := hr.component
    have hin := ihin fun d' hd' => hs.dependencies hr.component hd'
    exact List.forall_mem_cons.2 ⟨⟨hr.chain, Dag.all_over hl hin tag⟩, ih hds⟩

theorem Resolves.typed (hs : s.TypedRules) (hd : d.Typed) (h : Resolves s d c w (.ok edge) w') :
    edge.1.Typed ∧ TypedGraph edge.2 :=
  (h.tree_grown rfl).typed hs (by simpa using hd) edge List.mem_cons_self

/-- The edge is what its desire comes to in the context, and nothing is put off for it. -/
def Made (s : Settings) (c : Context) (e : Resolved) : Prop :=
  ∃ w w' edge, Resolves s e.1.initial c w (.ok edge) w' ∧ w'.queue = w.queue ∧ SameEdge edge e

/-- Below the node every edge is what its desire comes to in the context of the path to it. -/
inductive Stands (s : Settings) : Graph → Context → Prop
  | node {x : Graph} {c : Context} : (∀ e ∈ x.edges, s.Made c e) →
      (∀ e ∈ x.edges, Stands s e.2 (along c e)) → Stands s x c

theorem Stands.made (h : Stands s x c) (he : e ∈ x.edges) : s.Made c e := by
  cases h with
  | node hmade _ => exact hmade e he

theorem Stands.onward (h : Stands s x c) (he : e ∈ x.edges) : Stands s e.2 (along c e) := by
  cases h with
  | node _ hbelow => exact hbelow e he

theorem Resolves.initial (h : Resolves s d c w (.ok edge) w') : edge.1.initial = d := by
  cases (h.tree_grown rfl).initial with
  | cons h _ => exact h

theorem Resolves.made (h : Resolves s d c w (.ok edge) w') (hq : w'.queue = w.queue) :
    s.Made c edge := by
  have hinitial := h.initial
  subst hinitial
  exact ⟨w, w', edge, h, hq, .refl (tree_wellBuilt h)⟩

theorem Queues.idle {P Q : Deferral → Prop} {u v : Workspace} (h : Queues P w u)
    (huv : v.queue = u.queue) (h' : Queues Q v w') (hq : w'.queue = w.queue) :
    u.queue = w.queue ∧ w'.queue = v.queue := by
  obtain ⟨-, fs, hfs, -⟩ := h
  obtain ⟨-, gs, hgs, -⟩ := h'
  rw [hgs, huv, hfs, List.append_assoc, List.append_right_eq_self, List.append_eq_nil_iff] at hq
  obtain ⟨rfl, rfl⟩ := hq
  rw [List.append_nil] at hfs hgs
  exact ⟨hfs, hgs⟩

theorem stands_draftOf {edges : List Resolved}
    (hedges : ∀ e ∈ edges, s.Made (inside r c) e ∧ Stands s e.2 (along (inside r c) e)) (tag : Nat) :
    Stands s ((s.draftOf r edges).build.run tag).1 (inside r c) := by
  have hmem : ∀ e ∈ ((s.draftOf r edges).build.run tag).1.edges, e ∈ edges := by
    intro e he
    rcases Dag.Draft.mem_addEdges he with he | he
    · cases he
    · exact he
  exact .node (fun e he => (hedges e (hmem e he)).1) fun e he => (hedges e (hmem e he)).2

theorem along_draftOf {edges : List Resolved} (tag : Nat) :
    along c (r.dependency, ((s.draftOf r edges).build.run tag).1) = inside r c := by
  have hlabel : ((s.draftOf r edges).build.run tag).1.label =
      r.component s.catalog s.defaultPolicy := Dag.Draft.label_addEdges _ _
  unfold along
  dsimp only
  rw [hlabel]
  rfl

mutual

theorem Resolves.stands : ∀ {d c w o w'}, Resolves s d c w o w' → w'.queue = w.queue →
    ∀ {edge}, o = .ok edge → Stands s edge.2 (along c edge)
  | _, _, _, _, _, .tooDeep _, _, _, he | _, _, _, _, _, .unsettled _ _, _, _, he => by cases he
  | _, _, _, _, _, .deferred _ h _ hdefer, hq, _, _ => by
    -- Something would have been put off.
    obtain ⟨f, -, -, -, -, hqueue⟩ := runs_defer hdefer
    rw [queue_settle h] at hqueue
    simp [hqueue] at hq
  | _, _, _, _, _, .expanded _ h hr hexpand, hq, _, he => by
    rw [← queue_settle h] at hq
    exact hexpand.stands (.settled (settles_of_runs h)) hr hq he

theorem Expands.stands : ∀ {r c w o w'}, Expands s r c w o w' → ∀ {d}, s.Binds d c r →
    r.deferred = false → w'.queue = w.queue → ∀ {edge}, o = .ok edge →
    Stands s edge.2 (along c edge)
  | _, _, _, _, _, .grown hall hgrow, _, _, _, hq, _, he => by
    obtain ⟨tag, ho, -, hqueue⟩ := runs_grow hgrow
    rw [ho] at he
    cases he
    rw [along_draftOf]
    exact stands_draftOf (hall.stands (hqueue ▸ hq) _ rfl) tag
  | _, _, _, _, _, .failed _ _, _, _, _, _, _, he => by cases he
  | _, _, _, _, _, .restored hall hp hreport hexpand, _, hd, hr, hq, _, he => by
    -- The tree is that of the binding before, which is not put off either.
    obtain ⟨hd', hr'⟩ := hd.restore hr hall hp
    have hreported : _ = _ := congrArg Workspace.queue (runs_report.1 hreport).2
    obtain ⟨-, hq⟩ := hall.queues.idle hreported (hexpand.queues hd' hr') hq
    exact hexpand.stands hd' hr' hq he

theorem ResolvesAll.stands : ∀ {c ds w o w'}, ResolvesAll s c ds w o w' → w'.queue = w.queue →
    ∀ es, o = .ok es → ∀ e ∈ es, s.Made c e ∧ Stands s e.2 (along c e)
  | _, _, _, _, _, .nil, _, _, he => by
    cases he
    simp
  | _, _, _, _, _, .failed _, _, _, he => by cases he
  | _, _, _, _, _, .cons (o := o) h hrest, hq, _, he => by
    obtain ⟨hfirst, hq'⟩ := h.queues.idle rfl hrest.queues hq
    have hedge := h.stands hfirst rfl
    have hedges := hrest.stands hq'
    cases o with
    | error _ => cases he
    | ok es =>
      cases he
      exact List.forall_mem_cons.2 ⟨⟨h.made hfirst, hedge⟩, hedges es rfl⟩

end

/-! ## Equal graphs -/

theorem Made.of_same (h : s.Made c e) (hdep : e.1 = f.1) (hef : SameEdge e f) : s.Made c f := by
  obtain ⟨w, w', edge, hd, hq, hsame⟩ := h
  exact ⟨w, w', edge, hdep ▸ hd, hq, hsame.trans hef⟩

theorem eq_of_same (hef : SameEdge e f) (he : e.1.Typed ∧ TypedGraph e.2)
    (hf : f.1.Typed ∧ TypedGraph f.2) : e.1 = f.1 ∧ ∀ c, along c e = along c f := by
  have hdep : e.1 = f.1 := he.1.eq hf.1 hef.label
  have hlabel := ((Component.beq_iff _ _).1 hef.tail.label).1
  have hsatisfaction : e.2.label.satisfaction = f.2.label.satisfaction :=
    Satisfaction.Typed.eq (Dag.all_iff.1 he.2).1 (Dag.all_iff.1 hf.2).1 hlabel
  refine ⟨hdep, fun c => ?_⟩
  unfold along
  rw [hdep, hsatisfaction]

theorem Stands.congr (h : Stands s x c) (hxy : SameNode x y) (hx : TypedGraph x)
    (hy : TypedGraph y) : Stands s y c := by
  induction h generalizing y with
  | @node x c hmade _ ih =>
    have hedge : ∀ f ∈ y.edges, s.Made c f ∧ Stands s f.2 (along c f) := by
      intro f hf
      obtain ⟨e, he, hfe⟩ := hxy.symm.edge hf
      have hex := (Dag.all_iff.1 hx).2 e he
      have hfy := (Dag.all_iff.1 hy).2 f hf
      obtain ⟨hdep, halong⟩ := eq_of_same hfe.symm hex hfy
      rw [← halong]
      exact ⟨(hmade e he).of_same hdep hfe.symm, ih e he hfe.tail.symm hex.2 hfy.2⟩
    exact .node (fun f hf => (hedge f hf).1) fun f hf => (hedge f hf).2

end Settings

/-! ## Calls -/

namespace Solver

variable {v : Solver} {tag : Nat}

/-- The solvers that calls lead to where nothing is put off: when the tree of a desire stands, or
has failed, the queue is empty. -/
inductive Calm (s : Settings) : Solver → Prop
  | fresh (orders : Nat → BackEdges.Order) (tag : Nat) : Calm s ((ofSettings s orders).run tag).1
  | resolve {v : Solver} (d : Desire) (tag : Nat) : Calm s v → d.Typed →
      ((s.resolveFully d .initial).run.run (v.workspace tag)).2.queue = [] →
      Calm s ((v.resolve d).run tag).1.solver

theorem Calm.reachable (h : Calm s v) : Reachable s v := by
  induction h with
  | fresh orders tag => exact .fresh orders tag
  | resolve d tag _ _ _ ih => exact .resolve d tag ih

structure Standing (v : Solver) : Prop where
  stands : Stands v.settings v.graph .initial
  graph : TypedGraph v.graph
  pool : v.pool.All Component.Typed Dependency.Typed

theorem Standing.link (hs : v.settings.TypedRules) (h : v.Standing) (hd : d.Typed)
    (hpool : PoolBuilt w) (hw : w.pool = v.pool)
    (htree : Resolves v.settings d .initial w (.ok edge) w') (hq : w'.queue = w.queue)
    (tag tag' : Nat) :
    let merged := (w'.pool.merge edge.2).run tag
    let graph := withChild v.graph edge.1 merged.1.1 tag'
    Stands v.settings graph .initial ∧ TypedGraph graph ∧
      merged.1.2.All Component.Typed Dependency.Typed := by
  intro merged graph
  have hwell := tree_wellBuilt htree
  obtain ⟨hdep, htyped⟩ := htree.typed hs hd
  have hpool' : w'.pool.All Component.Typed Dependency.Typed := by
    rw [htree.pool_eq, hw]
    exact h.pool
  obtain ⟨hnode, hmerged⟩ := Dag.Pool.All.merge hpool' htyped tag
  have hsame : SameNode edge.2 merged.1.1 :=
    Dag.sameNode_merge (htree.queues.pool hpool) hwell tag
  have hedge : SameEdge edge (edge.1, merged.1.1) := .of_tail BEq.rfl hsame
  obtain ⟨-, halong⟩ := eq_of_same hedge ⟨hdep, htyped⟩ ⟨hdep, hnode⟩
  have hstands : Stands v.settings merged.1.1 (along .initial (edge.1, merged.1.1)) := by
    rw [← halong]
    exact (htree.stands hq rfl).congr hsame htyped hnode
  have hmade : v.settings.Made .initial (edge.1, merged.1.1) :=
    (htree.made hq).of_same rfl hedge
  -- An edge of the new root node is an old one, or the one to the merged tree.
  refine ⟨.node (fun e he => ?_) (fun e he => ?_), Dag.all_iff.2 ⟨?_, fun e he => ?_⟩, hmerged⟩
  · rcases mem_withChild he with he | rfl
    · exact h.stands.made he
    · exact hmade
  · rcases mem_withChild he with he | rfl
    · exact h.stands.onward he
    · exact hstands
  · rw [withChild_label]
    exact (Dag.all_iff.1 h.graph).1
  · rcases mem_withChild he with he | rfl
    · exact (Dag.all_iff.1 h.graph).2 e he
    · exact ⟨hdep, hnode⟩

theorem Calm.standing (hs : s.TypedRules) (h : Calm s v) : v.Standing := by
  induction h with
  | fresh orders tag =>
    have hedges : ((ofSettings s orders).run tag).1.graph.edges = [] := rfl
    refine ⟨.node ?_ ?_, Dag.all_iff.2 ⟨trivial, ?_⟩, ?_⟩
    · simp [hedges]
    · simp [hedges]
    · simp [hedges]
    · intro n hn
      cases hn
  | @resolve v d tag hcalm hd hqueue ih =>
    obtain ⟨hsound, rfl⟩ := hcalm.reachable.sound
    obtain ⟨o, w', hcalls, -, hsolver⟩ := v.exists_calls d tag
    rw [hsolver]
    cases hcalls with
    | unresolved htree => exact ⟨ih.stands, ih.graph, htree.pool_eq ▸ ih.pool⟩
    | @drained edge node root o w1 w2 w3 w' htree hmerge hbuild hdrains =>
      have hempty : w1.queue = [] := by
        rw [(runs_of_resolves htree).2]
        exact hqueue
      obtain ⟨hnode, rfl⟩ := runs_merge.1 hmerge
      cases hnode
      obtain ⟨hroot, rfl⟩ := runs_build.1 hbuild
      cases hroot
      obtain ⟨rfl, rfl⟩ := hdrains.idle hempty
      obtain ⟨hstands, hgraph, hpool⟩ := ih.link hs hd (hsound.poolBuilt tag) rfl htree hempty _ _
      exact ⟨hstands, hgraph, hpool⟩

end Solver

end Wiring
