import Wiring.Proofs.Solver.Holding
import Wiring.Proofs.Solver.Revision

/-!
# What a revision loses

A revision keeps its back-edges beside the graph, so a node of the revised graph may find what it
needs under another head: under the node it comes from, in the back-edges of the solver that built
the graph, or under what it became while another edge was resolved again. Nothing else is lost.
-/

namespace Wiring

open Work Settings Catalog

variable {s : Settings} {v u : Solver} {d : Desire} {c : Catalog} {g g' x y : Graph}
  {context : Context} {e e' : Resolved} {r r' : Revision} {R : Graph → Graph → Prop}
  {w w' : Workspace} {before : BackEdges} {m : GraphMemory}

/-! ## Work that keeps a law of the pool -/

namespace Work

variable {α β : Type} {a : Work α} {f : α → Work β} {P : α → Prop} {Q : β → Prop}
  {W : GraphPool → Prop}

/-- What `W` says of the pool stays true, and `P` holds of the result. -/
def Builds (W : GraphPool → Prop) (a : Work α) (P : α → Prop) : Prop :=
  ∀ w o w', W w.pool → a.Runs w o w' → W w'.pool ∧ ∀ x, o = .ok x → P x

theorem Builds.bind (ha : Builds W a P) (hf : ∀ x, P x → Builds W (f x) Q) :
    Builds W (a >>= f) Q := by
  intro w o w' hpool h
  rcases runs_bind.1 h with ⟨x, v, ha', h⟩ | ⟨e, rfl, he⟩
  · obtain ⟨hpool', hx⟩ := ha _ _ _ hpool ha'
    exact hf x (hx x rfl) _ _ _ hpool' h
  · exact ⟨(ha _ _ _ hpool he).1, fun _ hx => by cases hx⟩

theorem builds_pure {x : α} (hx : P x) : Builds W (pure x) P := by
  rintro w o w' hpool ⟨rfl, rfl⟩
  exact ⟨hpool, fun _ h => by cases h; exact hx⟩

theorem builds_of_pool (h : ∀ w, (a.run.run w).2.pool = w.pool) : Builds W a fun _ => True := by
  rintro w o w' hpool ⟨-, rfl⟩
  rw [h w]
  exact ⟨hpool, fun _ _ => trivial⟩

end Work

theorem builds_anyOffer {W : GraphPool → Prop} {chain : DesireChain} :
    ∀ fs : List BindingFunction, Builds W (s.anyOffer context chain fs) fun _ => True
  | [] => builds_pure trivial
  | f :: fs => by
    rw [anyOffer]
    refine (builds_of_pool fun _ => rfl).bind fun _ _ => ?_
    refine (builds_of_pool fun _ => rfl).bind fun _ _ => ?_
    refine (builds_of_pool fun _ => rfl).bind fun o _ => ?_
    cases o with
    | some _ => exact builds_pure trivial
    | none => exact builds_anyOffer fs

/-! ## What the walk keeps -/

structure Settings.Holding (s : Settings) (W : GraphPool → Prop) (I : Revision → Prop) :
    Prop where
  seen : ∀ r v, I r → I { r with visited := v :: r.visited }
  replaced : ∀ e c r, I r → Builds W (s.replaceEdge e c r) I

section Walk

variable {W : GraphPool → Prop} {I : Revision → Prop}

mutual

theorem Settings.Holding.reviseNode (hI : s.Holding W I) : ∀ (x : Graph) (c : Context)
    (r : Revision), I r → Builds W (s.reviseNode x c r) I
  | .node t h l es, c, r, hr => by
    rw [Settings.reviseNode]
    split
    · exact builds_pure hr
    · exact hI.reviseEdges _ es c _ (hI.seen r _ hr)

theorem Settings.Holding.reviseEdges (hI : s.Holding W I) (head : Graph) :
    ∀ (es : List Resolved) (c : Context) (r : Revision), I r →
      Builds W (s.reviseEdges head es c r) I
  | [], _, _, hr => by
    rw [Settings.reviseEdges]
    exact builds_pure hr
  | (dep, tail) :: rest, c, r, hr => by
    have hselect : Builds W (if dep.fixed then pure false else s.isTriggered c dep.initial)
        fun _ => True := by
      split
      · exact builds_pure trivial
      · exact builds_anyOffer _
    rw [Settings.reviseEdges]
    split
    · exact hI.reviseEdges head rest c r hr
    · refine hselect.bind fun b _ => ?_
      split
      · exact (hI.replaced _ c r hr).bind fun r' hr' => hI.reviseEdges head rest c r' hr'
      · exact (hI.reviseNode tail _ r hr).bind fun r' hr' => hI.reviseEdges head rest c r' hr'

end

end Walk

abbrev GraphPool.Built (p : GraphPool) : Prop := ∀ n ∈ p.nodes, n.WellBuilt

/-- What holds of what a walk found, which began with some back-edges `before`: every head is
covered, and the nodes of all trees that were resolved again are kept. -/
structure Revision.Holds (c : Catalog) (before : BackEdges) (r : Revision) : Prop where
  head : r.backEdges.AllHeads fun k => k.WellBuilt ∧ c.Covered r.backEdges k
  retains : Retains before r.backEdges
  kept : ∀ p ∈ r.replacements, ∀ y, p.2.tail.Has y → c.Kept r.backEdges y

theorem Tending.covers {whole : Prop} {root : Graph} {b : BackEdges}
    (h : Tending.Idle c whole [] root b) : b.AllHeads fun k => k.WellBuilt ∧ c.Covered b k :=
  fun e he => ⟨(h.head e he).1, (h.head e he).2.resolve_right id⟩

theorem Tending.covered {root : Graph} {b : BackEdges} (h : Tending.Idle c True [] root b)
    (hy : root.Has y) : c.Covered b y := by
  rcases h.node trivial y hy with hcovered | ⟨-, f, hf, -⟩ | hfalse
  · exact hcovered
  · cases hf
  · exact hfalse.elim

theorem Revision.Holds.replaceEdge (h : r.Holds s.catalog before) (e : GraphEdge) (c : Context) :
    Builds GraphPool.Built (s.replaceEdge e c r) fun r' => r'.Holds s.catalog before := by
  intro w o w' hpool hrun
  have hpool0 : PoolBuilt { w with queue := [] } := hpool
  cases replaces_of_runs hrun with
  | unresolved hd => exact ⟨hd.queues.pool hpool0, fun _ hr' => by cases hr'⟩
  | @drained dep tree node w1 w2 _ o pre hd hmerge hbare hdrains =>
    obtain ⟨_, hnode, -, hraw, hpool2, hqueue⟩ := raw_of_merge (hd.queues.pool hpool0)
      ((hd.tree_grown rfl).raw (dep, tree) (by simp)) hmerge
    cases hnode
    have hpool' : PoolBuilt (w'.behind pre) := hdrains.pool hpool2
    refine ⟨hpool', fun r' hr' => ?_⟩
    cases o with
    | error _ => cases hr'
    | ok p =>
      cases hr'
      have hstart : Pass.Holds s.catalog True r.backEdges w2.queue
          { root := node, backEdges := r.backEdges } := by
        refine ⟨⟨(hraw node (.self _)).wellBuilt, fun e he => ?_, fun _ y hy => ?_⟩, .refl _, ?_⟩
        · exact ⟨(h.head e he).1, .inl (h.head e he).2⟩
        · rw [hqueue]
          exact (hraw y hy).complete.imp Complete.covered .inl
        · simp
      have hend := hdrains.holds hpool2 hbare hstart rfl
      refine ⟨hend.tending.covers, h.retains.trans hend.retains, fun p' hp' y hy => ?_⟩
      rcases List.mem_append.1 hp' with hp' | hp'
      · exact (h.kept p' hp' y hy).mono hend.retains
      · rw [List.mem_singleton.1 hp'] at hy
        exact (hend.tending.covered hy).kept

theorem holding (s : Settings) (before : BackEdges) :
    s.Holding GraphPool.Built fun r => r.Holds s.catalog before where
  seen _ _ hr := ⟨hr.head, hr.retains, hr.kept⟩
  replaced e c _ hr := hr.replaceEdge e c

theorem Revision.Holds.start {b : BackEdges}
    (hb : b.AllHeads fun k => k.WellBuilt ∧ c.Covered b k) :
    Revision.Holds c b { backEdges := b } :=
  ⟨hb, .refl b, fun p hp => by cases hp⟩

/-! ## Solvers in use -/

namespace Solver

/-- The solvers that calls lead to from one that has resolved nothing: roots are resolved and graphs
are revised, successfully or not, whatever tags are handed out meanwhile. -/
inductive Used (s : Settings) : Solver → Prop
  | fresh (orders : Nat → BackEdges.Order) (tag : Nat) : Used s ((ofSettings s orders).run tag).1
  | resolve {v : Solver} (d : Desire) (tag : Nat) :
      Used s v → Used s ((v.resolve d).run tag).1.solver
  | revise {v : Solver} (g : Graph) (tag : Nat) :
      Used s v → Used s ((v.revise g).run tag).1.solver

/-- The pool and the graph are well built, and every head of back-edges is covered. The nodes of the
graph need not be: a revision may have taken their back-edges. -/
structure Stocked (c : Catalog) (v : Solver) : Prop where
  pool : ∀ n ∈ v.pool.nodes, n.WellBuilt
  graph : v.graph.WellBuilt
  head : v.backEdges.AllHeads fun k => k.WellBuilt ∧ c.Covered v.backEdges k

theorem Calls.stocked {p : Pass} (hv : v.Stocked v.settings.catalog)
    (h : v.Calls d w (.ok p) w') (hpool : PoolBuilt w) (hw : w.queue = []) :
    p.root.WellBuilt ∧ p.backEdges.AllHeads fun k =>
      k.WellBuilt ∧ v.settings.catalog.Covered p.backEdges k := by
  rcases h with _ | ⟨hd, hmerge, hbuild, hdrains⟩
  rename_i edge node root w1 w2 w3
  obtain ⟨_, hnode, -, hraw, hpool2, hqueue⟩ := raw_of_merge (hd.queues.pool hpool)
    ((hd.tree_grown rfl).raw edge (by simp)) hmerge
  cases hnode
  obtain ⟨hroot, rfl⟩ := runs_build.1 hbuild
  cases hroot
  have hbare : ∀ f ∈ w2.queue, Bare f.node.label f.node := by
    rw [hqueue]
    exact fun f hf => (deeper_of_resolves hw hd f hf).bare
  have hbuilt : (withChild v.graph edge.1 node w2.nextTag).WellBuilt :=
    withChild_wellBuilt hv.graph edge.1 (hraw node (.self _)).wellBuilt _
  have hstart : Pass.Holds v.settings.catalog False v.backEdges w2.queue
      { root := withChild v.graph edge.1 node w2.nextTag, backEdges := v.backEdges } :=
    ⟨⟨hbuilt, fun e he => ⟨(hv.head e he).1, .inl (hv.head e he).2⟩, False.elim⟩, .refl _, by simp⟩
  have hend := hdrains.holds hpool2 hbare hstart rfl
  exact ⟨hend.tending.wellBuilt, hend.tending.covers⟩

theorem Stocked.resolve (h : v.Stocked v.settings.catalog) (d : Desire) (tag : Nat) :
    ((v.resolve d).run tag).1.solver.Stocked v.settings.catalog := by
  obtain ⟨o, w', hcalls, -, hsolver⟩ := v.exists_calls d tag
  have hpool : PoolBuilt (v.workspace tag) := h.pool
  have hpool' := hcalls.pool hpool
  rw [hsolver]
  cases o with
  | error e => exact ⟨hpool', h.graph, h.head⟩
  | ok p =>
    obtain ⟨hroot, hhead⟩ := hcalls.stocked h hpool rfl
    exact ⟨hpool', hroot, hhead⟩

theorem builds_reviseWork (h : v.Stocked v.settings.catalog) (g : Graph) :
    Builds GraphPool.Built (v.reviseWork g) fun out =>
      out.2.AllHeads fun k => k.WellBuilt ∧ v.settings.catalog.Covered out.2 k := by
  have hwalk := (holding v.settings v.backEdges).reviseNode g .initial _ (.start h.head)
  refine hwalk.bind fun r hr => ?_
  refine (builds_of_pool fun _ => rfl).bind fun _ _ => ?_
  refine (builds_of_pool fun _ => rfl).bind fun _ _ => ?_
  exact (builds_of_pool fun _ => rfl).bind fun _ _ => builds_pure hr.head

theorem Stocked.revise (h : v.Stocked v.settings.catalog) (g : Graph) (tag : Nat) :
    ((v.revise g).run tag).1.solver.Stocked v.settings.catalog ∧
      ((v.revise g).run tag).1.solver.settings = v.settings := by
  rcases v.exists_reviseWork g tag with ⟨_, -, hsolver⟩ | ⟨o, w', hrun, -, hsolver⟩
  · rw [hsolver]
    exact ⟨h, rfl⟩
  · obtain ⟨hpool, hhead⟩ := builds_reviseWork h g _ _ _ h.pool hrun
    rw [hsolver]
    cases o with
    | error e => exact ⟨⟨hpool, h.graph, h.head⟩, rfl⟩
    | ok out => exact ⟨⟨hpool, h.graph, hhead out rfl⟩, rfl⟩

theorem Used.stocked (h : Used s v) : v.Stocked s.catalog ∧ v.settings = s := by
  induction h with
  | fresh orders tag =>
    have hsound := sound_ofSettings s orders tag
    exact ⟨⟨hsound.pool, hsound.wellBuilt, fun e he => by cases he⟩, rfl⟩
  | resolve d tag _ ih =>
    obtain ⟨hv, rfl⟩ := ih
    exact ⟨hv.resolve d tag, settings_resolve _ d tag⟩
  | revise g tag _ ih =>
    obtain ⟨hv, rfl⟩ := ih
    exact hv.revise g tag

end Solver

/-! ## What a revision keeps -/

/-- `R` leads from the nodes of a graph to what a revision made of them: components stay, and every
edge is kept or renewed. -/
structure Settings.Tracks (s : Settings) (g : Graph) (R : Graph → Graph → Prop) (g' : Graph) :
    Prop where
  root : R g g'
  label : ∀ {x y}, R x y → (x.label == y.label) = true
  edge : ∀ {x y}, R x y → ∀ e ∈ x.edges, ∃ e' ∈ y.edges, s.Touched g R e e'
  origin : ∀ {x y}, R x y → ∀ e' ∈ y.edges, ∃ e ∈ x.edges, s.Touched g R e e'

theorem Revised.tracks (h : Revised s g r R g') : s.Tracks g R g' where
  root := h.root
  label hxy := (h.transforms.imaged hxy).label
  edge hxy e he := by
    obtain ⟨e', he', hmoved⟩ := (h.transforms.imaged hxy).edge e he
    exact ⟨e', he', h.touched hmoved⟩
  origin hxy e' he' := by
    obtain ⟨e, he, hmoved⟩ := (h.transforms.imaged hxy).origin e' he'
    exact ⟨e, he, h.touched hmoved⟩

theorem Settings.Touched.initial (h : s.Touched g R e e') :
    (e.1.initial == e'.1.initial) = true := by
  cases h with
  | kept hl _ => exact Dependency.initial_beq hl
  | renewed _ _ _ _ _ hinitial => exact hinitial

theorem Dag.Transforms.origin {y' : Graph} (h : Dag.Transforms r.replacement? R) (hy : y'.Has y) :
    ∀ {x}, R x y' → (∃ x', x.Has x' ∧ R x' y) ∨
      ∃ p ∈ r.replacements, ∃ z, p.2.tail.Has z ∧ z.WellBuilt ∧ (z == y) = true := by
  induction hy with
  | self => exact fun {x} hx => .inl ⟨x, .self x, hx⟩
  | @step y' y e' he' hy ih =>
    intro x hx
    obtain ⟨e, he, hmoved⟩ := (h.imaged hx).origin e' he'
    cases hmoved with
    | kept _ _ htail =>
      rcases ih htail with ⟨x', hx', hR⟩ | hreplaced
      · exact .inl ⟨x', .step he hx', hR⟩
      · exact .inr hreplaced
    | replaced hk hedge =>
      obtain ⟨p, hp, -, rfl⟩ := Revision.replacement?_eq_some hk
      obtain ⟨z, hz, hyz⟩ := hy.congr hedge.symm.tail.beq
      exact .inr ⟨p, hp, z, hz, hz.wellBuilt hedge.tail.left,
        Dag.beq_symm (hy.wellBuilt hedge.tail.right) hyz⟩

theorem Settings.Tracks.covered {b : BackEdges} (h : s.Tracks g R g') (hxy : R x y)
    (hx : c.Covered b x) (hd : d ∈ c.needs y) : HasEdge y d ∨ HasBackEdge b x d := by
  obtain ⟨d', hd', hdd⟩ := needs_of_label (BEq.symm (h.label hxy)) hd
  rcases hx d' hd' with ⟨e, he, hed⟩ | ⟨e, he, hed⟩
  · obtain ⟨e', he', htouched⟩ := h.edge hxy e he
    exact .inl ⟨e', he', BEq.trans (BEq.symm htouched.initial) (BEq.trans hed (BEq.symm hdd))⟩
  · exact .inr ⟨e, he, BEq.trans hed (BEq.symm hdd)⟩

/-- Revising a graph that a solver has built keeps every declared dependency of its nodes on their
edges or back-edges, with two exceptions: the back-edges that the other solver has for the nodes of
the graph are not taken over, and a back-edge goes along with its head when that becomes another
node while an edge is resolved again. The back-edges from before are kept in the same sense. -/
theorem Solver.kept_of_revise {t : Settings} (hu : Reachable t u) (hv : Used s v)
    (hc : t.catalog = s.catalog) (hwithin : v.Within m) (hg : m.nodes u.graph)
    (h : ((v.revise u.graph).run m.next).1.result = .ok g') :
    let b := ((v.revise u.graph).run m.next).1.solver.backEdges
    Retains v.backEdges b ∧ ∃ R, s.Tracks u.graph R g' ∧
      ∀ y, g'.Has y → ∀ d ∈ s.catalog.needs y,
        HasEdge y d ∨ HasBackEdge b y d ∨
          (∃ x, u.graph.Has x ∧ R x y ∧ HasBackEdge u.backEdges x d) ∨
          ∃ k, Becomes y k ∧ (y == k) = false ∧ HasBackEdge b k d := by
  intro b
  obtain ⟨hstocked, rfl⟩ := hv.stocked
  obtain ⟨hsound, rfl⟩ := hu.sound
  obtain ⟨r, R, hrevised, hb, w, w', hpool, hwalk⟩ := v.found_of_revise hwithin hg h
  have hr : r.Holds v.settings.catalog v.backEdges :=
    ((holding v.settings v.backEdges).reviseNode u.graph .initial _ (.start hstocked.head) _ _ _
      hpool hwalk).2 r rfl
  have hb : b = r.backEdges := hb
  have htracks := hrevised.tracks
  rw [hb]
  refine ⟨hr.retains, R, htracks, fun y hy d hd => ?_⟩
  rcases hrevised.transforms.origin hy hrevised.root with
    ⟨x, hx, hxy⟩ | ⟨p, hp, z, hz, hzw, hzy⟩
  · -- The node comes from one of the graph that was given.
    have hcovered := hc ▸ hsound.toWired.tending.covered hx
    rcases htracks.covered hxy hcovered hd with hedge | hback
    · exact .inl hedge
    · exact .inr (.inr (.inl ⟨x, hx, hxy, hback⟩))
  · -- The node came with a tree that was resolved again.
    rcases ((hr.kept p hp z hz).of_beq hzw hzy) d hd with hedge | ⟨k, hk, hback⟩
    · exact .inl hedge
    · by_cases hyk : (y == k) = true
      · have hyw := hy.wellBuilt (hrevised.transforms.imaged hrevised.root).target
        obtain ⟨e, he, hed⟩ := hback
        exact .inr (.inl ⟨e, BackEdges.edgesOf_congr hyw hyk ▸ he, hed⟩)
      · exact .inr (.inr (.inr ⟨k, hk, by simpa using hyk, hback⟩))

/-- A class in a cycle with its provider needs another class, which a trigger has an opinion on. The
solver revises its own graph, and the back-edge of the cycle stays while a provider below the other
class is expanded again. -/
theorem Solver.kept_of_own :
    let ring : Catalog := .freeze [⟨.named "A", true, [],
      [⟨some (.named "A"), "next", .provider (.named "A"), none, false⟩,
        ⟨some (.named "A"), "b", .named "B", none, false⟩], {}, .noPreference, none, none⟩,
      ⟨.named "B", true, [], [⟨some (.named "B"), "c", .provider (.named "C"), none, false⟩], {},
        .noPreference, none, none⟩,
      ⟨.named "C", true, [], [], {}, .noPreference, none, none⟩] []
    let s : Settings := { ofConfig ring [] {} with
      triggers := [.chosen [.offer none .noPreference {}] fun _ chain =>
        if chain.current.type = .named "B" then some 0 else none] }
    let called := (((ofSettings s).run 0).1.resolve (ring.rootDesire (.named "A") none)).run 1
    let v := called.1.solver
    ∃ m : GraphMemory, v.Within m ∧ ∃ g', ((v.revise v.graph).run m.next).1.result = .ok g' ∧
      let b := ((v.revise v.graph).run m.next).1.solver.backEdges
      v.backEdges.size = 1 ∧ b.size = 1 ∧ Retains v.backEdges b ∧ ∃ R, s.Tracks v.graph R g' ∧
        ∀ y, g'.Has y → ∀ d ∈ s.catalog.needs y, HasEdge y d ∨ HasBackEdge b y d ∨
          (∃ x, v.graph.Has x ∧ R x y ∧ HasBackEdge v.backEdges x d) ∨
          ∃ k, Becomes y k ∧ (y == k) = false ∧ HasBackEdge b k d := by
  intro ring s called v
  have hruns : (((v.revise v.graph).run called.2).1.result.isOk && v.backEdges.size == 1 &&
      ((v.revise v.graph).run called.2).1.solver.backEdges.size == 1) = true := by
    subst called v s ring
    decide +kernel
  have hreachable : Reachable s v := by
    subst v called
    exact .resolve _ 1 (.fresh _ 0)
  have hused : Used s v := by
    subst v called
    exact .resolve _ 1 (.fresh _ 0)
  obtain ⟨m, hnext, hv⟩ := @exists_within s (ring.rootDesire (.named "A") none) called rfl
  clear_value called
  rw [← hnext, Bool.and_eq_true, Bool.and_eq_true, beq_iff_eq, beq_iff_eq] at hruns
  obtain ⟨⟨hok, hsize⟩, hsize'⟩ := hruns
  cases hresult : ((v.revise v.graph).run m.next).1.result with
  | error e =>
    rw [hresult] at hok
    cases hok
  | ok g' =>
    exact ⟨m, hv, g', hresult, hsize, hsize',
      kept_of_revise hreachable hused rfl hv hv.graph hresult⟩

end Wiring
