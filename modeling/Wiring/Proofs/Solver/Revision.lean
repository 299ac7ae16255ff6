import Mathlib.Data.List.Find
import Wiring.Proofs.Solver.Memory
import Wiring.Proofs.Solver.Walk

/-!
# Revised graphs

What a revision stages for an edge is put in wherever an equal edge is, and everything else stays.
-/

namespace Wiring

open Work Settings
open Dag (Memory SameNode SameEdge)

variable {s : Settings} {v : Solver} {d : Desire} {m : GraphMemory} {g g' x y : Graph} {c : Context}
  {e e' f : Resolved} {r : Revision} {w w' : Workspace} {R : Graph → Graph → Prop}

/-! ## What is staged -/

theorem Settings.Walks.has (h : Walks s g x c) : g.Has x := by
  induction h with
  | root => exact .self g
  | step _ he _ ih => exact ih.edge he

def Revision.AllStaged (s : Settings) (g : Graph) (r : Revision) : Prop :=
  ∀ p ∈ r.replacements, ∃ c, Staged s g c p.1 p.2

theorem Revision.find?_congr (r : Revision) {e k : GraphEdge} (hek : Dag.SameEnds e k) :
    (r.replacements.find? fun p => p.1 == e) = r.replacements.find? fun p => p.1 == k := by
  refine List.find?_congr fun p _ => ?_
  have hhead := Dag.beq_right_congr hek.head.left hek.head.beq p.1.head
  have htail := Dag.beq_right_congr hek.tail.left hek.tail.beq p.1.tail
  have hlabel : (p.1.label == e.label) = (p.1.label == k.label) := by
    rw [Bool.eq_iff_iff]
    exact ⟨fun h => BEq.trans h hek.label, fun h => BEq.trans h (BEq.symm hek.label)⟩
  rw [Bool.eq_iff_iff, Dag.Edge.beq_iff, Dag.Edge.beq_iff, hhead, htail, hlabel]

theorem Revision.respects (r : Revision) : Dag.Respects r.replacement? := by
  intro e k hek
  unfold replacement?
  rw [r.find?_congr hek]

theorem Revision.replacement?_eq_some {e k : GraphEdge} (h : r.replacement? e = some k) :
    ∃ p ∈ r.replacements, (p.1 == e) = true ∧ p.2 = k := by
  obtain ⟨p, hp, rfl⟩ := Option.map_eq_some_iff.1 h
  have hkey := List.find?_some hp
  exact ⟨p, List.mem_of_find?_eq_some hp, hkey, rfl⟩

theorem Revision.Within.gives (h : r.Within m) : Dag.Gives r.replacement? m := by
  intro e k hk
  obtain ⟨p, hp, -, rfl⟩ := Revision.replacement?_eq_some hk
  exact h p hp

/-! ## Runs -/

structure Revised (s : Settings) (g : Graph) (r : Revision) (R : Graph → Graph → Prop)
    (g' : Graph) : Prop where
  wellBuilt : g.WellBuilt
  staged : r.AllStaged s g
  visited : ∀ v ∈ r.visited, Walks s g v.1 v.2 ∧ ∀ e ∈ v.1.edges, s.Handled r v.1 v.2 e
  start : r.wasAt g .initial = true
  transforms : Dag.Transforms r.replacement? R
  root : R g g'

theorem Workspace.Within.poolBuilt (h : w.Within m) : PoolBuilt w :=
  fun n hn => m.wellBuilt (h.pool n hn)

theorem staged_of_reviseNode {b : BackEdges} (hpool : PoolBuilt w)
    (h : (s.reviseNode g .initial { backEdges := b }).Runs w (.ok r) w') :
    r.AllStaged s g ∧
      (∀ v ∈ r.visited, Walks s g v.1 v.2 ∧ ∀ e ∈ v.1.edges, s.Handled r v.1 v.2 e) ∧
      r.wasAt g .initial = true := by
  obtain ⟨hgoes, hstart, -⟩ := goes_of_reviseNode g h hpool .root
  obtain ⟨ps, hps, hstaged⟩ := hgoes.staged
  refine ⟨fun p hp => hstaged p ?_, fun v hv => ?_, hstart⟩
  · rw [hps] at hp
    exact hp
  · rcases hgoes.added v hv with hv | hv
    · cases hv
    · exact hv

theorem Dag.Memory.allows_merged {p : GraphPool} (hp : m.Holds p) (hg : m.nodes g) :
    m.Allows (p.merge g) fun m' r => m'.nodes r.1 ∧ SameNode g r.1 := by
  obtain ⟨m', hm', hnext, hnode, -⟩ := Memory.allows_merge hp hg
  have hpool : ∀ n ∈ p.nodes, n.WellBuilt := fun n hn => m.wellBuilt (hp n hn)
  exact ⟨m', hm', hnext, hnode, Dag.sameNode_merge hpool (m.wellBuilt hg) m.next⟩

def Solver.Finds (v : Solver) (g : Graph) (r : Revision) : Prop :=
  ∃ w w', PoolBuilt w ∧
    (v.settings.reviseNode g .initial { backEdges := v.backEdges }).Runs w (.ok r) w'

theorem carries_reviseWork (hg : m.nodes g) : (v.reviseWork g).Carries m fun m' out =>
    m'.nodes out.1 ∧
      ∃ r R, Revised v.settings g r R out.1 ∧ out.2 = r.backEdges ∧ v.Finds g r := by
  have hgw := m.wellBuilt hg
  have hwalk : (v.settings.reviseNode g .initial { backEdges := v.backEdges }).Carries m
      fun m' r => r.Within m' := carries_reviseNode g .initial fun p hp => by cases hp
  unfold Solver.reviseWork
  refine (hwalk.and (R := fun r => _ ∧ v.Finds g r) fun w r w' hw hrun =>
    ⟨staged_of_reviseNode hw.poolBuilt hrun, w, w', hw.poolBuilt, hrun⟩).bind
    fun m1 r hm1 ⟨hr, ⟨hstaged, hvisited, hstart⟩, hfinds⟩ => ?_
  refine (carries_build (Dag.transform_spec r.respects hr.gives (hm1.nodes hg))).bind
    fun m2 staged hm2 ⟨hnodes, R, hR, hroot⟩ => ?_
  have hempty : m2.Holds (Dag.Pool.empty : GraphPool) := fun n hn => by cases hn
  refine (carries_build (Memory.allows_merge hempty ((hm1.trans hm2).nodes hg))).bind
    fun m3 p hm3 ⟨_, hp⟩ => ?_
  refine (carries_build (Memory.allows_merged hp (hm3.nodes hnodes))).bind
    fun m4 out hm4 ⟨hout, hsame⟩ => carries_pure ⟨hout, r, R, ?_, rfl, hfinds⟩
  exact ⟨hgw, hstaged, hvisited, hstart, hR, hR.congr hroot (.refl hgw) hsame⟩

theorem Solver.Within.revise (hv : v.Within m) (hg : m.nodes g) :
    m.Allows (v.revise g) fun m' called => called.solver.Within m' ∧
      ∀ g', called.result = .ok g' → m'.nodes g' ∧ ∃ r R, Revised v.settings g r R g' ∧
        called.solver.backEdges = r.backEdges ∧ v.Finds g r := by
  unfold Solver.revise
  split
  · refine (hv.perform (carries_reviseWork hg)).bind fun m' called _ ⟨hsolver, hresult⟩ => ?_
    split
    · rename_i r hr
      refine Memory.allows_pure ⟨⟨hsolver.graph, hsolver.pool⟩, fun g' hg' => ?_⟩
      cases hg'
      exact hresult _ hr
    · refine Memory.allows_pure ⟨hsolver, fun g' hg' => ?_⟩
      cases hg'
  · refine Memory.allows_pure ⟨hv, fun g' hg' => ?_⟩
    cases hg'

theorem Solver.found_of_revise (hv : v.Within m) (hg : m.nodes g)
    (h : ((v.revise g).run m.next).1.result = .ok g') :
    ∃ r R, Revised v.settings g r R g' ∧
      ((v.revise g).run m.next).1.solver.backEdges = r.backEdges ∧ v.Finds g r := by
  obtain ⟨m', -, -, -, hrevised⟩ := hv.revise hg
  exact (hrevised g' h).2

theorem Solver.revised_of_revise (hv : v.Within m) (hg : m.nodes g)
    (h : ((v.revise g).run m.next).1.result = .ok g') :
    ∃ r R, Revised v.settings g r R g' := by
  obtain ⟨r, R, hrevised, -⟩ := v.found_of_revise hv hg h
  exact ⟨r, R, hrevised⟩

/-- The solver that a revision leaves. If it fails, the back-edges stay as they are. -/
def Solver.keepRevised (v : Solver) (pool : GraphPool) : Attempt (Graph × BackEdges) → Solver
  | .ok (_, backEdges) => { v with pool, backEdges }
  | .error _ => { v with pool }

theorem Solver.exists_reviseWork (v : Solver) (g : Graph) (tag : Nat) :
    (∃ e, ((v.revise g).run tag).1.result = .error e ∧ ((v.revise g).run tag).1.solver = v) ∨
    ∃ o w', (v.reviseWork g).Runs (v.workspace tag) o w' ∧
      ((v.revise g).run tag).1.result = o.map (·.1) ∧
      ((v.revise g).run tag).1.solver = v.keepRevised w'.pool o := by
  have hrun := runs_self (v.reviseWork g) (v.workspace tag)
  unfold Solver.revise
  by_cases hroot : g.label.isRoot = true
  · rw [if_pos hroot, StateT.run_bind, Solver.run_perform hrun]
    revert hrun
    generalize ((v.reviseWork g).run.run (v.workspace tag)).1 = o
    intro hrun
    refine .inr ⟨o, _, hrun, ?_⟩
    cases o with
    | error e => exact ⟨rfl, rfl⟩
    | ok out => exact ⟨rfl, rfl⟩
  · rw [if_neg hroot]
    exact .inl ⟨_, rfl, rfl⟩

theorem Solver.revise_cases (v : Solver) (g : Graph) (tag : Nat) :
    (∃ e, ((v.revise g).run tag).1.result = .error e ∧
      ((v.revise g).run tag).1.solver.graph = v.graph ∧
      ((v.revise g).run tag).1.solver.backEdges = v.backEdges) ∨
    ∃ g' b w', (v.reviseWork g).Runs (v.workspace tag) (.ok (g', b)) w' ∧
      ((v.revise g).run tag).1.result = .ok g' := by
  rcases v.exists_reviseWork g tag with ⟨e, hresult, hsolver⟩ | ⟨o, w', hrun, hresult, hsolver⟩
  · rw [hsolver]
    exact .inl ⟨e, hresult, rfl, rfl⟩
  · cases o with
    | error e =>
      rw [hsolver]
      exact .inl ⟨e, hresult, rfl, rfl⟩
    | ok out => exact .inr ⟨out.1, out.2, w', hrun, hresult⟩

theorem Solver.keeps_of_revise_error {tag : Nat} {error : WiringError}
    (h : ((v.revise g).run tag).1.result = .error error) :
    ((v.revise g).run tag).1.solver.graph = v.graph ∧
      ((v.revise g).run tag).1.solver.backEdges = v.backEdges := by
  rcases v.revise_cases g tag with ⟨_, -, hgraph, hback⟩ | ⟨g', b, w', -, hok⟩
  · exact ⟨hgraph, hback⟩
  · rw [h] at hok
    cases hok

/-! ## What a revision may change -/

/-- The edge was kept over a related tail. Or it is not fixed, some trigger had an opinion on it in
a context of the walk, and the new edge is for the same desire. -/
inductive Settings.Touched (s : Settings) (g : Graph) (R : Graph → Graph → Prop)
    (e e' : Resolved) : Prop
  | kept : (e.1 == e'.1) = true → R e.2 e'.2 → Touched s g R e e'
  | renewed {x : Graph} {c : Context} {f : Resolved} : e.1.fixed = false → Walks s g x c →
      f ∈ x.edges → (f == e) = true → s.Triggered c f.1.initial →
      (e.1.initial == e'.1.initial) = true → Touched s g R e e'

theorem Revised.touched (h : Revised s g r R g') (hmoved : Dag.Moved r.replacement? R x e e') :
    s.Touched g R e e' := by
  cases hmoved with
  | kept _ hl htail => exact .kept hl htail
  | @replaced k hk he' =>
    obtain ⟨p, hp, hkey, rfl⟩ := Revision.replacement?_eq_some hk
    obtain ⟨c, hstaged⟩ := h.staged p hp
    obtain ⟨-, htail, hl⟩ := (Dag.Edge.beq_iff _ _).1 hkey
    have hfixed : p.1.label.fixed = e.1.fixed := ((Dependency.beq_iff _ _).1 hl).2
    have hinitial := BEq.trans hstaged.redone.answers.1.initial (Dependency.initial_beq he'.label)
    have hrenewed : (e.1.initial == e'.1.initial) = true :=
      BEq.trans (BEq.symm (Dependency.initial_beq hl)) hinitial
    exact .renewed (hfixed ▸ hstaged.selects.1) hstaged.walks hstaged.mem
      ((Dag.edge_beq_iff _ _).2 ⟨hl, htail⟩) hstaged.selects.2 hrenewed

theorem Settings.Touched.fixed (h : s.Touched g R e e') (he : e.1.fixed = true) :
    (e.1 == e'.1) = true ∧ R e.2 e'.2 := by
  cases h with
  | kept hl htail => exact ⟨hl, htail⟩
  | renewed hfree => simp [he] at hfree

/-- Between the graph that was given and the one that a revision returns there is a relation under
which components stay and every edge is kept or renewed, the fixed ones kept. If the revision fails,
the graph and the back-edges of the solver are as before. -/
theorem Solver.touched_of_revise (hv : v.Within m) (hg : m.nodes g) :
    (∀ g', ((v.revise g).run m.next).1.result = .ok g' →
      ∃ R : Graph → Graph → Prop, R g g' ∧ ∀ x y, R x y → (x.label == y.label) = true ∧
        (∀ e ∈ x.edges, ∃ e' ∈ y.edges, v.settings.Touched g R e e') ∧
        (∀ e' ∈ y.edges, ∃ e ∈ x.edges, v.settings.Touched g R e e') ∧
        ∀ e ∈ x.edges, e.1.fixed = true → ∃ e' ∈ y.edges, (e.1 == e'.1) = true ∧ R e.2 e'.2) ∧
    ∀ error, ((v.revise g).run m.next).1.result = .error error →
      ((v.revise g).run m.next).1.solver.graph = v.graph ∧
        ((v.revise g).run m.next).1.solver.backEdges = v.backEdges := by
  refine ⟨fun g' h => ?_, fun error h => v.keeps_of_revise_error h⟩
  obtain ⟨r, R, hrevised⟩ := v.revised_of_revise hv hg h
  refine ⟨R, hrevised.root, fun x y hxy => ?_⟩
  have himaged := hrevised.transforms.imaged hxy
  have hedge : ∀ e ∈ x.edges, ∃ e' ∈ y.edges, v.settings.Touched g R e e' := by
    intro e he
    obtain ⟨e', he', hmoved⟩ := himaged.edge e he
    exact ⟨e', he', hrevised.touched hmoved⟩
  refine ⟨himaged.label, hedge, fun e' he' => ?_, fun e he hfixed => ?_⟩
  · obtain ⟨e, he, hmoved⟩ := himaged.origin e' he'
    exact ⟨e, he, hrevised.touched hmoved⟩
  · obtain ⟨e', he', htouched⟩ := hedge e he
    exact ⟨e', he', htouched.fixed hfixed⟩

theorem Solver.exists_within {called : Called Unit × Nat}
    (h : called = (((ofSettings s).run 0).1.resolve d).run 1) :
    ∃ m : GraphMemory, m.next = called.2 ∧ called.1.solver.Within m := by
  obtain ⟨m1, -, hnext1, hfresh⟩ := @within_ofSettings (.empty 0) s fun _ => .added
  obtain ⟨m, -, hnext, hv⟩ := hfresh.resolve d
  rw [hnext1] at hnext hv
  subst h
  exact ⟨m, hnext, hv⟩

/-- A class with one dependency, where a trigger has an opinion on everything. -/
theorem Solver.touched_of_pair :
    let pair : Catalog := .freeze [⟨.named "A", true, [], [⟨none, "b", .named "B", none, false⟩],
      {}, .noPreference, none, none⟩, ⟨.named "B", true, [], [], {}, .noPreference, none, none⟩] []
    let s : Settings := { ofConfig pair [] {} with
      triggers := [.chosen [.offer none .noPreference {}] fun _ _ => some 0] }
    let called := (((ofSettings s).run 0).1.resolve (pair.rootDesire (.named "A") none)).run 1
    let v := called.1.solver
    ∃ m : GraphMemory, v.Within m ∧
      ∃ g', ((v.revise v.graph).run m.next).1.result = .ok g' ∧ ∃ R : Graph → Graph → Prop,
        R v.graph g' ∧ ∀ e ∈ v.graph.edges, ∃ e' ∈ g'.edges, v.settings.Touched v.graph R e e' := by
  intro pair s called v
  have hok : ((v.revise v.graph).run called.2).1.result.isOk = true := by
    subst called v s pair
    decide +kernel
  obtain ⟨m, hnext, hv⟩ := @exists_within s (pair.rootDesire (.named "A") none) called rfl
  clear_value called
  rw [← hnext] at hok
  obtain ⟨htouched, -⟩ := touched_of_revise hv hv.graph
  cases hresult : ((v.revise v.graph).run m.next).1.result with
  | error e =>
    rw [hresult] at hok
    cases hok
  | ok g' =>
    obtain ⟨R, hroot, hR⟩ := htouched g' hresult
    exact ⟨m, hv, g', hresult, R, hroot, (hR _ _ hroot).2.1⟩

/-! ## Where edges are resolved again -/

structure Occurrence where
  node : Graph
  edge : Resolved
  context : Context

/-- The edge is selected in the context of a path along which no edge was. -/
structure Settings.Meets (s : Settings) (g : Graph) (o : Occurrence) : Prop where
  walks : Walks s g o.node o.context
  mem : o.edge ∈ o.node.edges
  selects : s.Selects o.context o.edge

/-- A path along edges for which nothing was chosen, with the context it gives. -/
inductive Passed (chosen : Graph → Resolved → Option Occurrence) (g : Graph) :
    Graph → Context → Prop
  | root : Passed chosen g g .initial
  | step {x : Graph} {c : Context} {e : Resolved} : Passed chosen g x c → e ∈ x.edges →
      chosen x e = none → Passed chosen g e.2 (along c e)

/-- For the edges of a graph it is chosen at which occurrence they are resolved again, if at any:
at one where they are selected. On what is left of the graph nothing is selected but what was
chosen. -/
structure Settings.Chooses (s : Settings) (g : Graph)
    (chosen : Graph → Resolved → Option Occurrence) : Prop where
  congr : ∀ {x y e f}, SameNode x y → SameEdge e f → chosen x e = chosen y f
  met : ∀ {x e o}, chosen x e = some o →
    s.Meets g o ∧ (o.node == x) = true ∧ (o.edge == e) = true
  all : ∀ {x c}, Passed chosen g x c → ∃ y k, (y == x) = true ∧ (k == c) = true ∧
    Walks s g y k ∧ ∀ e ∈ y.edges, s.Selects k e → chosen y e ≠ none

/-- The edge was kept over a related tail, or it is what its desire comes to at the occurrence that
was chosen for it. -/
inductive Settings.Renewed (s : Settings) (chosen : Graph → Resolved → Option Occurrence)
    (R : Graph → Graph → Prop) (x : Graph) (e e' : Resolved) : Prop
  | kept : chosen x e = none → (e.1 == e'.1) = true → R e.2 e'.2 → Renewed s chosen R x e e'
  | again {o : Occurrence} : chosen x e = some o →
      s.Answers o.context o.edge.1.initial e' → Renewed s chosen R x e e'

variable {chosen : Graph → Resolved → Option Occurrence}

/-- In all contexts that equal nodes are met in the same edges are selected. -/
def Settings.Agrees (s : Settings) (g : Graph) : Prop :=
  ∀ x c y k, Walks s g x c → Walks s g y k → (x == y) = true → ∀ e ∈ x.edges, ∀ f ∈ y.edges,
    (e == f) = true → (s.Selects c e ↔ s.Selects k f)

theorem Settings.Chooses.iff_of_agrees (h : s.Chooses g chosen) (hg : g.WellBuilt)
    (hagrees : s.Agrees g) (hx : Walks s g x c) (he : e ∈ x.edges) :
    chosen x e ≠ none ↔ s.Selects c e := by
  have hselects : ∀ {x c e o}, Walks s g x c → e ∈ x.edges → chosen x e = some o →
      s.Selects c e := by
    intro x c e o hx he hsome
    obtain ⟨hmeets, hnode, hedge⟩ := h.met hsome
    exact (hagrees _ _ _ _ hmeets.walks hx hnode _ hmeets.mem _ he hedge).1 hmeets.selects
  -- An edge that was chosen is selected in every context, so the walk does not go along it.
  have hpassed : ∀ {x c}, Walks s g x c → Passed chosen g x c := by
    intro x c hx
    induction hx with
    | root => exact .root
    | @step x c e hx he hnot ih =>
      refine .step ih he ?_
      by_contra hsome
      obtain ⟨o, ho⟩ := Option.ne_none_iff_exists'.1 hsome
      exact hnot (hselects hx he ho)
  constructor
  · intro hsome
    obtain ⟨o, ho⟩ := Option.ne_none_iff_exists'.1 hsome
    exact hselects hx he ho
  · intro hsel
    obtain ⟨y, k, hyx, -, hy, hall⟩ := h.all (hpassed hx)
    have hsame : SameNode y x := ⟨hyx, hy.has.wellBuilt hg, hx.has.wellBuilt hg⟩
    obtain ⟨f, hf, hef⟩ := hsame.symm.edge he
    have hself := hagrees x c y k hx hy hsame.symm.beq e he f hf hef.beq
    rw [h.congr hsame.symm hef]
    exact hall f hf (hself.1 hsel)

/-! ## What was chosen -/

def Revision.occurrence? (r : Revision) (context : GraphEdge × GraphEdge → Context) (x : Graph)
    (e : Resolved) : Option Occurrence :=
  (r.replacements.find? fun p => p.1 == ⟨x, e.2, e.1⟩).map fun p =>
    ⟨p.1.head, (p.1.label, p.1.tail), context p⟩

section Chosen

variable {context : GraphEdge × GraphEdge → Context}

theorem Revision.occurrence?_eq_none :
    r.occurrence? context x e = none ↔ r.replacement? ⟨x, e.2, e.1⟩ = none := by
  unfold occurrence? replacement?
  rw [Option.map_eq_none_iff, Option.map_eq_none_iff]

theorem Revision.occurrence?_eq_some {k : GraphEdge} (h : r.replacement? ⟨x, e.2, e.1⟩ = some k) :
    ∃ p ∈ r.replacements, p.2 = k ∧
      r.occurrence? context x e = some ⟨p.1.head, (p.1.label, p.1.tail), context p⟩ := by
  obtain ⟨p, hp, rfl⟩ := Option.map_eq_some_iff.1 h
  refine ⟨p, List.mem_of_find?_eq_some hp, rfl, ?_⟩
  unfold occurrence?
  rw [hp]
  rfl

theorem Revision.wasAt_iff :
    r.wasAt x c = true ↔ ∃ v ∈ r.visited, (v.1 == x) = true ∧ (v.2 == c) = true := by
  unfold wasAt
  simp [List.any_eq_true]

theorem along_beq {k : Context} (hc : (c == k) = true) (he : SameEdge e f) :
    (along c e == along k f) = true := by
  have hchain := ((Dependency.beq_iff _ _).1 he.label).1
  have hqualifier : e.1.chain.current.qualifier = f.1.chain.current.qualifier := by
    unfold Desire.qualifier
    rw [Desire.point_of_beq (DesireChain.current_beq hchain)]
  have hsatisfaction := ((Component.beq_iff _ _).1 he.tail.label).1
  unfold along
  rw [hqualifier]
  exact Context.extend_beq hc hsatisfaction _

theorem Revised.wasAt (h : Revised s g r R g')
    (hpassed : Passed (r.occurrence? context) g x c) : r.wasAt x c = true ∧ g.Has x := by
  induction hpassed with
  | root => exact ⟨h.start, .self g⟩
  | @step x c e hx he hnone ih =>
    obtain ⟨hat, hhas⟩ := ih
    refine ⟨?_, hhas.edge he⟩
    obtain ⟨⟨y, k⟩, hv, hyx, hkc⟩ := Revision.wasAt_iff.1 hat
    obtain ⟨hwalks, hhandled⟩ := h.visited _ hv
    have hsame : SameNode y x :=
      ⟨hyx, hwalks.has.wellBuilt h.wellBuilt, hhas.wellBuilt h.wellBuilt⟩
    obtain ⟨f, hf, hef⟩ := hsame.symm.edge he
    -- An edge for which something was staged is not passed, so the walk went along it.
    rcases hhandled f hf with hsome | ⟨-, htail⟩
    · have hends : Dag.SameEnds ⟨y, f.2, f.1⟩ ⟨x, e.2, e.1⟩ :=
        ⟨hsame, hef.tail.symm, hef.symm.label⟩
      rw [r.respects _ _ hends, Revision.occurrence?_eq_none.1 hnone] at hsome
      cases hsome
    · obtain ⟨v, hv, hnode, hcontext⟩ := Revision.wasAt_iff.1 htail
      exact Revision.wasAt_iff.2 ⟨v, hv, Dag.beq_trans hnode hef.tail.symm.beq,
        BEq.trans hcontext (along_beq hkc hef.symm)⟩

theorem Revised.chooses (h : Revised s g r R g')
    (hcontext : ∀ p ∈ r.replacements, Staged s g (context p) p.1 p.2) :
    s.Chooses g (r.occurrence? context) where
  congr := by
    intro x y e f hxy hef
    have hends : Dag.SameEnds ⟨x, e.2, e.1⟩ ⟨y, f.2, f.1⟩ := ⟨hxy, hef.tail, hef.label⟩
    unfold Revision.occurrence?
    rw [r.find?_congr hends]
  met := by
    intro x e o ho
    obtain ⟨p, hp, rfl⟩ := Option.map_eq_some_iff.1 ho
    have hkey := List.find?_some hp
    have hstaged := hcontext p (List.mem_of_find?_eq_some hp)
    obtain ⟨hhead, htail, hl⟩ := (Dag.Edge.beq_iff _ _).1 hkey
    exact ⟨⟨hstaged.walks, hstaged.mem, hstaged.selects⟩, hhead,
      (Dag.edge_beq_iff _ _).2 ⟨hl, htail⟩⟩
  all := by
    intro x c hpassed
    obtain ⟨⟨y, k⟩, hv, hyx, hkc⟩ := Revision.wasAt_iff.1 (h.wasAt hpassed).1
    obtain ⟨hwalks, hhandled⟩ := h.visited _ hv
    refine ⟨y, k, hyx, hkc, hwalks, fun e he hsel hnone => ?_⟩
    rcases hhandled e he with hsome | ⟨hnot, -⟩
    · rw [Revision.occurrence?_eq_none.1 hnone] at hsome
      cases hsome
    · exact hnot hsel

theorem renewed_of_moved
    (hcontext : ∀ p ∈ r.replacements, Staged s g (context p) p.1 p.2)
    (hmoved : Dag.Moved r.replacement? R x e e') :
    s.Renewed (r.occurrence? context) R x e e' := by
  cases hmoved with
  | kept hnone hl htail => exact .kept (Revision.occurrence?_eq_none.2 hnone) hl htail
  | replaced hk he' =>
    obtain ⟨p, hp, rfl, ho⟩ := Revision.occurrence?_eq_some hk
    exact .again ho ((hcontext p hp).redone.answers.1.congr he')

end Chosen

/-- A revision chooses which edges to resolve again, and where. The chosen ones are those selected
in a context of the walk; on what is left of the graph nothing is selected but what was chosen, and
where the contexts that a node is met in agree, an edge is chosen if and only if it is selected.
In the revised graph an edge that was chosen is what its desire comes to in the context it was
chosen for, and all others are kept. -/
theorem Solver.renewed_of_revise (hv : v.Within m) (hg : m.nodes g)
    (h : ((v.revise g).run m.next).1.result = .ok g') :
    ∃ (chosen : Graph → Resolved → Option Occurrence) (R : Graph → Graph → Prop),
      v.settings.Chooses g chosen ∧
      (v.settings.Agrees g → ∀ x c, Walks v.settings g x c → ∀ e ∈ x.edges,
        (chosen x e ≠ none ↔ v.settings.Selects c e)) ∧
      R g g' ∧ ∀ x y, R x y → (x.label == y.label) = true ∧
        (∀ e ∈ x.edges, ∃ e' ∈ y.edges, v.settings.Renewed chosen R x e e') ∧
        ∀ e' ∈ y.edges, ∃ e ∈ x.edges, v.settings.Renewed chosen R x e e' := by
  obtain ⟨r, R, hrevised⟩ := v.revised_of_revise hv hg h
  have hstaged : ∀ p, ∃ c, p ∈ r.replacements → Staged v.settings g c p.1 p.2 := by
    intro p
    by_cases hp : p ∈ r.replacements
    · obtain ⟨c, hc⟩ := hrevised.staged p hp
      exact ⟨c, fun _ => hc⟩
    · exact ⟨.initial, fun hp' => absurd hp' hp⟩
  choose context hcontext using hstaged
  have hchooses := hrevised.chooses hcontext
  refine ⟨_, R, hchooses, fun hagrees x c hx e he =>
    hchooses.iff_of_agrees hrevised.wellBuilt hagrees hx he, hrevised.root, fun x y hxy => ?_⟩
  have himaged := hrevised.transforms.imaged hxy
  refine ⟨himaged.label, fun e he => ?_, fun e' he' => ?_⟩
  · obtain ⟨e', he', hmoved⟩ := himaged.edge e he
    exact ⟨e', he', renewed_of_moved hcontext hmoved⟩
  · obtain ⟨e, he, hmoved⟩ := himaged.origin e' he'
    exact ⟨e, he, renewed_of_moved hcontext hmoved⟩

/-- A class with one dependency, where a trigger has an opinion on roots. -/
theorem Solver.renewed_of_root :
    let pair : Catalog := .freeze [⟨.named "A", true, [], [⟨none, "b", .named "B", none, false⟩],
      {}, .noPreference, none, none⟩, ⟨.named "B", true, [], [], {}, .noPreference, none, none⟩] []
    let s : Settings := { ofConfig pair [] {} with
      triggers := [.chosen [.offer none .noPreference {}] fun c _ =>
        if c.depth = 0 then some 0 else none] }
    let called := (((ofSettings s).run 0).1.resolve (pair.rootDesire (.named "A") none)).run 1
    let v := called.1.solver
    ∃ m : GraphMemory, v.Within m ∧ ∃ g', ((v.revise v.graph).run m.next).1.result = .ok g' ∧
      ∃ chosen R, v.settings.Chooses v.graph chosen ∧ R v.graph g' ∧
        ∀ e ∈ v.graph.edges, ∃ e' ∈ g'.edges, v.settings.Renewed chosen R v.graph e e' := by
  intro pair s called v
  have hok : ((v.revise v.graph).run called.2).1.result.isOk = true := by
    subst called v s pair
    decide +kernel
  obtain ⟨m, hnext, hv⟩ := @exists_within s (pair.rootDesire (.named "A") none) called rfl
  clear_value called
  rw [← hnext] at hok
  cases hresult : ((v.revise v.graph).run m.next).1.result with
  | error e =>
    rw [hresult] at hok
    cases hok
  | ok g' =>
    obtain ⟨chosen, R, hchooses, -, hroot, hR⟩ := renewed_of_revise hv hv.graph hresult
    exact ⟨m, hv, g', hresult, chosen, R, hchooses, hroot, (hR _ _ hroot).2.1⟩

end Wiring
