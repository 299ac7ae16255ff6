import Wiring.Proofs.Solver.Completeness
import Wiring.Proofs.Solver.Failures
import Wiring.Proofs.Solver.Unruled
import Mathlib.Data.List.Pairwise

/-!
# Roots that stay out of each other's way

All roots of a solver share one graph and one collection of back-edges. What a root comes to depends
on the roots resolved before it only through back-edges: a node that has some is not expanded again.
Where the back-edges that each desire has on its own are about no component of what another comes to
on its own, every desire comes to what it would come to in a new solver.
-/

namespace Wiring

open Work Settings Catalog BackEdges

variable {s : Settings} {v u : Solver} {d : Desire} {ds : List Desire} {tag : Nat}
  {orders : Nat → BackEdges.Order} {x x' y y' : Graph} {path : List Desire} {b k : BackEdges}

/-! ## Paths of desires -/

/-- A node at the end of a path of desires, over edges and back-edges. -/
inductive Walk (b : BackEdges) : Graph → List Desire → Graph → Prop
  | here {x : Graph} : Walk b x [] x
  | edge {x y : Graph} {e : Resolved} {d : Desire} {path : List Desire} :
      e ∈ x.edges → (e.1.initial == d) = true → Walk b e.2 path y → Walk b x (d :: path) y
  | back {x y : Graph} {e : GraphEdge} {d : Desire} {path : List Desire} :
      e ∈ b.edgesOf x → (e.label.initial == d) = true → Walk b e.tail path y →
      Walk b x (d :: path) y

theorem Walk.follow {R : Graph → Graph → Prop}
    (hedge : ∀ x x', R x x' → ∀ e ∈ x.edges, ∃ f ∈ x'.edges, (e.1 == f.1) = true ∧ R e.2 f.2)
    (hback : ∀ x x', R x x' → ∀ e ∈ b.edgesOf x, ∃ f ∈ k.edgesOf x',
      (e.label == f.label) = true ∧ R e.tail f.tail)
    (h : Walk b x path y) (hx : R x x') : ∃ y', Walk k x' path y' ∧ R y y' := by
  induction h generalizing x' with
  | here => exact ⟨x', .here, hx⟩
  | edge he hd _ ih =>
    obtain ⟨f, hf, hlabel, htail⟩ := hedge _ _ hx _ he
    obtain ⟨y', hwalk, hy⟩ := ih htail
    exact ⟨y', .edge hf (BEq.trans (BEq.symm (Dependency.initial_beq hlabel)) hd) hwalk, hy⟩
  | back he hd _ ih =>
    obtain ⟨f, hf, hlabel, htail⟩ := hback _ _ hx _ he
    obtain ⟨y', hwalk, hy⟩ := ih htail
    exact ⟨y', .back hf (BEq.trans (BEq.symm (Dependency.initial_beq hlabel)) hd) hwalk, hy⟩

namespace Solver

/-- A path of desires from the node of a root desire ends at a node of the component. -/
def EndsAt (v : Solver) (d : Desire) (path : List Desire) (l : Component) : Prop :=
  ∃ x y, v.rootNode? d = some x ∧ Walk v.backEdges x path y ∧ (y.label == l) = true

/-- What a desire comes to on its own: a call on a new solver. -/
def alone (s : Settings) (orders : Nat → BackEdges.Order) (tag : Nat) (d : Desire) :
    Called Unit :=
  ((do (← ofSettings s orders).resolve d : Dag.Fresh _).run tag).1

def components (v : Solver) : Components where
  has l := ∃ x, Linked v.backEdges v.graph x ∧ (x.label == l) = true
  congr := by
    rintro l l' hl ⟨x, hx, hxl⟩
    exact ⟨x, hx, BEq.trans hxl hl⟩

/-- The back-edges of one solver are about no component of what the other's graph leads to. -/
structure Apart (v u : Solver) : Prop where
  head : ∀ entry ∈ v.backEdges.entries, ¬ u.components.has entry.1.label
  tail : ∀ entry ∈ v.backEdges.entries, ∀ e ∈ entry.2, ¬ u.components.has e.tail.label

def ApartAlone (s : Settings) (orders : Nat → BackEdges.Order) (tag : Nat) (d d' : Desire) :
    Prop :=
  Apart (alone s orders tag d).solver (alone s orders tag d').solver ∧
    Apart (alone s orders tag d').solver (alone s orders tag d).solver

instance : Std.Symm (ApartAlone s orders tag) := ⟨fun _ _ h => h.symm⟩

/-- Root desires that can be resolved on their own and then stay out of each other's way. What may
be put off needs something. -/
structure Independent (s : Settings) (orders : Nat → BackEdges.Order) (tag : Nat)
    (ds : List Desire) : Prop where
  root : ∀ d ∈ ds, ∃ t q, d = s.catalog.rootDesire t q
  resolved : ∀ d ∈ ds, (alone s orders tag d).result = .ok ()
  needs : ∀ f, s.Queued ds f → s.catalog.needs f.node ≠ []
  apart : ds.Pairwise (ApartAlone s orders tag)

theorem apart_of_entries (h : v.backEdges.entries = []) : Apart v u where
  head := by simp [h]
  tail := by simp [h]

theorem apart_of_region (h : ∀ entry ∈ v.backEdges.entries,
    ∀ y ∈ entry.1 :: entry.2.map (·.tail), ∀ x ∈ u.backEdges.region u.graph,
      (x.label == y.label) = false) : Apart v u := by
  have hnot : ∀ entry ∈ v.backEdges.entries, ∀ y ∈ entry.1 :: entry.2.map (·.tail),
      ¬ u.components.has y.label := by
    rintro entry hentry y hy ⟨x, hx, hxy⟩
    rw [h entry hentry y hy x hx.mem_region] at hxy
    cases hxy
  exact ⟨fun entry hentry => hnot entry hentry _ List.mem_cons_self, fun entry hentry e he =>
    hnot entry hentry _ (List.mem_cons_of_mem _ (List.mem_map_of_mem he))⟩

/-! ## A desire on its own -/

theorem alone_eq (s : Settings) (orders : Nat → BackEdges.Order) (tag : Nat) (d : Desire) :
    alone s orders tag d = ((((ofSettings s orders).run tag).1.resolve d).run (tag + 1)).1 := rfl

theorem sound_alone (s : Settings) (orders : Nat → BackEdges.Order) (tag : Nat) (d : Desire) :
    (alone s orders tag d).solver.Sound := by
  rw [alone_eq]
  exact (sound_ofSettings s orders tag).resolve d (tag + 1)

theorem keeps_distinct (s : Settings) : s.Keeps fun p => Distinct p.backEdges.entries where
  closed _ _ _ h := h.update _ _
  repeated _ _ h := h.update _ _
  noted _ h := h
  replaced _ _ _ _ _ _ _ := distinct_rekey _ _ _

theorem keyed_alone (h : (alone s orders tag d).result = .ok ()) :
    Keyed (alone s orders tag d).solver.backEdges.entries := by
  refine ⟨fun entry hentry => ((sound_alone s orders tag d).head entry hentry).1, ?_⟩
  rw [alone_eq] at h ⊢
  obtain ⟨p, hp, -, hback⟩ := (keeps_distinct s).resolve (sound_ofSettings s orders tag)
    (fun _ _ _ _ => .nil) h
  exact hback ▸ hp

theorem oneRoot_alone (h : (alone s orders tag d).result = .ok ()) :
    OneRoot d (alone s orders tag d).solver.graph := by
  rw [alone_eq] at h ⊢
  have hlinked : ∀ (edge : Resolved) (tag' : Nat), edge.1.initial = d → edge.2.WellBuilt →
      OneRoot d (withChild ((ofSettings s orders).run tag).1.graph edge.1 edge.2 tag') := by
    intro edge tag' hd hw
    let root := ((ofSettings s orders).run tag).1.graph
    have hedges : ∀ e ∈ (withChild root edge.1 edge.2 tag').edges, e = edge :=
      fun e he => (mem_withChild he).resolve_left List.not_mem_nil
    obtain ⟨f, hf, -⟩ := exists_withChild root edge.1 edge.2 tag'
    refine ⟨?_, List.ne_nil_of_mem hf, fun e he => ?_, fun e he f hf => ?_⟩
    · rw [withChild_label]
      exact BEq.rfl
    · rw [hedges e he, hd]
      exact BEq.rfl
    · rw [hedges e he, hedges f hf]
      exact .refl hw
  obtain ⟨p, hp, hgraph, -⟩ :=
    (keeps_oneRoot s d).resolve (sound_ofSettings s orders tag) hlinked h
  exact hgraph ▸ hp

/-! ## Many desires side by side -/

def rootsOf (s : Settings) (orders : Nat → BackEdges.Order) (tag : Nat) (ds : List Desire) :
    List Resolved :=
  ds.flatMap fun d => (alone s orders tag d).solver.graph.edges

/-- The back-edges that the desires have on their own, those of the last desire first. -/
def loopsOf (s : Settings) (orders : Nat → BackEdges.Order) (tag : Nat) (ds : List Desire) :
    List (Graph × List GraphEdge) :=
  ds.reverse.flatMap fun d => (alone s orders tag d).solver.backEdges.entries

theorem mem_loopsOf {entry : Graph × List GraphEdge} : entry ∈ loopsOf s orders tag ds ↔
    ∃ d ∈ ds, entry ∈ (alone s orders tag d).solver.backEdges.entries := by
  unfold loopsOf
  simp only [List.mem_flatMap, List.mem_reverse]

theorem loopsOf_cons (s : Settings) (orders : Nat → BackEdges.Order) (tag : Nat) (d : Desire)
    (ds : List Desire) : loopsOf s orders tag (d :: ds) =
      loopsOf s orders tag ds ++ (alone s orders tag d).solver.backEdges.entries := by
  unfold loopsOf
  rw [List.reverse_cons, List.flatMap_append, List.flatMap_singleton]

/-- The solver holds what the desires come to on their own, side by side. -/
structure Gathered (s : Settings) (orders : Nat → BackEdges.Order) (tag : Nat) (ds : List Desire)
    (v : Solver) : Prop where
  sound : v.Sound
  settings : v.settings = s
  root : Dag.Includes (rootsOf s orders tag ds) ((ofSettings s orders).run tag).1.graph v.graph
  back : SameAnswers ⟨loopsOf s orders tag ds⟩ v.backEdges

theorem Apart.ne_head (h : Apart v u) (hu : u.Sound) {entry entry' : Graph × List GraphEdge}
    (hentry : entry ∈ v.backEdges.entries) (hentry' : entry' ∈ u.backEdges.entries) :
    (entry.1 == entry'.1) = false := by
  rw [Bool.eq_false_iff]
  intro hbeq
  obtain ⟨-, hunder, -⟩ := hu.head entry' hentry'
  obtain ⟨z, hz, hentryz⟩ := Dag.reaches_iff.1 hunder.reaches
  refine h.head entry hentry ⟨z, linked_of_has .root hz, ?_⟩
  exact BEq.symm (Dag.label_beq (Dag.beq_trans hbeq hentryz))

theorem Gathered.exists_loop (h : Gathered s orders tag ds v) {entry : Graph × List GraphEdge}
    (hentry : entry ∈ v.backEdges.entries) :
    ∃ d ∈ ds, ∃ loop ∈ (alone s orders tag d).solver.backEdges.entries, SameEntry loop entry := by
  obtain ⟨loop, hloop, hsame⟩ := h.back.exists_left hentry
  obtain ⟨d, hd, hloop⟩ := mem_loopsOf.1 hloop
  exact ⟨d, hd, loop, hloop, hsame⟩

theorem Gathered.aside (h : Gathered s orders tag ds v)
    (hapart : ∀ d ∈ ds, Apart (alone s orders tag d).solver u) :
    Aside s.catalog u.components v.graph.edges v.backEdges.entries := by
  have hsound := h.sound
  refine ⟨fun g hg => hsound.wellBuilt.tail hg, fun g hg y hy => ?_, fun entry hentry e he => ?_,
    fun entry hentry hhas => ?_, fun entry hentry e he hhas => ?_⟩
  · have hne := Dag.Has.not_root hsound.wellBuilt (.self _) hg hy
    rw [← h.settings]
    exact hsound.covered (hy.wellBuilt (hsound.wellBuilt.tail hg)) hne (Dag.Has.step hg hy).reaches
  · obtain ⟨_, _, _, _, hsame⟩ := h.exists_loop hentry
    obtain ⟨_, _, hee⟩ := hsame.edges.exists_right he
    exact ⟨(hsound.edge entry hentry e he).head, hee.head.right, hsame.head.right⟩
  · obtain ⟨d, hd, loop, hloop, hsame⟩ := h.exists_loop hentry
    exact (hapart d hd).head loop hloop ((u.components.iff hsame.head.label).2 hhas)
  · obtain ⟨d, hd, loop, hloop, hsame⟩ := h.exists_loop hentry
    obtain ⟨e', he', hee⟩ := hsame.edges.exists_right he
    exact (hapart d hd).tail loop hloop e' he' ((u.components.iff hee.tail.label).2 hhas)

theorem Independent.of_cons (h : Independent s orders tag (d :: ds)) :
    Independent s orders tag ds := by
  refine ⟨fun d' hd' => h.root d' (List.mem_cons_of_mem d hd'),
    fun d' hd' => h.resolved d' (List.mem_cons_of_mem d hd'), fun f hf => ?_, h.apart.of_cons⟩
  exact h.needs f (hf.mono fun d' hd' => List.mem_cons_of_mem d hd')

theorem gathered_nil (s : Settings) (orders orders' : Nat → BackEdges.Order) (tag tag' : Nat) :
    Gathered s orders tag [] ((ofSettings s orders').run tag').1 where
  sound := sound_ofSettings s orders' tag'
  settings := rfl
  root := (beside_fresh s orders orders' tag tag').root
  back := joined_empty.toSameAnswers

theorem spans_components (v : Solver) : v.components.Spans v.graph := by
  rintro y ⟨e, he, hy⟩
  obtain ⟨z, hz, hyz⟩ := Dag.reaches_iff.1 hy
  exact ⟨z, linked_of_has .root (.step he hz), BEq.symm (Dag.label_beq hyz)⟩

theorem Gathered.follow (hs : s.Unscripted) (hplain : s.catalog.Plain)
    (h : Gathered s orders tag ds v) (hi : Independent s orders tag (d :: ds)) (tag' : Nat) :
    ((v.resolve d).run tag').1.result = .ok () ∧
      Beside v.graph.edges v.backEdges.entries (alone s orders tag d).solver
        ((v.resolve d).run tag').1.solver := by
  have hapart : ∀ d' ∈ ds, Apart (alone s orders tag d').solver (alone s orders tag d).solver :=
    fun d' hd' => (List.rel_of_pairwise_cons hi.apart hd').2
  have hneeds : ∀ f, s.Queued [d] f → s.catalog.needs f.node ≠ [] :=
    fun f hf => hi.needs f (hf.mono fun d' hd' => List.mem_singleton.1 hd' ▸ List.mem_cons_self)
  have hself : ∀ e ∈ v.graph.edges, Dag.SameEdge e e :=
    fun e he => .refl (h.sound.wellBuilt.tail he)
  have hroot : Dag.Includes v.graph.edges ((ofSettings s orders).run tag).1.graph v.graph :=
    ⟨h.root.label, h.root.left, h.root.right, fun e he => ⟨e, he, hself e he⟩,
      fun e he => ⟨e, he, hself e he⟩⟩
  exact resolve_beside (v := ((ofSettings s orders).run tag).1) hs hplain (h.aside hapart)
    (fun _ => hneeds) h.settings (sound_ofSettings s orders tag) h.sound
    ⟨hroot, joined_self (h.back.symm.trans h.back)⟩ (hi.resolved d List.mem_cons_self)
    (spans_components _) tag'

theorem Gathered.resolve (hs : s.Unscripted) (hplain : s.catalog.Plain)
    (h : Gathered s orders tag ds v) (hi : Independent s orders tag (d :: ds)) (tag' : Nat) :
    ((v.resolve d).run tag').1.result = .ok () ∧
      Gathered s orders tag (d :: ds) ((v.resolve d).run tag').1.solver := by
  obtain ⟨hok, hroot, hback⟩ := h.follow hs hplain hi tag'
  have hd := hi.resolved d List.mem_cons_self
  have hapart : ∀ entry ∈ (alone s orders tag d).solver.backEdges.entries,
      NoHead (loopsOf s orders tag ds) entry.1 := by
    intro entry hentry loop hloop
    obtain ⟨d', hd', hloop⟩ := mem_loopsOf.1 hloop
    have hapart : Apart (alone s orders tag d').solver (alone s orders tag d).solver :=
      (List.rel_of_pairwise_cons hi.apart hd').2
    exact hapart.ne_head (sound_alone s orders tag d) hloop hentry
  refine ⟨hok, h.sound.resolve d tag', (settings_resolve v d tag').trans h.settings, ?_, ?_⟩
  · have hlabel := BEq.trans (oneRoot_alone hd).label hroot.label
    have hroots : rootsOf s orders tag (d :: ds) =
      (alone s orders tag d).solver.graph.edges ++ rootsOf s orders tag ds := List.flatMap_cons
    -- A new solver has no edges: those of the first one are all among the roots.
    refine ⟨hlabel, h.root.left, hroot.right, fun e he => ?_, fun f hf => ?_⟩
    · have he : e ∈ rootsOf s orders tag (d :: ds) := he
      rw [hroots] at he
      rcases List.mem_append.1 he with he | he
      · exact hroot.edge e (List.mem_append_left _ he)
      · obtain ⟨g, hg, heg⟩ := h.root.edge e he
        obtain ⟨f, hf, hgf⟩ := hroot.edge g (List.mem_append_right _ hg)
        exact ⟨f, hf, heg.trans hgf⟩
    · suffices hroot : ∃ e ∈ rootsOf s orders tag (d :: ds), Dag.SameEdge e f from hroot
      rw [hroots]
      obtain ⟨g, hg, hgf⟩ := hroot.origin f hf
      rcases List.mem_append.1 hg with hg | hg
      · exact ⟨g, List.mem_append_left _ hg, hgf⟩
      · obtain ⟨e, he, heg⟩ := h.root.origin g hg
        exact ⟨e, List.mem_append_right _ he, heg.trans hgf⟩
  · rw [loopsOf_cons]
    exact h.back.of_front (h.back.left.append (keyed_alone hd) hapart) hback.toSameAnswers

theorem After.gathered (hs : s.Unscripted) (hplain : s.catalog.Plain) (h : After s ds v)
    (hi : Independent s orders tag ds) : Gathered s orders tag ds v := by
  induction h with
  | fresh orders' tag' => exact gathered_nil s orders orders' tag tag'
  | resolve d tag' _ ih => exact ((ih hi.of_cons).resolve hs hplain hi tag').2

/-! ## What is below a root -/

theorem Gathered.edgesOf (h : Gathered s orders tag ds v) (hi : Independent s orders tag ds)
    (hd : d ∈ ds)
    (hx : Linked (alone s orders tag d).solver.backEdges (alone s orders tag d).solver.graph x)
    (hsame : Dag.SameNode x x') :
    SameEdges ((alone s orders tag d).solver.backEdges.edgesOf x) (v.backEdges.edgesOf x') := by
  have hkeyed := keyed_alone (hi.resolved d hd)
  have hloops : (⟨loopsOf s orders tag ds⟩ : BackEdges).edgesOf x =
      (alone s orders tag d).solver.backEdges.edgesOf x := by
    by_cases hno : NoHead (alone s orders tag d).solver.backEdges.entries x
    · have hall : NoHead (loopsOf s orders tag ds) x := by
        intro entry hentry
        obtain ⟨d', hd', hentry⟩ := mem_loopsOf.1 hentry
        by_cases hdd : d' = d
        · exact hno entry (hdd ▸ hentry)
        · have hapart := hi.apart.forall hd' hd hdd
          refine Bool.eq_false_iff.2 fun hbeq => hapart.1.head entry hentry ⟨x, hx, ?_⟩
          exact BEq.symm (Dag.label_beq hbeq)
      exact hall.edgesOf.trans hno.edgesOf.symm
    · unfold NoHead at hno
      push Not at hno
      obtain ⟨entry, hentry, hbeq⟩ := hno
      rw [ne_eq, Bool.not_eq_false] at hbeq
      rw [h.back.left.edgesOf (mem_loopsOf.2 ⟨d, hd, hentry⟩) hbeq]
      exact (hkeyed.edgesOf hentry hbeq).symm
  rw [← hloops]
  exact h.back.edges x x' hsame

theorem exists_resolved {g : Graph} {e : Resolved} (he : e ∈ g.edges)
    (hd : (e.1.initial == d) = true) :
    ∃ f ∈ g.edges, (f.1.initial == d) = true ∧ g.resolved? d = some f.2 := by
  have hsome : (g.edges.find? fun e => e.1.initial == d).isSome = true :=
    List.find?_isSome.2 ⟨e, he, hd⟩
  obtain ⟨f, hfind⟩ := Option.isSome_iff_exists.1 hsome
  have hf := List.find?_some hfind
  refine ⟨f, List.mem_of_find?_eq_some hfind, hf, ?_⟩
  unfold Graph.resolved? Dag.outgoing? Dag.outgoing
  rw [List.find?_map, Function.comp_def, hfind]
  rfl

theorem Independent.eq_of_beq (hi : Independent s orders tag ds) {d' : Desire} (hd : d ∈ ds)
    (hd' : d' ∈ ds) (h : (d == d') = true) : d = d' := by
  obtain ⟨t, q, rfl⟩ := hi.root d hd
  obtain ⟨t', q', rfl⟩ := hi.root d' hd'
  have hpoint : InjectionPoint.ofRoot t q = .ofRoot t' q' := Desire.point_of_beq h
  unfold Catalog.rootDesire
  rw [hpoint]

theorem Gathered.rootNode (h : Gathered s orders tag ds v) (hi : Independent s orders tag ds)
    (hd : d ∈ ds) :
    ∃ x x', (alone s orders tag d).solver.rootNode? d = some x ∧ v.rootNode? d = some x' ∧
      Dag.SameNode x x' ∧ (alone s orders tag d).solver.graph.Has x := by
  obtain ⟨-, hrooted, hinitial, hsame⟩ := oneRoot_alone (hi.resolved d hd)
  obtain ⟨a, ha⟩ := List.exists_mem_of_ne_nil _ hrooted
  obtain ⟨b, hb, hab⟩ := h.root.edge a
    (List.mem_append_right _ (List.mem_flatMap.2 ⟨d, hd, ha⟩))
  obtain ⟨e, he, -, hroot⟩ := exists_resolved ha (hinitial a ha)
  obtain ⟨f, hf, hfd, hroot'⟩ := exists_resolved hb (BEq.trans
    (BEq.symm (Dependency.initial_beq hab.label)) (hinitial a ha))
  refine ⟨e.2, f.2, hroot, hroot', ?_, .step he (.self _)⟩
  -- The edge of the other solver is that of one of the desires, which is this one.
  obtain ⟨e', he', hef⟩ := h.root.origin f hf
  have he' := (List.mem_append.1 he').resolve_left List.not_mem_nil
  obtain ⟨d', hd', he'⟩ := List.mem_flatMap.1 he'
  have hdd : (d' == d) = true := BEq.trans
    (BEq.symm ((oneRoot_alone (hi.resolved d' hd')).initial e' he'))
    (BEq.trans (Dependency.initial_beq hef.label) hfd)
  cases hi.eq_of_beq hd' hd hdd
  exact ((hsame e he e' he').trans hef).tail

theorem Gathered.endsAt_iff (h : Gathered s orders tag ds v) (hi : Independent s orders tag ds)
    (hd : d ∈ ds) (path : List Desire) (l : Component) :
    v.EndsAt d path l ↔ (alone s orders tag d).solver.EndsAt d path l := by
  obtain ⟨x, x', hroot, hroot', hxx, hx⟩ := h.rootNode hi hd
  have hback : ∀ y y',
      Linked (alone s orders tag d).solver.backEdges (alone s orders tag d).solver.graph y →
      Dag.SameNode y y' →
      SameEdges ((alone s orders tag d).solver.backEdges.edgesOf y) (v.backEdges.edgesOf y') :=
    fun y y' => h.edgesOf hi hd
  generalize (alone s orders tag d).solver = u at *
  -- Each step leads from equal nodes to equal nodes.
  constructor
  · rintro ⟨_, y', hr, hwalk, hl⟩
    cases hroot'.symm.trans hr
    obtain ⟨y, hwalk, hyy, -⟩ := hwalk.follow (k := u.backEdges)
      (R := fun y' y => Dag.SameNode y y' ∧ Linked u.backEdges u.graph y)
      (fun y' y ⟨hyy, hy⟩ f hf => by
        obtain ⟨e, he, hfe⟩ := hyy.symm.edge hf
        exact ⟨e, he, hfe.label, hfe.tail.symm, .edge hy he⟩)
      (fun y' y ⟨hyy, hy⟩ f hf => by
        obtain ⟨e, he, hef⟩ := (hback y y' hy hyy).exists_right hf
        exact ⟨e, he, BEq.symm hef.label, hef.tail, .back hy he⟩)
      ⟨hxx, linked_of_has .root hx⟩
    exact ⟨x, y, hroot, hwalk, BEq.trans hyy.label hl⟩
  · rintro ⟨_, y, hr, hwalk, hl⟩
    cases hroot.symm.trans hr
    obtain ⟨y', hwalk, hyy, -⟩ := hwalk.follow (k := v.backEdges)
      (R := fun y y' => Dag.SameNode y y' ∧ Linked u.backEdges u.graph y)
      (fun y y' ⟨hyy, hy⟩ e he => by
        obtain ⟨f, hf, hef⟩ := hyy.edge he
        exact ⟨f, hf, hef.label, hef.tail, .edge hy he⟩)
      (fun y y' ⟨hyy, hy⟩ e he => by
        obtain ⟨f, hf, hef⟩ := (hback y y' hy hyy).exists_left he
        exact ⟨f, hf, hef.label, hef.tail, .back hy he⟩)
      ⟨hxx, linked_of_has .root hx⟩
    exact ⟨x', y', hroot', hwalk, BEq.trans hyy.symm.label hl⟩

theorem independent_of_definite {types : List TypeSpec} {qualifiers : List QualifierSpec}
    {config : Config} (hc : (freeze types qualifiers).Definite)
    (hroot : ∀ d ∈ ds, ∃ t q, (freeze types qualifiers).isInstantiable t = true ∧
      d = (freeze types qualifiers).rootDesire t q)
    (hok : ∀ d ∈ ds,
      (alone (.ofConfig (.freeze types qualifiers) [] config) orders tag d).result.isOk = true)
    (hapart : ds.Pairwise (ApartAlone (.ofConfig (.freeze types qualifiers) [] config) orders tag)) :
    Independent (.ofConfig (.freeze types qualifiers) [] config) orders tag ds where
  root d hd := by
    obtain ⟨t, q, -, h⟩ := hroot d hd
    exact ⟨t, q, h⟩
  resolved d hd := by
    have h := hok d hd
    cases hresult : (alone (.ofConfig (.freeze types qualifiers) [] config) orders tag d).result with
    | error e =>
      rw [hresult] at h
      cases h
    | ok _ => rfl
  needs f hf := by
    refine hf.needs_ne_nil rfl (frozen_freeze types qualifiers) hc fun d hd => ?_
    obtain ⟨t, q, ht, rfl⟩ := hroot d hd
    exact sought_rootDesire hc ht q
  apart := hapart

/-- After calls for independent root desires, in whatever order, every path of desires from one of
the roots ends at the component where it ends in a new solver that resolves this root alone. Another
call for an independent desire succeeds. -/
theorem endsAt_iff_of_independent {types : List TypeSpec} {qualifiers : List QualifierSpec}
    {given : List ScopedRule} {config : Config}
    (h : After (.ofConfig (.freeze types qualifiers) given config) ds v)
    (hi : Independent (.ofConfig (.freeze types qualifiers) given config) orders tag ds) :
    let s : Settings := .ofConfig (.freeze types qualifiers) given config
    (∀ d ∈ ds, (v.rootNode? d).isSome = true ∧
      ∀ path l, v.EndsAt d path l ↔ (alone s orders tag d).solver.EndsAt d path l) ∧
    ∀ d, Independent s orders tag (d :: ds) →
      ∀ tag', ((v.resolve d).run tag').1.result = .ok () := by
  intro s
  have hs : s.Unscripted := BindingFunction.isScripted_standard _ given
  have hplain := Catalog.plain_freeze types qualifiers
  have hgathered := h.gathered hs hplain hi
  refine ⟨fun d hd => ⟨?_, hgathered.endsAt_iff hi hd⟩,
    fun d hi' tag' => (hgathered.resolve hs hplain hi' tag').1⟩
  obtain ⟨_, _, -, hroot, -⟩ := hgathered.rootNode hi hd
  rw [hroot]
  rfl

/-- Two classes that provide for each other, and a class that needs a provider of another one. -/
theorem endsAt_iff_of_two :
    let c : Catalog := .freeze [⟨.named "A", true, [],
      [⟨some (.named "A"), "b", .provider (.named "B"), none, false⟩], {}, .noPreference, none,
        none⟩,
      ⟨.named "B", true, [], [⟨some (.named "B"), "a", .provider (.named "A"), none, false⟩], {},
        .noPreference, none, none⟩,
      ⟨.named "C", true, [], [⟨some (.named "C"), "d", .provider (.named "D"), none, false⟩], {},
        .noPreference, none, none⟩,
      ⟨.named "D", true, [], [], {}, .noPreference, none, none⟩] []
    let s : Settings := .ofConfig c [] {}
    let a := c.rootDesire (.named "A") none
    let b := c.rootDesire (.named "C") none
    let u := ((((ofSettings s).run 0).1.resolve a).run 1).1.solver
    let v := ((u.resolve b).run 2).1.solver
    v.backEdges.size = 1 ∧ Independent s (fun _ => .added) 0 [b, a] ∧
      ∀ d ∈ [b, a], ∀ path l,
        v.EndsAt d path l ↔ (alone s (fun _ => .added) 0 d).solver.EndsAt d path l := by
  intro c s a b u v
  have hroot : ∀ d ∈ [b, a], ∃ t q, c.isInstantiable t = true ∧ d = c.rootDesire t q :=
    List.forall_mem_cons.2 ⟨⟨_, _, by decide +kernel, rfl⟩,
      List.forall_mem_singleton.2 ⟨_, _, by decide +kernel, rfl⟩⟩
  have hsize : v.backEdges.size = 1 := by
    subst v u a b s c
    decide +kernel
  have happart : ApartAlone s (fun _ => .added) 0 b a := by
    refine ⟨apart_of_region ?_, apart_of_region ?_⟩
    all_goals
      subst v u a b s c
      decide +kernel
  have hi : Independent s (fun _ => .added) 0 [b, a] := by
    refine independent_of_definite (definite_of_types ?_ ?_) hroot ?_ (List.pairwise_pair.2 happart)
    all_goals
      subst v u a b s c
      decide +kernel
  have hv : After s [b, a] v := .resolve b 2 (.resolve a 1 (.fresh _ 0))
  exact ⟨hsize, hi, fun d hd => ((endsAt_iff_of_independent hv hi).1 d hd).2⟩

end Solver

end Wiring
