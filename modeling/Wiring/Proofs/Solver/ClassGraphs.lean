import Wiring.Proofs.Dag.Same
import Wiring.Proofs.Solver.Puts
import Wiring.Proofs.Solver.Representation
import Wiring.Proofs.Solver.Unruled

/-!
# Graphs of classes

Where every point is of a class and nothing is bound otherwise, resolving follows the dependencies
of a class as far as they lead, or to the cap. Every class becomes one node, however often it is
met on the way.
-/

namespace Wiring

namespace Catalog

structure ClassOnly (c : Catalog) : Prop extends c.NoDefaults where
  point : ∀ t, ∀ d ∈ c.dependencies t, c.isInstantiable d.type = true

inductive Leads (c : Catalog) : TypeKey → Nat → TypeKey → Prop
  | here (t : TypeKey) : Leads c t 0 t
  | further {t u : TypeKey} {d : Desire} {n : Nat} :
      d ∈ c.dependencies t → Leads c d.type n u → Leads c t (n + 1) u

theorem classOnly_of_types {c : Catalog}
    (htypes : ∀ i ∈ c.types, i.defaults.isEmpty = true ∧
      ∀ d ∈ i.dependencies, c.isInstantiable d.type = true)
    (hqualifiers : ∀ k ∈ c.qualifiers, k.2.isEmpty = true) : c.ClassOnly where
  types t k h := by
    obtain ⟨i, hi, rfl⟩ := Option.map_eq_some_iff.1 h
    exact (htypes i (List.mem_of_find?_eq_some hi)).1
  qualifiers kind k h := by
    obtain ⟨_, _, hk, -⟩ := List.lookup_eq_some_iff.1 h
    exact hqualifiers (kind, k) (hk ▸ List.mem_append_right _ List.mem_cons_self)
  point t d hd := by
    obtain ⟨i, hi, -, hd⟩ := exists_info_of_dependency hd
    exact (htypes i hi).2 d hd

theorem Leads.le_rank {c : Catalog} (rank : TypeKey → Nat)
    (hrank : ∀ i ∈ c.types, ∀ d ∈ i.dependencies, rank d.type < rank i.key) {t u : TypeKey}
    {n : Nat} (hlead : c.Leads t n u) : n ≤ rank t := by
  induction hlead with
  | here => omega
  | further hd _ ih =>
    obtain ⟨i, hi, rfl, hdi⟩ := exists_info_of_dependency hd
    have hlt := hrank i hi _ hdi
    omega

end Catalog

namespace Settings

open Work Catalog

/-- No rules, the standard functions, and a frozen catalog of classes. -/
structure Classes (s : Settings) : Prop where
  unruled : s.Unruled
  frozen : s.catalog.Frozen
  classes : s.catalog.ClassOnly

def IsClass (d : Desire) : Prop := d.satisfaction? = some (.construct d.type)

def classLabel (s : Settings) (t : TypeKey) : Component :=
  ⟨.construct t, (CachePolicy.noPreference.or (s.catalog.policy t)).or s.defaultPolicy⟩

/-- A node of the class, over one node for every dependency, all the way down. -/
inductive OfClass (s : Settings) : TypeKey → Graph → Prop
  | node {t : TypeKey} {g : Graph} : g.WellBuilt → (g.label == s.classLabel t) = true →
      (∀ e ∈ g.edges, ∃ d ∈ s.catalog.dependencies t,
        (e.1 == d.construction.dependency) = true) →
      (∀ d ∈ s.catalog.dependencies t, ∃ e ∈ g.edges,
        (e.1 == d.construction.dependency) = true) →
      (∀ e ∈ g.edges, OfClass s e.1.initial.type e.2) → OfClass s t g

/-- From so deep a context on, all that the class leads to is within the cap. -/
def Fits (s : Settings) (depth : Nat) (t : TypeKey) : Prop :=
  ∀ n u, s.catalog.Leads t n u → depth + n ≤ s.maxDepth

variable {s : Settings} {d : Desire} {k : Context} {t u : TypeKey} {g h : Graph}

theorem isClass_desire {c : Catalog} {p : InjectionPoint} (hp : c.isInstantiable p.type = true) :
    IsClass (c.desire p) := if_pos hp

theorem Classes.isClass (hs : s.Classes) (hd : d ∈ s.catalog.dependencies t) : IsClass d := by
  have hinst := hs.classes.point t d hd
  have hfrozen := hs.frozen t d hd
  rw [hfrozen] at hinst ⊢
  exact isClass_desire hinst

theorem type_of_dependency {e : Dependency} (he : (e == d.construction.dependency) = true) :
    e.initial.type = d.type :=
  Desire.type_of_beq (Dependency.initial_beq he)

/-! ## The cap -/

theorem fits_iff {depth : Nat} : s.Fits depth t ↔
    depth ≤ s.maxDepth ∧ ∀ d ∈ s.catalog.dependencies t, s.Fits (depth + 1) d.type := by
  unfold Fits
  constructor
  · intro hfits
    have hhere := hfits 0 t (.here t)
    refine ⟨by omega, fun d hd n u hu => ?_⟩
    have hfurther := hfits (n + 1) u (.further hd hu)
    omega
  · rintro ⟨hdepth, hfits⟩ n u hu
    cases hu with
    | here => omega
    | further hd hu =>
      have hfurther := hfits _ hd _ _ hu
      omega

/-! ## Nodes of classes -/

namespace OfClass

theorem wellBuilt (hg : s.OfClass t g) : g.WellBuilt := by
  cases hg
  assumption

theorem satisfaction (hg : s.OfClass t g) : g.label.satisfaction = .construct t := by
  obtain ⟨-, hlabel, -, -, -⟩ := hg
  have hsame := (Satisfaction.beq_iff _ _).1 ((Component.beq_iff _ _).1 hlabel).1
  unfold classLabel at hsame
  cases hl : g.label.satisfaction <;> rw [hl] at hsame <;> simp_all [Satisfaction.essence]

theorem congr (hg : s.OfClass t g) (hgh : Dag.SameNode g h) : s.OfClass t h := by
  induction hg generalizing h with
  | node _ hlabel hdeclared hcomplete _ ih =>
    refine .node hgh.right (BEq.trans hgh.symm.label hlabel) (fun f hf => ?_) (fun d hd => ?_)
      fun f hf => ?_
    · obtain ⟨e, he, hfe⟩ := hgh.symm.edge hf
      obtain ⟨d, hd, hed⟩ := hdeclared e he
      exact ⟨d, hd, BEq.trans hfe.label hed⟩
    · obtain ⟨e, he, hed⟩ := hcomplete d hd
      obtain ⟨f, hf, hef⟩ := hgh.edge he
      exact ⟨f, hf, BEq.trans hef.symm.label hed⟩
    · obtain ⟨e, he, hfe⟩ := hgh.symm.edge hf
      rw [Desire.type_of_beq (Dependency.initial_beq hfe.label)]
      exact ih e he hfe.tail.symm

theorem unique (hg : s.OfClass t g) (hh : s.OfClass t h) : Dag.SameNode g h := by
  induction hg generalizing h with
  | @node t g hwell hlabel hdeclared hcomplete _ ih =>
    obtain ⟨hwell', hlabel', hdeclared', hcomplete', htails'⟩ := hh
    -- Edges for one dependency have equal tails, by what is known of the tails below `g`.
    have hedge : ∀ {e f : Resolved} {d : Desire}, e ∈ g.edges → f ∈ h.edges →
        (e.1 == d.construction.dependency) = true → (f.1 == d.construction.dependency) = true →
        Dag.SameEdge e f := by
      intro e f d he hf hed hfd
      refine .of_tail (BEq.trans hed (BEq.symm hfd)) (ih e he ?_)
      rw [type_of_dependency hed, ← type_of_dependency hfd]
      exact htails' f hf
    refine Dag.sameNode_of_covers hwell hwell' (BEq.trans hlabel (BEq.symm hlabel'))
      (fun e he => ?_) fun f hf => ?_
    · obtain ⟨d, hd, hed⟩ := hdeclared e he
      obtain ⟨f, hf, hfd⟩ := hcomplete' d hd
      exact ⟨f, hf, hedge he hf hed hfd⟩
    · obtain ⟨d, hd, hfd⟩ := hdeclared' f hf
      obtain ⟨e, he, hed⟩ := hcomplete d hd
      exact ⟨e, he, hedge he hf hed hfd⟩

theorem of_has (hg : s.OfClass t g) (hh : g.Has h) :
    ∃ n u, s.catalog.Leads t n u ∧ s.OfClass u h := by
  induction hh generalizing t with
  | self => exact ⟨0, t, .here t, hg⟩
  | step he _ ih =>
    obtain ⟨-, -, hdeclared, -, htails⟩ := hg
    obtain ⟨d, hd, hed⟩ := hdeclared _ he
    obtain ⟨n, u, hlead, hu⟩ := ih (htails _ he)
    rw [type_of_dependency hed] at hlead
    exact ⟨n + 1, u, .further hd hlead, hu⟩

theorem exists_has {n : Nat} (hg : s.OfClass t g) (hlead : s.catalog.Leads t n u) :
    ∃ h, g.Has h ∧ s.OfClass u h := by
  induction hlead generalizing g with
  | here => exact ⟨g, .self g, hg⟩
  | further hd _ ih =>
    obtain ⟨-, -, -, hcomplete, htails⟩ := hg
    obtain ⟨e, he, hed⟩ := hcomplete _ hd
    obtain ⟨h, hh, hu⟩ := ih (type_of_dependency hed ▸ htails e he)
    exact ⟨h, .step he hh, hu⟩

end OfClass

/-! ## Resolving classes -/

structure ClassEdge (s : Settings) (d : Desire) (e : Resolved) : Prop where
  label : e.1 = d.construction.dependency
  tail : s.OfClass d.type e.2

theorem ofClass_build {edges : List Resolved} (tag : Nat)
    (hall : List.Forall₂ s.ClassEdge (s.catalog.dependencies d.type) edges) :
    s.OfClass d.type ((s.draftOf d.construction edges).build.run tag).1 := by
  have hfrom : ∀ e ∈ edges, ∃ d' ∈ s.catalog.dependencies d.type, s.ClassEdge d' e :=
    Dag.exists_of_forall₂ hall.flip
  have hmem : ∀ {e : Resolved}, e ∈ (s.draftOf d.construction edges).edges → e ∈ edges := by
    intro e he
    rcases Dag.Draft.mem_addEdges he with he | he
    · cases he
    · exact he
  refine .node (((Dag.Draft.ready_ofLabel _).addEdges fun e he => ?_).build tag) ?_
    (fun e he => ?_) (fun d' hd' => ?_) fun e he => ?_
  · obtain ⟨d', -, he'⟩ := hfrom e he
    exact he'.tail.wellBuilt
  · show ((s.draftOf d.construction edges).label == s.classLabel d.type) = true
    unfold draftOf
    rw [Dag.Draft.label_addEdges]
    exact BEq.rfl
  · obtain ⟨d', hd', he'⟩ := hfrom e (hmem he)
    exact ⟨d', hd', he'.label ▸ BEq.rfl⟩
  · obtain ⟨e, he, he'⟩ := Dag.exists_of_forall₂ hall d' hd'
    obtain ⟨f, hf, hfe, -⟩ := Dag.Draft.exists_addEdges (Dag.Draft.ofLabel _) he
    exact ⟨f, hf, he'.label ▸ hfe⟩
  · obtain ⟨d', hd', he'⟩ := hfrom e (hmem he)
    rw [he'.label]
    exact he'.tail

def TooDeep (s : Settings) (e : WiringError) : Prop := ∃ d inside, e = .cyclic d inside s.maxDepth

def ClassOutcome (s : Settings) (d : Desire) (k : Context) : Attempt Resolved → Prop
  | .ok edge => s.ClassEdge d edge ∧ s.Fits k.depth d.type
  | .error e => s.TooDeep e ∧ ¬ s.Fits k.depth d.type

def ClassesOutcome (s : Settings) (ds : List Desire) (k : Context) : ChildrenOutcome → Prop
  | .ok edges => List.Forall₂ s.ClassEdge ds edges ∧ ∀ d ∈ ds, s.Fits k.depth d.type
  | .error (e, _) => s.TooDeep e ∧ ¬ ∀ d ∈ ds, s.Fits k.depth d.type

theorem Classes.needs {r : Resolution} (hs : s.Classes) (hr : r = d.construction) :
    ∀ d' ∈ r.satisfaction.dependencies s.catalog, IsClass d' := by
  subst hr
  exact fun d' hd' => hs.isClass hd'

theorem Classes.settled {r : Resolution} {w w' : Workspace} (hs : s.Classes) (hd : IsClass d)
    (h : (s.settle d k).Runs w (.ok r) w') : r = d.construction := by
  have hsettle := settle_construction hs.unruled hs.classes.toNoDefaults hd w.nextTag k
  rw [← (runs_settle.1 h).1] at hsettle
  cases hsettle
  rfl

mutual

theorem Resolves.classes (hs : s.Classes) : ∀ {d k w o w'}, Resolves s d k w o w' → IsClass d →
    s.ClassOutcome d k o ∧ w'.queue = w.queue
  | d, k, _, _, _, .tooDeep hdepth, _ => by
    refine ⟨⟨⟨_, _, rfl⟩, fun hfits => ?_⟩, rfl⟩
    have hroom := (fits_iff.1 hfits).1
    omega
  | d, k, w, _, _, .unsettled _ h, hd => by
    have hsettle := settle_construction hs.unruled hs.classes.toNoDefaults hd w.nextTag k
    rw [← (runs_settle.1 h).1] at hsettle
    cases hsettle
  | _, _, _, _, _, .deferred _ h hr _, hd => by
    cases hs.settled hd h
    cases hr
  | _, _, _, _, _, .expanded hdepth h _ hexpand, hd => by
    obtain ⟨hout, hqueue⟩ := hexpand.classes hs (hs.settled hd h) hdepth
    exact ⟨hout, hqueue.trans (queue_settle h)⟩

theorem Expands.classes (hs : s.Classes) : ∀ {r k w o w'}, Expands s r k w o w' →
    ∀ {d}, r = d.construction → k.depth ≤ s.maxDepth →
    s.ClassOutcome d k o ∧ w'.queue = w.queue
  | _, k, _, _, _, .grown hall hgrow, d, hr, hdepth => by
    obtain ⟨⟨hedges, hfits⟩, hqueue⟩ := hall.classes hs (hs.needs hr)
    subst hr
    obtain ⟨tag, rfl, -, hqueue'⟩ := runs_grow hgrow
    rw [depth_inside] at hfits
    exact ⟨⟨⟨rfl, ofClass_build tag hedges⟩, fits_iff.2 ⟨hdepth, hfits⟩⟩, hqueue'.trans hqueue⟩
  | _, k, _, _, _, .failed hall _, d, hr, hdepth => by
    obtain ⟨⟨hdeep, hfits⟩, hqueue⟩ := hall.classes hs (hs.needs hr)
    subst hr
    rw [depth_inside] at hfits
    exact ⟨⟨hdeep, fun h => hfits (fits_iff.1 h).2⟩, hqueue⟩
  | _, _, _, _, _, .restored _ hp _ _, _, hr, _ => by
    -- A construction comes from no other binding, so there is nothing to go back to.
    subst hr
    simp [Resolution.backtrack?, Desire.construction] at hp

theorem ResolvesAll.classes (hs : s.Classes) : ∀ {k ds w o w'}, ResolvesAll s k ds w o w' →
    (∀ d ∈ ds, IsClass d) → s.ClassesOutcome ds k o ∧ w'.queue = w.queue
  | _, _, _, _, _, .nil, _ => ⟨⟨.nil, by simp⟩, rfl⟩
  | _, d :: ds, _, _, _, .failed h, hds => by
    obtain ⟨⟨hdeep, hfits⟩, hqueue⟩ := h.classes hs (hds d List.mem_cons_self)
    exact ⟨⟨hdeep, fun hall => hfits (hall d List.mem_cons_self)⟩, hqueue⟩
  | k, d :: ds, _, _, _, .cons (o := o) h hrest, hds => by
    obtain ⟨⟨hedge, hfits⟩, hqueue⟩ := h.classes hs (hds d List.mem_cons_self)
    obtain ⟨hout, hqueue'⟩ := hrest.classes hs fun d hd => hds d (List.mem_cons_of_mem _ hd)
    refine ⟨?_, hqueue'.trans hqueue⟩
    cases o with
    | error x => exact ⟨hout.1, fun hall => hout.2 fun d hd => hall d (List.mem_cons_of_mem _ hd)⟩
    | ok edges => exact ⟨.cons hedge hout.1, List.forall_mem_cons.2 ⟨hfits, hout.2⟩⟩

end

end Settings

/-! ## A call on a fresh solver -/

namespace Solver

open Work Settings Catalog

variable {s : Settings} {d : Desire} {t : TypeKey} {g : Graph}

theorem sorted_ofClass (hg : s.OfClass t g) :
    ∃ classes : List TypeKey, classes.Nodup ∧
      (∀ u, u ∈ classes ↔ ∃ n, s.catalog.Leads t n u) ∧
      g.sorted.map (·.label.satisfaction) = classes.map .construct := by
  have hnode : ∀ x ∈ g.sorted, ∃ n u, s.catalog.Leads t n u ∧ s.OfClass u x :=
    fun x hx => hg.of_has (Dag.has_of_mem_sorted hx)
  have htype : ∀ {x u}, s.OfClass u x → x.label.satisfaction.type = u := by
    intro x u hx
    rw [hx.satisfaction]
    rfl
  refine ⟨g.sorted.map (·.label.satisfaction.type), ?_, fun u => ⟨fun hu => ?_, ?_⟩, ?_⟩
  · -- Two nodes of one class would be equal, and the walk meets no two that are.
    refine List.pairwise_map.2 ((Dag.distinct_sorted g).imp_of_mem fun {x y} hx hy hne heq => ?_)
    obtain ⟨_, _, -, hxu⟩ := hnode x hx
    obtain ⟨_, _, -, hyu⟩ := hnode y hy
    rw [htype hxu, htype hyu] at heq
    rw [(hyu.unique (heq ▸ hxu)).beq] at hne
    cases hne
  · obtain ⟨x, hx, rfl⟩ := List.mem_map.1 hu
    obtain ⟨n, u, hlead, hu⟩ := hnode x hx
    rw [htype hu]
    exact ⟨n, hlead⟩
  · rintro ⟨n, hlead⟩
    obtain ⟨x, hx, hu⟩ := hg.exists_has hlead
    obtain ⟨z, hz, hxz⟩ := hx.mem_sorted
    have hsame : Dag.SameNode x z :=
      ⟨hxz, hu.wellBuilt, (Dag.has_of_mem_sorted hz).wellBuilt hg.wellBuilt⟩
    exact List.mem_map.2 ⟨z, hz, htype (hu.congr hsame)⟩
  · rw [List.map_map]
    apply List.map_congr_left
    intro x hx
    obtain ⟨n, u, -, hu⟩ := hnode x hx
    show x.label.satisfaction = .construct x.label.satisfaction.type
    rw [htype hu, hu.satisfaction]

theorem resolve_class (hs : s.Classes) (hd : IsClass d) (orders : Nat → BackEdges.Order)
    (tag tag' : Nat) :
    let v := ((ofSettings s orders).run tag).1
    let called := ((v.resolve d).run tag').1
    (called.result = .ok () ∧ s.Fits 0 d.type ∧ ∃ dep node t,
      called.solver.graph = withChild v.graph dep node t ∧ s.OfClass d.type node) ∨
    ∃ e, called.result = .error e ∧ s.TooDeep e ∧ ¬ s.Fits 0 d.type := by
  intro v called
  obtain ⟨o, w', hcalls, hresult, hsolver⟩ := v.exists_calls d tag'
  have hresult : called.result = o.map fun _ => () := hresult
  rcases hcalls with hd' | ⟨hd', hmerge, hbuild, hdrains⟩
  · obtain ⟨⟨hdeep, hfits⟩, -⟩ := hd'.classes hs hd
    exact .inr ⟨_, hresult, hdeep, hfits⟩
  · obtain ⟨⟨hedge, hfits⟩, hqueue⟩ := hd'.classes hs hd
    obtain ⟨hnode, rfl⟩ := runs_merge.1 hmerge
    obtain ⟨hroot, rfl⟩ := runs_build.1 hbuild
    cases hnode
    cases hroot
    obtain ⟨rfl, -⟩ := hdrains.idle hqueue
    have hpool := hd'.queues.pool ((sound_ofSettings s orders tag).poolBuilt tag')
    refine .inl ⟨hresult, hfits, _, _, _, congrArg Solver.graph hsolver, ?_⟩
    exact hedge.tail.congr (Dag.sameNode_merge hpool hedge.tail.wellBuilt _)

/-- On a catalog of classes the cap is exact, and sharing is complete: a class is resolved just if
none of its chains of dependencies is longer than the cap, and then the graph has one node for every
class that it leads to, and the root node. -/
theorem resolve_of_classOnly {types : List TypeSpec} {qualifiers : List QualifierSpec}
    {config : Config} {t : TypeKey} (hc : (freeze types qualifiers).ClassOnly)
    (ht : (freeze types qualifiers).isInstantiable t = true) (q : Option Qualifier)
    (orders : Nat → BackEdges.Order) (tag tag' : Nat) :
    let c := freeze types qualifiers
    let v := ((ofSettings (.ofConfig c [] config) orders).run tag).1
    let called := ((v.resolve (c.rootDesire t q)).run tag').1
    (called.result = .ok () ↔ ∀ n u, c.Leads t n u → n ≤ config.maxDepth) ∧
    (called.result = .ok () ∨
      ∃ d inside, called.result = .error (.cyclic d inside config.maxDepth)) ∧
    (called.result = .ok () → ∃ classes : List TypeKey, classes.Nodup ∧
      (∀ u, u ∈ classes ↔ ∃ n, c.Leads t n u) ∧
      called.solver.graph.sorted.map (·.label.satisfaction) =
        classes.map .construct ++ [.null .root]) := by
  intro c v called
  have hs : (Settings.ofConfig c [] config).Classes := ⟨rfl, frozen_freeze types qualifiers, hc⟩
  have hfits : (Settings.ofConfig c [] config).Fits 0 t ↔
      ∀ n u, c.Leads t n u → n ≤ config.maxDepth := by
    unfold Fits
    simp only [Nat.zero_add]
    rfl
  have hclass : IsClass (c.rootDesire t q) := isClass_desire ht
  rcases resolve_class hs hclass orders tag tag' with
    ⟨hok, hroom, dep, node, tag'', hgraph, hnode⟩ | ⟨e, he, ⟨d, inside, rfl⟩, hdeep⟩
  · refine ⟨⟨fun _ => hfits.1 hroom, fun _ => hok⟩, .inl hok, fun _ => ?_⟩
    obtain ⟨classes, hnodup, hmem, hsorted⟩ := sorted_ofClass hnode
    refine ⟨classes, hnodup, hmem, ?_⟩
    have hgraph : called.solver.graph = withChild v.graph dep node tag'' := hgraph
    -- The root node has one edge, so the walk is that below it, and the root node last.
    have hvisit : called.solver.graph.sorted = node.sorted ++ [called.solver.graph] := by
      rw [Dag.sorted_eq, hgraph]
      rfl
    rw [hvisit, List.map_append, hsorted, hgraph]
    rfl
  · have he : called.result = _ := he
    refine ⟨⟨fun hok => ?_, fun hroom => absurd (hfits.2 hroom) hdeep⟩, .inr ⟨d, inside, he⟩,
      fun hok => ?_⟩
    · rw [he] at hok
      cases hok
    · rw [he] at hok
      cases hok

/-- A class that is needed on two ways, with a cap that is just deep enough. -/
theorem resolve_of_diamond :
    let r : TypeSpec := ⟨.named "R", true, [], [⟨some (.named "R"), "a", .named "A", none, false⟩,
      ⟨some (.named "R"), "b", .named "B", none, false⟩], {}, .noPreference, none, none⟩
    let a : TypeSpec := ⟨.named "A", true, [], [⟨some (.named "A"), "c", .named "C", none, false⟩],
      {}, .noPreference, none, none⟩
    let b : TypeSpec := ⟨.named "B", true, [], [⟨some (.named "B"), "c", .named "C", none, false⟩],
      {}, .noPreference, none, none⟩
    let c : TypeSpec := ⟨.named "C", true, [], [], {}, .noPreference, none, none⟩
    let k := freeze [r, a, b, c] []
    let v := ((ofSettings (.ofConfig k [] { maxDepth := 2 })).run 0).1
    let called := ((v.resolve (k.rootDesire (.named "R") none)).run 1).1
    k.ClassOnly ∧ k.isInstantiable (.named "R") = true ∧ called.result = .ok () ∧
      ∃ classes : List TypeKey, classes.Nodup ∧
        (∀ u, u ∈ classes ↔ ∃ n, k.Leads (.named "R") n u) ∧
        called.solver.graph.sorted.map (·.label.satisfaction) =
          classes.map .construct ++ [.null .root] := by
  intro r a b c
  have hclasses : (freeze [r, a, b, c] []).ClassOnly :=
    classOnly_of_types (by decide +kernel) (by decide +kernel)
  have hr : (freeze [r, a, b, c] []).isInstantiable (.named "R") = true := by decide +kernel
  have hcap : ∀ n u, (freeze [r, a, b, c] []).Leads (.named "R") n u → n ≤ 2 := by
    intro n u hlead
    exact hlead.le_rank (fun t => if t = .named "R" then 2 else if t = .named "C" then 0 else 1)
      (by decide +kernel)
  have hall := @resolve_of_classOnly [r, a, b, c] [] { maxDepth := 2 } _ hclasses hr none (fun _ => .added) 0 1
  dsimp only at hall ⊢
  have hok := hall.1.2 hcap
  exact ⟨hclasses, hr, hok, hall.2.2 hok⟩

end Solver

end Wiring
