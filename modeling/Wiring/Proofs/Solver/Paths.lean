import Wiring.Proofs.Catalog.Freezing
import Wiring.Proofs.Solver.Expansion

/-!
# The context of a path

A path from the root node gives a context: what it leads through. Where nothing on it was put off
the edges behind it were bound in a context that patterns cannot tell from that one. Behind a node
that was put off they were bound in the context of some deferral of an equal component, whichever
was looked at first. So the edges behind a path are those of its own context if and only if the two
contexts yield the same.
-/

namespace Wiring

open Work Settings Catalog

variable {s : Settings} {roots : List Desire} {v : Solver} {d : Desire} {w w' : Workspace}
  {p : Pass} {g x : Graph} {c k : Context} {e : Resolved} {straight : Bool}

/-! ## Calls -/

namespace Solver

/-- The solvers that calls for some desires lead to, the latest first, successful or not. -/
inductive After (s : Settings) : List Desire → Solver → Prop
  | fresh (orders : Nat → BackEdges.Order) (tag : Nat) : After s [] ((ofSettings s orders).run tag).1
  | resolve {roots : List Desire} {v : Solver} (d : Desire) (tag : Nat) :
      After s roots v → After s (d :: roots) ((v.resolve d).run tag).1.solver

theorem After.reachable (h : After s roots v) : Reachable s v := by
  induction h with
  | fresh orders tag => exact .fresh orders tag
  | resolve d tag _ ih => exact .resolve d tag ih

theorem Sound.builtIn (hs : v.settings.Unscripted) (hplain : v.settings.catalog.Plain)
    (h : v.Sound) (hpool : PoolBuilt w) (hw : w.queue = [])
    (hbuilt : v.backEdges.entries = [] → v.settings.BuiltIn roots v.graph .initial)
    (hcalls : v.Calls d w (.ok p) w') (hb : p.backEdges.entries = []) :
    v.settings.BuiltIn (d :: roots) p.root .initial := by
  obtain ⟨edge, node, tag, w1, w2, hd, hbeq, hnode, hqueue2, hready, hdrains⟩ :=
    hcalls.linked h hpool hw
  have hputs : ∀ f, v.settings.PutsOff d .initial f → v.settings.Queued (d :: roots) f :=
    fun f hf => .tree List.mem_cons_self hf
  have hqueued : ∀ f ∈ w2.queue, v.settings.Queued (d :: roots) f :=
    fun f hf => hputs f (hd.putsOff hw f (hqueue2 ▸ hf))
  have hbuilt :=
    hbuilt (not_imp_not.1 ((keeps_entries v.settings).drains hdrains hready rfl) hb)
  have hlinked : v.settings.BuiltIn (d :: roots) (withChild v.graph edge.1 node tag) .initial := by
    refine builtIn_iff.2 fun e he => ?_
    rcases mem_withChild he with he | rfl
    · exact builtIn_iff.1 (hbuilt.mono fun d' hd' => List.mem_cons_of_mem d hd') e he
    · have hedge : v.settings.EdgeBuilt (d :: roots) .initial edge :=
        (hd.tree_grown rfl).edgeBuilt hs
          (fun d' hd' f hf => hputs f (List.mem_singleton.1 hd' ▸ hf)) edge (by simp)
      exact hedge.of_beq (tree_wellBuilt hd) hnode BEq.rfl hbeq
  exact hdrains.builtIn hs hplain hready hqueued hlinked rfl hb

theorem After.builtIn (hs : s.Unscripted) (hplain : s.catalog.Plain) (h : After s roots v)
    (hb : v.backEdges.entries = []) : s.BuiltIn roots v.graph .initial := by
  induction h with
  | fresh _ _ => exact builtIn_iff.2 fun e he => by cases he
  | @resolve roots v d tag h ih =>
    obtain ⟨hsound, rfl⟩ := h.reachable.sound
    obtain ⟨o, w', hcalls, -, hsolver⟩ := v.exists_calls d tag
    rw [hsolver] at hb ⊢
    cases o with
    | error e => exact (ih hb).mono fun d' hd' => List.mem_cons_of_mem d hd'
    | ok p => exact hsound.builtIn hs hplain (hsound.poolBuilt tag) rfl ih hcalls hb

end Solver

theorem Catalog.plain_freeze (types : List TypeSpec) (qualifiers : List QualifierSpec) :
    (freeze types qualifiers).Plain := by
  have hclass : ∀ t, ∀ d ∈ (freeze types qualifiers).dependencies t,
      ∀ d' ∈ (freeze types qualifiers).dependencies t, (d == d') = true → d = d' := by
    intro t d hd d' hd' hdd
    rw [frozen_freeze _ _ t d hd, frozen_freeze _ _ t d' hd', Desire.point_of_beq hdd]
  intro g d hd d' hd' hdd
  unfold needs at hd hd'
  cases hs : g.label.satisfaction with
  | construct t =>
    rw [hs] at hd hd'
    exact hclass t d hd d' hd' hdd
  | viaClass t _ =>
    rw [hs] at hd hd'
    exact hclass t d hd d' hd' hdd
  | injected _ target =>
    rw [hs] at hd hd'
    rw [List.mem_singleton.1 hd, List.mem_singleton.1 hd']
  | existing | viaProvider | null =>
    rw [hs] at hd
    cases hd

/-! ## Paths -/

/-- The context inside of the tail of an edge, as a path goes on along it. -/
def along (c : Context) (e : Resolved) : Context :=
  c.extend e.2.label.satisfaction e.1.chain.current.qualifier

/-- A path from the root node to a node, with the context it gives. -/
inductive Path (g : Graph) : Graph → Context → Prop
  | root : Path g g .initial
  | step {x : Graph} {c : Context} {e : Resolved} : Path g x c → e ∈ x.edges →
      Path g e.2 (along c e)

/-- A path with the context it gives, and the context that its last node has its edges from. The
path is straight if nothing on it was put off and its nodes are of the types that were bound. -/
inductive Comes (s : Settings) (roots : List Desire) (g : Graph) :
    Graph → Context → Context → Bool → Prop
  | root : Comes s roots g g .initial .initial true
  | inside {x : Graph} {c k : Context} {straight : Bool} {e : Resolved} {r : Resolution} :
      Comes s roots g x c k straight → e ∈ x.edges → s.Bound k e r → r.deferred = false →
      Comes s roots g e.2 (along c e) (inside r k)
        (straight && r.satisfaction.type = e.2.label.satisfaction.type)
  | putOff {x : Graph} {c k : Context} {straight : Bool} {e : Resolved} {r : Resolution}
      {f : Deferral} :
      Comes s roots g x c k straight → e ∈ x.edges → s.Bound k e r → r.deferred = true →
      s.Queued roots f → (f.node.label == e.2.label) = true →
      Comes s roots g e.2 (along c e) f.context false

theorem Path.comes (h : Path g x c) (hg : s.BuiltIn roots g .initial) :
    ∃ k straight, Comes s roots g x c k straight ∧ s.BuiltIn roots x k := by
  induction h with
  | root => exact ⟨.initial, true, .root, hg⟩
  | step _ he ih =>
    obtain ⟨k, straight, hcomes, hx⟩ := ih
    obtain ⟨r, inner, hbound, honward, hbuilt⟩ := builtIn_iff.1 hx _ he
    cases honward with
    | inside hr _ => exact ⟨_, _, .inside hcomes he hbound hr, hbuilt⟩
    | deferral hr hf hlabel => exact ⟨_, _, .putOff hcomes he hbound hr hf hlabel, hbuilt⟩

theorem Settings.Bound.chain (h : s.Bound k e r) : (r.chain == e.1.chain) = true :=
  ((Dependency.beq_iff _ _).1 h.dependency).1

theorem Settings.Bound.satisfaction (h : s.Bound k e r) :
    (r.satisfaction == e.2.label.satisfaction) = true :=
  ((Component.beq_iff _ _).1 h.component).1

theorem Settings.Bound.qualifier (h : s.Bound k e r) :
    r.qualifier = e.1.chain.current.qualifier := by
  unfold Resolution.qualifier Desire.qualifier
  rw [Desire.point_of_beq (DesireChain.current_beq h.chain)]

theorem Comes.shape (h : Comes s roots g x c k straight) (hstraight : straight = true) :
    c.shape = k.shape := by
  induction h with
  | root => rfl
  | inside _ _ hbound _ ih =>
    rw [Bool.and_eq_true, decide_eq_true_eq] at hstraight
    unfold along Settings.inside
    rw [hbound.qualifier]
    exact Context.shape_extend_congr _ (ih hstraight.1) hstraight.2.symm
  | putOff => cases hstraight

/-- What an edge is for yields what the edge says in the context: its chain, and what its tail
is. -/
def BoundAs (s : Settings) (c : Context) (e : Resolved) : Prop :=
  ∃ r, s.Yields r.chain.initial c r ∧ (r.chain == e.1.chain) = true ∧
    (r.satisfaction == e.2.label.satisfaction) = true

theorem Settings.Bound.boundAs (hs : s.Unscripted) (h : s.Bound k e r) (hk : c.shape = k.shape) :
    BoundAs s c e :=
  ⟨r, h.yields.of_shape hs hk.symm, h.chain, h.satisfaction⟩

theorem Settings.Bound.boundAs_iff (h : s.Bound k e r) :
    BoundAs s c e ↔ ∃ p, s.Yields p.chain.initial c p ∧ (p.chain == r.chain) = true ∧
      (p.satisfaction == r.satisfaction) = true := by
  constructor
  · rintro ⟨p, hp, hchain, hsatisfaction⟩
    exact ⟨p, hp, BEq.trans hchain (BEq.symm h.chain),
      BEq.trans hsatisfaction (BEq.symm h.satisfaction)⟩
  · rintro ⟨p, hp, hchain, hsatisfaction⟩
    exact ⟨p, hp, BEq.trans hchain h.chain, BEq.trans hsatisfaction h.satisfaction⟩

/-- A context yields one resolution of a desire. While there are no back-edges, the edges behind a
path were bound in the context that its last node has its edges from. On a straight path that is of
the shape of the path's own, and wherever it is, the edges are what the path's context yields. Else
they are if and only if the two contexts yield the same. -/
theorem boundAs_iff_of_path {types : List TypeSpec} {qualifiers : List QualifierSpec}
    {given : List ScopedRule} {config : Config}
    (h : Solver.After (.ofConfig (.freeze types qualifiers) given config) roots v)
    (hb : v.backEdges.entries = []) (hx : Path v.graph x c) :
    (∀ d r p, v.settings.Yields d c r → v.settings.Yields d c p → r = p) ∧
    ∃ k straight, Comes v.settings roots v.graph x c k straight ∧
      (straight = true → c.shape = k.shape) ∧
      (c.shape = k.shape → ∀ e ∈ x.edges, BoundAs v.settings c e) ∧
      ∀ e ∈ x.edges, ∃ r, v.settings.Bound k e r ∧
        (BoundAs v.settings c e ↔ ∃ p, v.settings.Yields p.chain.initial c p ∧
          (p.chain == r.chain) = true ∧ (p.satisfaction == r.satisfaction) = true) := by
  have hsettings := h.reachable.sound.2
  have hs : Unscripted (.ofConfig (.freeze types qualifiers) given config) :=
    BindingFunction.isScripted_standard _ given
  have hbuilt := h.builtIn hs (plain_freeze types qualifiers) hb
  rw [hsettings]
  obtain ⟨k, straight, hcomes, hxk⟩ := hx.comes hbuilt
  refine ⟨fun d r p => Yields.unique hs, k, straight, hcomes, hcomes.shape, fun hk e he => ?_,
    fun e he => ?_⟩
  · obtain ⟨r, _, hbound, _, _⟩ := builtIn_iff.1 hxk e he
    exact hbound.boundAs hs hk
  · obtain ⟨r, _, hbound, _, _⟩ := builtIn_iff.1 hxk e he
    exact ⟨r, hbound, hbound.boundAs_iff⟩

theorem Settings.Yields.eq_of_settles (hs : s.Unscripted) {r p : Resolution}
    (h : s.Settles d c r) (hr : r.backtrack? = none) (h' : s.Yields d c p) : p = r := by
  cases h' with
  | settled h' => exact h'.unique hs h
  | restored h' _ _ _ hp =>
    cases h'.unique hs h
    cases hr.symm.trans hp

theorem not_boundAs_of_settles (hs : s.Unscripted) (hopen : e.1.initial.isInstantiable = false)
    (h : s.Settles e.1.initial c r) (hr : r.backtrack? = none)
    (hne : (r.satisfaction == e.2.label.satisfaction) = false) : ¬ BoundAs s c e := by
  rintro ⟨p, hp, hchain, hsatisfaction⟩
  rw [Desire.eq_of_beq hopen ((DesireChain.beq_iff _ _).1 hchain).1] at hp
  cases hp.eq_of_settles hs h hr
  cases hne.symm.trans hsatisfaction

/-- A provider of an interface is injected in two places, and two rules bind the interface, each
within one of them. The provider is put off in both, and what is behind it in the second place is
not what its context yields. -/
theorem boundAs_iff_of_step :
    let c : Catalog := .freeze [⟨.named "R", true, [],
        [⟨some (.named "R"), "r1", .named "R1", none, false⟩,
          ⟨some (.named "R"), "r2", .named "R2", none, false⟩], {}, .noPreference, none, none⟩,
      ⟨.named "R1", true, [], [⟨some (.named "R1"), "a", .named "A", none, false⟩], {},
        .noPreference, none, none⟩,
      ⟨.named "R2", true, [], [⟨some (.named "R2"), "a", .named "A", none, false⟩], {},
        .noPreference, none, none⟩,
      ⟨.named "A", true, [], [⟨some (.named "A"), "x", .provider (.named "X"), none, false⟩], {},
        .noPreference, none, none⟩,
      ⟨.named "X", false, [], [], {}, .noPreference, none, none⟩,
      ⟨.named "X1", true, [.named "X"], [], {}, .noPreference, none, none⟩,
      ⟨.named "X2", true, [.named "X"], [], {}, .noPreference, none, none⟩] []
    let bind (place target : String) : ScopedRule := ⟨.within .any (.ofType (.named place)),
      .named "X", .default, .type (.named target), .noPreference, {}⟩
    let s : Settings := .ofConfig c [bind "R1" "X1", bind "R2" "X2"] {}
    let d := c.rootDesire (.named "R") none
    let v := ((((Solver.ofSettings s).run 0).1.resolve d).run 1).1.solver
    v.backEdges.entries = [] ∧ ∃ x k, Path v.graph x k ∧ ∃ e ∈ x.edges,
      (e.2.label.satisfaction == .construct (.named "X1")) = true ∧ ¬ BoundAs v.settings k e ∧
      ∃ k', Comes v.settings [d] v.graph x k k' false := by
  intro c bind s d v
  have hv : Solver.After s [d] v := .resolve d 1 (.fresh _ 0)
  have hs : v.settings.Unscripted := hv.reachable.sound.2 ▸ BindingFunction.isScripted_standard _ _
  have hb : v.backEdges.entries.isEmpty = true := by
    subst v d s bind c
    decide +kernel
  have hpath : ∃ e ∈ v.graph.edges, ∃ e1 ∈ e.2.edges, ∃ e2 ∈ e1.2.edges, ∃ e3 ∈ e2.2.edges,
      ∃ e4 ∈ e3.2.edges, (e4.2.label.satisfaction == .construct (.named "X1")) = true ∧
        e4.1.initial.isInstantiable = false ∧
        (Wiring.settle v.settings.catalog v.settings.functions 0
          (along (along (along (along .initial e) e1) e2) e3) e4.1.initial).outcome.toOption.any
            (fun r => r.backtrack?.isNone && !(r.satisfaction == e4.2.label.satisfaction)) =
              true := by
    subst v d s bind c
    decide +kernel
  obtain ⟨e, he, e1, he1, e2, he2, e3, he3, e4, he4, htail, hopen, hrounds⟩ := hpath
  let k := along (along (along (along .initial e) e1) e2) e3
  have hx : Path v.graph e3.2 k := .step (.step (.step (.step .root he) he1) he2) he3
  have hnot : ¬ BoundAs v.settings k e4 := by
    obtain ⟨r, hr, hyields⟩ := (Option.any_eq_true ..).1 hrounds
    rw [Bool.and_eq_true, Option.isNone_iff_eq_none, Bool.not_eq_true'] at hyields
    exact not_boundAs_of_settles hs hopen ⟨0, eq_ok_of_toOption hr⟩ hyields.1 hyields.2
  obtain ⟨-, k', straight, hcomes, hshape, hbound, -⟩ :=
    boundAs_iff_of_path hv (List.isEmpty_iff.1 hb) hx
  -- On a straight path the edge would be what the context yields.
  cases straight with
  | true => exact absurd (hbound (hshape rfl) e4 he4) hnot
  | false => exact ⟨List.isEmpty_iff.1 hb, e3.2, k, hx, e4, he4, htail, hnot, k', hcomes⟩

end Wiring
