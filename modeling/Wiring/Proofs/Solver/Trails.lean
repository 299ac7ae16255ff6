import Wiring.Proofs.Solver.Calls
import Wiring.Proofs.Solver.Chains
import Wiring.Proofs.Solver.Determined

/-!
# Where errors point

An error that says that a desire has no satisfaction, or that several rules apply to it, tells the
chain the desire has come to and the context it was resolved in. The context is a trail from the
desire that was asked for: each frame is what the desire before it was bound to, and what comes next
is a dependency of that. This holds however deep the error arises, after a binding was undone, and
where a deferral is expanded in the context it was put off with.
-/

namespace Wiring

open Work Settings

variable {c : Catalog} {turn : Nat} {context : Context} {e : WiringError} {d d' root : Desire}

/-! ## Errors of the rounds -/

/-- What an error of the binding rounds tells of the desire they began with and its context. -/
def WiringError.TellsOf (d : Desire) (context : Context) : WiringError → Prop
  | unresolvable chain c => c = context ∧ chain.initial = d ∧ chain.current.satisfaction? = none
  | multipleBindings chain c _ => c = context ∧ chain.initial = d
  | _ => True

theorem CaseAnswer.tellsOf_of_give {a : CaseAnswer} {k : DesireChain}
    (h : a.give c turn k = .error e) : e.TellsOf k.initial context := by
  cases a with
  | fail message =>
    cases h
    exact trivial
  | offer target policy flags => cases h

theorem BindingFunction.tellsOf_of_offer {f : BindingFunction} {k : DesireChain}
    {applied : List Rule} (h : f.offer c turn context k applied = .error e) :
    e.TellsOf k.initial context := by
  cases f with
  | rules groups =>
    unfold offer offerByRules at h
    dsimp only at h
    split at h <;> cases h
    exact ⟨rfl, rfl⟩
  | providers | defaults => cases h
  | scripted cases =>
    unfold offer offerByCases at h
    dsimp only at h
    split at h
    · cases h
    · exact CaseAnswer.tellsOf_of_give h
  | chosen answers choose =>
    unfold offer offerByChoice at h
    dsimp only at h
    split at h
    · cases h
    · exact CaseAnswer.tellsOf_of_give h

theorem askBinders_error {chain : DesireChain} {bs : List Binder}
    (h : (askBinders c turn context chain bs).offer = .error e) :
    ∃ b ∈ bs, b.offer c turn context chain = .error e := by
  induction bs with
  | nil => cases h
  | cons b bs ih =>
    rw [askBinders] at h
    split at h
    · rename_i hb
      cases h
      exact ⟨b, List.mem_cons_self, hb⟩
    · obtain ⟨b', hb', he⟩ := ih h
      exact ⟨b', List.mem_cons_of_mem _ hb', he⟩
    · split at h
      · obtain ⟨b', hb', he⟩ := ih h
        exact ⟨b', List.mem_cons_of_mem _ hb', he⟩
      · cases h

theorem Rounds.tellsOf_of_resolution {r : Rounds} (h : r.resolution context = .error e) :
    e.TellsOf r.chain.initial context := by
  unfold resolution at h
  split at h
  · cases h
  · cases h
    exact ⟨rfl, rfl, by assumption⟩

theorem Rounds.Ends.tellsOf {r : Rounds} {x : Settled} (h : Ends c turn context r x)
    (hx : x.outcome = .error e) : e.TellsOf r.chain.initial context := by
  induction h with
  | ended _ | stuck _ _ => exact tellsOf_of_resolution hx
  | failed _ hask =>
    cases hx
    obtain ⟨b, -, hb⟩ := askBinders_error hask
    exact BindingFunction.tellsOf_of_offer hb
  | bound _ _ _ ih => exact ih hx

/-! ## Trails -/

namespace Settings

variable {s : Settings} {r : Resolution} {f : Deferral} {p : Pass} {w w' : Workspace}

/-- A way inwards from the root desire: a context, and a desire that is resolved in it. Every frame
is what the desire before it is bound to in the frames before, and the next desire is a dependency
of that. -/
inductive Trail (s : Settings) (root : Desire) : Context → Desire → Prop
  | root : Trail s root .initial root
  | step {c : Context} {d d' : Desire} {r : Resolution} : Trail s root c d → s.Binds d c r →
      d' ∈ r.satisfaction.dependencies s.catalog →
      Trail s root (c.extend r.satisfaction d.qualifier) d'

/-- The errors at the end of a trail: those of the binding rounds of a desire there, and those about
its depth. -/
inductive TrailError (s : Settings) (root : Desire) : WiringError → Prop
  | unsettled {turn : Nat} {c : Context} {d : Desire} {e : WiringError} : Trail s root c d →
      (Wiring.settle s.catalog s.functions turn c d).outcome = .error e → TrailError s root e
  | tooDeep {c : Context} {d : Desire} : Trail s root c d →
      TrailError s root (.cyclic d (c.tail?.map (·.satisfaction)) s.maxDepth)

theorem Binds.qualifier (h : s.Binds d context r) : r.qualifier = d.qualifier := by
  obtain ⟨hpoint, -⟩ := h.atPoint
  have hcurrent : r.chain.current.point = d.point := hpoint.current.trans (by rw [h.initial])
  exact congrArg InjectionPoint.qualifier hcurrent

theorem Trail.inside (h : s.Trail root context d) (hr : s.Binds d context r)
    (hd' : d' ∈ r.satisfaction.dependencies s.catalog) :
    s.Trail root (inside r context) d' := by
  unfold Settings.inside
  rw [hr.qualifier]
  exact .step h hr hd'

mutual

theorem Resolves.trailError : ∀ {d c w o w'}, Resolves s d c w o w' → s.Trail root c d →
    ∀ {e}, o = .error e → s.TrailError root e
  | _, _, _, _, _, .tooDeep _, htrail, _, he => by
    cases he
    exact .tooDeep htrail
  | _, _, _, _, _, .unsettled _ h, htrail, _, he => by
    cases he
    exact .unsettled htrail (runs_settle.1 h).1.symm
  | _, _, _, _, _, .deferred _ _ _ hdefer, _, _, he => by
    obtain ⟨_, _, _, ho, _, _⟩ := runs_defer hdefer
    rw [ho] at he
    cases he
  | _, _, _, _, _, .expanded _ h hr hexpand, htrail, _, he =>
    hexpand.trailError (.settled (settles_of_runs h)) hr htrail he

theorem Expands.trailError : ∀ {r c w o w'}, Expands s r c w o w' → ∀ {d}, s.Binds d c r →
    r.deferred = false → s.Trail root c d → ∀ {e}, o = .error e → s.TrailError root e
  | _, _, _, _, _, .grown _ hgrow, _, _, _, _, _, he => by
    obtain ⟨_, ho, _, _⟩ := runs_grow hgrow
    rw [ho] at he
    cases he
  | _, _, _, _, _, .failed hall _, _, hd, _, htrail, _, he => by
    cases he
    exact hall.trailError (fun _ hd' => htrail.inside hd hd') rfl
  | _, _, _, _, _, .restored hall hp _ hexpand, _, hd, hr, htrail, _, he => by
    -- The trail leads on through what the desire was bound to before.
    obtain ⟨hd', hr'⟩ := hd.restore hr hall hp
    exact hexpand.trailError hd' hr' htrail he

theorem ResolvesAll.trailError : ∀ {c ds w a w'}, ResolvesAll s c ds w a w' →
    (∀ d ∈ ds, s.Trail root c d) → ∀ ⦃e d⦄, a = .error (e, d) → s.TrailError root e
  | _, _, _, _, _, .nil, _, _, _, he => by cases he
  | _, _, _, _, _, .failed h, htrail, _, _, he => by
    cases he
    exact h.trailError (htrail _ List.mem_cons_self) rfl
  | _, _, _, _, _, .cons (o := a) _ hrest, htrail, _, _, he => by
    have ih := hrest.trailError fun d hd => htrail d (List.mem_cons_of_mem _ hd)
    cases a with
    | error failure =>
      cases he
      exact ih rfl
    | ok edges => cases he

end

/-! ## Deferrals -/

/-- The context that was put off with a node leads to all that the node needs. -/
def OnTrail (s : Settings) (root : Desire) (f : Deferral) : Prop :=
  ∀ d ∈ s.catalog.needs f.node, s.Trail root f.context d

theorem PutsOff.onTrail (h : s.PutsOff d context f) (htrail : s.Trail root context d) :
    s.OnTrail root f := by
  induction h with
  | here _ hr _ hbare hcontext =>
    intro d' hd'
    unfold Catalog.needs at hd'
    rw [hbare.label] at hd'
    rw [hcontext]
    exact htrail.inside (.settled hr) hd'
  | deeper hr _ hd' _ ih => exact ih (htrail.inside hr hd')

theorem trailError_of_expandChildren (parent : Graph) : ∀ (ds : List Desire) {current : Graph}
    {p : Pass} {w w' : Workspace}, (∀ d ∈ ds, s.Trail root context d) →
      (s.expandChildren parent context ds current p).Runs w (.error e) w' → s.TrailError root e
  | [], _, _, _, _, _, h => by cases (runs_pure.1 h).1
  | d :: ds, _, _, _, _, htrail, h => by
    rw [expandChildren] at h
    rcases runs_bind.1 h with ⟨_, _, _, h⟩ | ⟨_, he, hd⟩
    · rcases runs_bind.1 h with ⟨_, w2, _, h⟩ | ⟨_, _, hmerge⟩
      · rcases runs_bind.1 h with ⟨_, _, _, h⟩ | ⟨_, _, hadd⟩
        · rcases runs_bind.1 h with ⟨_, _, _, hpure⟩ | ⟨_, he, hrest⟩
          · cases (runs_pure.1 hpure).1
          · cases he
            exact trailError_of_expandChildren parent ds
              (fun d hd => htrail d (List.mem_cons_of_mem _ hd)) hrest
        · obtain ⟨_, _, hx⟩ := exists_addChild _ _ _ _ _ w2
          cases (hadd.unique hx).1
      · cases (runs_merge.1 hmerge).1
    · cases he
      exact (resolves_of_runs hd).trailError (htrail d List.mem_cons_self) rfl

theorem Drains.trailError {o : Attempt Pass} (h : Drains s p w o w')
    (hqueue : ∀ f ∈ w.queue, s.OnTrail root f) (ho : o = .error e) : s.TrailError root e := by
  induction h with
  | done _ => cases ho
  | @failed p w w' f rest e hfront hrun =>
    cases ho
    obtain ⟨-, -, hexpand⟩ := runs_processDeferral_error.1 hrun
    exact trailError_of_expandChildren f.node _ (hqueue f (by simp [hfront])) hexpand
  | @next p p' w v w' f rest o hfront hrun _ ih =>
    have hf : s.OnTrail root f := hqueue f (by simp [hfront])
    obtain ⟨-, fs, hfs, hnew⟩ := putsOff_processDeferral hrun
    refine ih (fun g hg => ?_) ho
    rw [hfs] at hg
    rcases List.mem_append.1 hg with hg | hg
    · exact hqueue g (by simp [hfront, hg])
    · obtain ⟨d', hd', hput⟩ := hnew g hg
      exact hput.onTrail (hf d' hd')

theorem TrailError.tellsOf (hs : s.Unscripted) (h : s.TrailError root e) :
    ∃ c d, s.Trail root c d ∧ e.TellsOf d c := by
  cases h with
  | @unsettled turn c d _ htrail he => exact ⟨c, d, htrail, (Rounds.ends_settle hs).tellsOf he⟩
  | @tooDeep c d htrail => exact ⟨c, d, htrail, trivial⟩

end Settings

/-! ## Calls -/

namespace Solver

theorem Calls.trailError {v : Solver} {w w' : Workspace} {o : Attempt Pass}
    (h : v.Calls d w o w') (hw : w.queue = []) (ho : o = .error e) :
    v.settings.TrailError d e := by
  cases h with
  | unresolved hd =>
    cases ho
    exact hd.trailError .root rfl
  | drained hd hmerge hbuild hdrains =>
    refine hdrains.trailError (fun f hf => ?_) ho
    rw [(runs_build.1 hbuild).2, (runs_merge.1 hmerge).2] at hf
    exact (hd.putsOff hw f hf).onTrail .root

/-- With the standard functions, whatever the solver holds, an error of resolving a desire that
tells a context and a chain points at a trail from the desire: its frames are those of the context,
and the chain begins with the desire it ends at. The chain of a desire without a satisfaction ends
without one. -/
theorem resolve_error_trail (catalog : Catalog) (given : List ScopedRule) (config : Config)
    (triggers : List BindingFunction) (graph : Graph) (backEdges : BackEdges) (pool : GraphPool)
    (orders : Nat → BackEdges.Order) (d : Desire) (tag : Nat) :
    let s : Settings := { Settings.ofConfig catalog given config with triggers }
    let result := (((⟨s, graph, backEdges, pool, orders⟩ : Solver).resolve d).run tag).1.result
    (∀ chain context, result = .error (.unresolvable chain context) →
      s.Trail d context chain.initial ∧ chain.current.satisfaction? = none) ∧
    ∀ chain context rules, result = .error (.multipleBindings chain context rules) →
      s.Trail d context chain.initial := by
  intro s result
  have hs : s.Unscripted := BindingFunction.isScripted_standard catalog given
  have htells : ∀ e, result = .error e → ∃ c d', s.Trail d c d' ∧ e.TellsOf d' c := by
    intro e he
    obtain ⟨o, w', hcalls, ho, -⟩ := exists_calls ⟨s, graph, backEdges, pool, orders⟩ d tag
    have herror : o.map (fun _ => ()) = .error e := ho.symm.trans he
    cases o with
    | ok _ => cases herror
    | error _ =>
      cases herror
      exact (hcalls.trailError rfl rfl).tellsOf hs
  constructor
  · intro chain context he
    obtain ⟨c, d', htrail, rfl, rfl, hnone⟩ := htells _ he
    exact ⟨htrail, hnone⟩
  · intro chain context rules he
    obtain ⟨c, d', htrail, rfl, rfl⟩ := htells _ he
    exact htrail

def isUnresolvableAt (depth : Nat) : Attempt Unit → Bool
  | .error (.unresolvable _ context) => context.depth == depth
  | _ => false

def isAmbiguousAt (depth : Nat) : Attempt Unit → Bool
  | .error (.multipleBindings _ context _) => context.depth == depth
  | _ => false

theorem isUnresolvableAt_iff {depth : Nat} {r : Attempt Unit} : isUnresolvableAt depth r = true ↔
    ∃ chain context, r = .error (.unresolvable chain context) ∧ context.depth = depth := by
  unfold isUnresolvableAt
  split <;> simp_all

theorem isAmbiguousAt_iff {depth : Nat} {r : Attempt Unit} : isAmbiguousAt depth r = true ↔
    ∃ chain context rules, r = .error (.multipleBindings chain context rules) ∧
      context.depth = depth := by
  unfold isAmbiguousAt
  split <;> simp_all

/-- A class needs an interface that two classes implement. Without rules nothing satisfies the
interface, and with a rule to each class it is not clear which to take. Both errors point inside of
the class. -/
theorem resolve_error_trail_of_interface :
    let c : Catalog := .freeze [
      ⟨.named "Shop", true, [], [⟨none, "store", .named "Store", none, false⟩], {}, .noPreference,
        none, none⟩,
      ⟨.named "Store", false, [], [], {}, .noPreference, none, none⟩,
      ⟨.named "Disk", true, [.named "Store"], [], {}, .noPreference, none, none⟩,
      ⟨.named "Tape", true, [.named "Store"], [], {}, .noPreference, none, none⟩] []
    let toward (t : TypeKey) : ScopedRule :=
      ⟨.any, .named "Store", .default, .type t, .noPreference, {}⟩
    let both := [toward (.named "Disk"), toward (.named "Tape")]
    let d := c.rootDesire (.named "Shop") none
    let result (given : List ScopedRule) :=
      ((((ofSettings (.ofConfig c given {})).run 0).1.resolve d).run 1).1.result
    (∃ chain context, result [] = .error (.unresolvable chain context) ∧ context.depth = 1 ∧
      (Settings.ofConfig c [] {}).Trail d context chain.initial ∧
      chain.current.satisfaction? = none) ∧
    ∃ chain context rules, result both = .error (.multipleBindings chain context rules) ∧
      context.depth = 1 ∧ (Settings.ofConfig c both {}).Trail d context chain.initial := by
  intro c toward both d result
  have htrails : ∀ given, (∀ chain context, result given = .error (.unresolvable chain context) →
      (Settings.ofConfig c given {}).Trail d context chain.initial ∧
        chain.current.satisfaction? = none) ∧
      ∀ chain context rules, result given = .error (.multipleBindings chain context rules) →
        (Settings.ofConfig c given {}).Trail d context chain.initial :=
    fun given => resolve_error_trail c given {} []
      ((ofSettings (.ofConfig c given {})).run 0).1.graph .empty .empty (fun _ => .added) d 1
  have hnone : isUnresolvableAt 1 (result []) = true := by
    subst result d both toward c
    decide +kernel
  have hboth : isAmbiguousAt 1 (result both) = true := by
    subst result d both toward c
    decide +kernel
  obtain ⟨chain, context, hresult, hdepth⟩ := isUnresolvableAt_iff.1 hnone
  obtain ⟨chain', context', rules, hresult', hdepth'⟩ := isAmbiguousAt_iff.1 hboth
  exact ⟨⟨chain, context, hresult, hdepth, (htrails []).1 _ _ hresult⟩,
    chain', context', rules, hresult', hdepth', (htrails both).2 _ _ _ hresult'⟩

end Solver

end Wiring
