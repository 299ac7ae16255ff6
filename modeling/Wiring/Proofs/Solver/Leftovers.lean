import Wiring.Proofs.Solver.Puts

/-!
# What an undone binding leaves behind

While the dependencies of a satisfaction are resolved, nodes may be put off. If one of the
dependencies fails and the binding is undone, the queue keeps what was put off by then, in contexts
that go through the satisfaction that was given up. Behind that comes what the restored resolution
puts off, and that is the same as if it had been there from the start.
-/

namespace Wiring.Settings

open Work

variable {s : Settings} {d : Desire} {context : Context} {r p : Resolution} {e : WiringError}
  {edge : Resolved} {f : Deferral} {w w' v : Workspace}

theorem prefix_inside (r : Resolution) (context : Context) :
    context.frames <+: (inside r context).frames := List.prefix_append _ _

theorem PutsOff.through (h : s.PutsOff d context f) : context.frames <+: f.context.frames := by
  induction h with
  | here _ _ _ _ hf =>
    rw [hf]
    exact prefix_inside _ _
  | deeper _ _ _ _ ih => exact (prefix_inside _ _).trans ih

structure PutOffBy (s : Settings) (r : Resolution) (context : Context) (f : Deferral) : Prop where
  source : ∃ d ∈ r.satisfaction.dependencies s.catalog, s.PutsOff d (inside r context) f
  through : (inside r context).frames <+: f.context.frames

theorem ResolvesAll.putOffBy {a : ChildrenOutcome}
    (h : ResolvesAll s (inside r context) (r.satisfaction.dependencies s.catalog) w a w') :
    ∃ fs, w'.queue = w.queue ++ fs ∧ ∀ f ∈ fs, s.PutOffBy r context f := by
  obtain ⟨-, fs, hfs, hputs⟩ := h.queues
  refine ⟨fs, hfs, fun f hf => ⟨hputs f hf, ?_⟩⟩
  obtain ⟨_, _, hf⟩ := hputs f hf
  exact hf.through

theorem resolvesAll_of_childrenOf {a : ChildrenOutcome}
    (h : (s.childrenOf (s.resolveWithin (s.maxDepth - context.depth)) r context).Runs w (.ok a)
      w') :
    ResolvesAll s (inside r context) (r.satisfaction.dependencies s.catalog) w a w' := by
  obtain ⟨_, ha, hall⟩ := resolvesAll_of_runs (fun _ _ _ _ _ => resolves_of_runs) h
  cases ha
  exact hall

theorem Expands.grown_of_final (h : Expands s p context w (.ok edge) w')
    (hp : p.backtrack? = none) :
    ∃ edges u, ResolvesAll s (inside p context) (p.satisfaction.dependencies s.catalog) w
      (.ok edges) u ∧ (s.grow p edges).Runs u (.ok edge) w' := by
  cases h with
  | grown hall hgrow => exact ⟨_, _, hall, hgrow⟩
  | restored _ hspent _ _ => simp [hp] at hspent

theorem Expands.restore (h : Expands s r context w (.ok edge) w')
    (hall : ResolvesAll s (inside r context) (r.satisfaction.dependencies s.catalog) w
      (.error (e, d)) v)
    (hblames : e.blames d = true) (hp : r.backtrack? = some p) :
    ∃ v', v'.queue = v.queue ∧ Expands s p context v' (.ok edge) w' := by
  cases h with
  | grown hgrown _ => cases (run_of_resolvesAll hall).symm.trans (run_of_resolvesAll hgrown)
  | restored hfails hspent hreport hexpand =>
    cases (run_of_resolvesAll hall).symm.trans (run_of_resolvesAll hfails)
    rw [if_pos hblames, hp] at hspent
    cases hspent
    exact ⟨_, by rw [(runs_report.1 hreport).2], hexpand⟩

theorem Expands.again (hs : s.Unscripted) (h : Expands s p context v (.ok edge) w')
    {u u' : Workspace} {o : Attempt Resolved} (h' : Expands s p context u o u') :
    ∃ edge' own own', o = .ok edge' ∧ Dag.SameEdge edge edge' ∧ w'.queue = v.queue ++ own ∧
      u'.queue = u.queue ++ own' ∧ List.Forall₂ SameDeferral own own' := by
  have halike := h.alike hs rfl h'
  obtain ⟨own, own', hown, hown', hsame⟩ := h.putAlike hs h'
  rcases o with e | edge'
  · exact halike.elim
  · exact ⟨edge', own, own', rfl, halike, hown, hown', hsame⟩

/-- Where the dependencies of a resolution fail and its last binding is undone, the queue keeps what
they put off until then, in contexts that go through the satisfaction that was given up. What comes
behind that is what the restored resolution puts off from any workspace. So the queue gains that and
nothing else just when nothing had been put off. -/
theorem queue_of_restored (hs : s.Unscripted)
    (hfails : (s.childrenOf (s.resolveWithin (s.maxDepth - context.depth)) r context).Runs w
      (.ok (.error (e, d))) v)
    (hblames : e.blames d = true) (hp : r.backtrack? = some p)
    (hrun : (s.expand (s.resolveWithin (s.maxDepth - context.depth)) r context).Runs w
      (.ok edge) w') :
    ∃ left own, v.queue = w.queue ++ left ∧ w'.queue = w.queue ++ (left ++ own) ∧
      (∀ f ∈ left, s.PutOffBy r context f) ∧ (∀ f ∈ own, s.PutOffBy p context f) ∧
      ∀ u o u', (s.expand (s.resolveWithin (s.maxDepth - context.depth)) p context).Runs u o u' →
        ∃ edge' alone, o = .ok edge' ∧ Dag.SameEdge edge edge' ∧ u'.queue = u.queue ++ alone ∧
          List.Forall₂ SameDeferral own alone ∧
          (List.Forall₂ SameDeferral (left ++ own) alone ↔ left = []) := by
  have hall := resolvesAll_of_childrenOf hfails
  have hexpands := expands_of_runs (fun _ _ _ _ _ => resolves_of_runs) hrun
  have hnone := r.backtrack?_backtrack? p hp
  obtain ⟨left, hleft, hby⟩ := hall.putOffBy
  obtain ⟨v', hv', hexpands⟩ := hexpands.restore hall hblames hp
  obtain ⟨edges, u, hall', hgrow⟩ := hexpands.grown_of_final hnone
  obtain ⟨own, hown, hby'⟩ := hall'.putOffBy
  obtain ⟨-, -, -, hlast⟩ := runs_grow hgrow
  have hqueue : w'.queue = w.queue ++ (left ++ own) := by
    rw [hlast, hown, hv', hleft, List.append_assoc]
  refine ⟨left, own, hleft, hqueue, hby, hby', fun u o u' hu => ?_⟩
  obtain ⟨edge', own', alone, rfl, hedge, hown', halone, hsame⟩ :=
    hexpands.again hs (expands_of_runs (fun _ _ _ _ _ => resolves_of_runs) hu)
  have heq : own' = own := by
    rw [hqueue, hv', hleft, List.append_assoc] at hown'
    simpa using hown'.symm
  subst heq
  refine ⟨edge', alone, rfl, hedge, halone, hsame, fun hboth => ?_, fun hnil => ?_⟩
  · have hlength := hboth.length_eq
    rw [List.length_append, hsame.length_eq] at hlength
    exact List.eq_nil_of_length_eq_zero (by omega)
  · rw [hnil]
    exact hsame

def failsFor : Attempt ChildrenOutcome → Bool
  | .ok (.error (e, d)) => e.blames d
  | _ => false

theorem failsFor_iff {a : Attempt ChildrenOutcome} :
    failsFor a = true ↔ ∃ e d, a = .ok (.error (e, d)) ∧ e.blames d = true := by
  unfold failsFor
  split <;> simp_all

/-- A subclass needs a provider and an interface that nothing is bound to. When the binding to it is
undone, the provider stays in the queue. -/
theorem queue_of_restored_subclass :
    let base : TypeKey := .named "Base"
    let fancy : TypeKey := .named "Fancy"
    let part : TypeKey := .named "Part"
    let missing : TypeKey := .named "Missing"
    let point (name : String) (t : TypeKey) : InjectionPoint := ⟨some fancy, name, t, none, false⟩
    let c : Catalog := .freeze [⟨base, true, [], [], {}, .noPreference, none, none⟩,
      ⟨fancy, true, [base], [point "part" (.provider part), point "missing" missing], {},
        .noPreference, none, none⟩,
      ⟨part, true, [], [], {}, .noPreference, none, none⟩,
      ⟨missing, false, [], [], {}, .noPreference, none, none⟩] []
    let s : Settings := .ofConfig c [] {}
    let d := c.rootDesire base none
    let r : Resolution := ⟨.construct fancy, .noPreference,
      (DesireChain.singleton d).extend (d.restrictType c fancy), false, false, true⟩
    let room := s.maxDepth - Context.initial.depth
    let w : Workspace := { nextTag := 0, pool := .empty, orders := fun _ => .added }
    ∃ p e d' v edge w' left own, s.Unscripted ∧
      (s.childrenOf (s.resolveWithin room) r .initial).Runs w (.ok (.error (e, d'))) v ∧
      e.blames d' = true ∧ r.backtrack? = some p ∧
      (s.expand (s.resolveWithin room) r .initial).Runs w (.ok edge) w' ∧
      v.queue = left ∧ w'.queue = left ++ own ∧ (∀ f ∈ left, s.PutOffBy r .initial f) ∧
      left ≠ [] := by
  intro base fancy part missing point c s d r room w
  have hp : r.backtrack?.isSome = true := by
    subst r d s c point base fancy part missing
    decide +kernel
  have hfails : failsFor ((s.childrenOf (s.resolveWithin room) r .initial).run.run w).1 = true ∧
      ((s.childrenOf (s.resolveWithin room) r .initial).run.run w).2.queue ≠ [] := by
    subst w room r d s c point base fancy part missing
    decide +kernel
  have hrun : ((s.expand (s.resolveWithin room) r .initial).run.run w).1.toBool = true := by
    subst w room r d s c point base fancy part missing
    decide +kernel
  have hs : s.Unscripted := BindingFunction.isScripted_standard c []
  obtain ⟨p, hp⟩ := Option.isSome_iff_exists.1 hp
  obtain ⟨hfails, hsome⟩ := hfails
  obtain ⟨e, d', hv, hblames⟩ := failsFor_iff.1 hfails
  have hfails : (s.childrenOf (s.resolveWithin room) r .initial).Runs w (.ok (.error (e, d'))) _ :=
    ⟨hv.symm, rfl⟩
  cases hw : ((s.expand (s.resolveWithin room) r .initial).run.run w).1 with
  | error e =>
    rw [hw] at hrun
    cases hrun
  | ok edge =>
    have hrun : (s.expand (s.resolveWithin room) r .initial).Runs w (.ok edge) _ := ⟨hw.symm, rfl⟩
    obtain ⟨left, own, hleft, hown, hby, -⟩ := queue_of_restored hs hfails hblames hp hrun
    exact ⟨p, e, d', _, edge, _, left, own, hs, hfails, hblames, hp, hrun, hleft, hown, hby,
      fun hnil => hsome (hleft.trans hnil)⟩

end Wiring.Settings
