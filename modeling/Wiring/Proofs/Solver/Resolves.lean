import Wiring.Proofs.Solver.Work

/-!
# Resolving without bounds

`Resolves` says what resolving a desire comes to, with no bound on the depth of the recursion and
none on how often a binding is undone. Every run of the solver is one of its derivations, so the
recursion ends, and what is proved by induction on derivations holds of every run.
-/

namespace Wiring.Settings

open Work

mutual

/-- Resolving a desire in a context, from one workspace to another. -/
inductive Resolves (s : Settings) :
    Desire → Context → Workspace → Attempt Resolved → Workspace → Prop
  | tooDeep {d : Desire} {c : Context} {w : Workspace} : s.maxDepth < c.depth →
      Resolves s d c w (.error (.cyclic d (c.tail?.map (·.satisfaction)) s.maxDepth)) w
  | unsettled {d : Desire} {c : Context} {w w' : Workspace} {e : WiringError} :
      c.depth ≤ s.maxDepth → (s.settle d c).Runs w (.error e) w' → Resolves s d c w (.error e) w'
  | deferred {d : Desire} {c : Context} {r : Resolution} {w v w' : Workspace}
      {o : Attempt Resolved} :
      c.depth ≤ s.maxDepth → (s.settle d c).Runs w (.ok r) v → r.deferred = true →
      (s.defer r c).Runs v o w' → Resolves s d c w o w'
  | expanded {d : Desire} {c : Context} {r : Resolution} {w v w' : Workspace}
      {o : Attempt Resolved} :
      c.depth ≤ s.maxDepth → (s.settle d c).Runs w (.ok r) v → r.deferred = false →
      Expands s r c v o w' → Resolves s d c w o w'

/-- Building the node of a resolution over its dependencies, where bindings may be undone. -/
inductive Expands (s : Settings) :
    Resolution → Context → Workspace → Attempt Resolved → Workspace → Prop
  | grown {r : Resolution} {c : Context} {edges : List Resolved} {w v w' : Workspace}
      {o : Attempt Resolved} :
      ResolvesAll s (inside r c) (r.satisfaction.dependencies s.catalog) w (.ok edges) v →
      (s.grow r edges).Runs v o w' → Expands s r c w o w'
  | failed {r : Resolution} {c : Context} {e : WiringError} {d : Desire} {w w' : Workspace} :
      ResolvesAll s (inside r c) (r.satisfaction.dependencies s.catalog) w (.error (e, d)) w' →
      (if e.blames d then r.backtrack? else none) = none → Expands s r c w (.error e) w'
  | restored {r p : Resolution} {c : Context} {e : WiringError} {d : Desire}
      {w v v' w' : Workspace} {o : Attempt Resolved} :
      ResolvesAll s (inside r c) (r.satisfaction.dependencies s.catalog) w (.error (e, d)) v →
      (if e.blames d then r.backtrack? else none) = some p →
      (report [.backtracked r.chain p.chain]).Runs v (.ok ()) v' → Expands s p c v' o w' →
      Expands s r c w o w'

inductive ResolvesAll (s : Settings) :
    Context → List Desire → Workspace → ChildrenOutcome → Workspace → Prop
  | nil {c : Context} {w : Workspace} : ResolvesAll s c [] w (.ok []) w
  | failed {c : Context} {d : Desire} {ds : List Desire} {e : WiringError} {w w' : Workspace} :
      Resolves s d c w (.error e) w' → ResolvesAll s c (d :: ds) w (.error (e, d)) w'
  | cons {c : Context} {d : Desire} {ds : List Desire} {edge : Resolved} {o : ChildrenOutcome}
      {w v w' : Workspace} :
      Resolves s d c w (.ok edge) v → ResolvesAll s c ds v o w' →
      ResolvesAll s c (d :: ds) w (o.map (edge :: ·)) w'

end

variable {s : Settings} {d : Desire} {c : Context} {r : Resolution} {w w' : Workspace}
  {o : Attempt Resolved}

/-! ## Runs are derivations -/

theorem run_children_cons (resolve : Desire → Work Resolved) (d : Desire) (ds : List Desire)
    (w : Workspace) :
    (children resolve (d :: ds)).run w = match (resolve d).run.run w with
      | (.error e, v) => (.error (e, d), v)
      | (.ok edge, v) =>
        (((children resolve ds).run v).1.map (edge :: ·), ((children resolve ds).run v).2) := by
  rw [children, StateT.run_bind]
  generalize (resolve d).run.run w = x
  rcases x with ⟨_ | edge, v⟩
  · rfl
  · show StateT.run (m := Id) (_ >>= _) v =
      (((children resolve ds).run v).1.map (edge :: ·), ((children resolve ds).run v).2)
    rw [StateT.run_bind]
    generalize (children resolve ds).run v = y
    rcases y with ⟨_ | _, _⟩ <;> rfl

theorem resolvesAll_of_run {resolve : Desire → Work Resolved}
    (hresolve : ∀ d w, Resolves s d c w ((resolve d).run.run w).1 ((resolve d).run.run w).2) :
    ∀ (ds : List Desire) (w : Workspace),
      ResolvesAll s c ds w ((children resolve ds).run w).1 ((children resolve ds).run w).2
  | [], _ => .nil
  | d :: ds, w => by
    have hd := hresolve d w
    rw [run_children_cons]
    revert hd
    generalize (resolve d).run.run w = x
    rcases x with ⟨e | edge, v⟩
    · exact fun hd => .failed hd
    · exact fun hd => .cons hd (resolvesAll_of_run hresolve ds v)

theorem backtrack?_of_restored {p : Resolution} {b : Prop} [Decidable b]
    (hp : (if b then r.backtrack? else none) = some p) : p.backtrack? = none := by
  split at hp
  · exact r.backtrack?_backtrack? p hp
  · cases hp

theorem resolveFully_inside (r : Resolution) (c : Context) (d : Desire) :
    s.resolveFully d (inside r c) = s.resolveWithin (s.maxDepth - c.depth) d (inside r c) := by
  unfold resolveFully inside
  rw [Context.depth_extend, Nat.add_sub_add_right]

section

variable (hresolve : ∀ (r : Resolution) (d : Desire) (w : Workspace) (o : Attempt Resolved)
  (w' : Workspace), (s.resolveFully d (inside r c)).Runs w o w' → Resolves s d (inside r c) w o w')
include hresolve

theorem resolvesAll_of_runs {x : Attempt ChildrenOutcome}
    (h : (s.childrenOf (s.resolveWithin (s.maxDepth - c.depth)) r c).Runs w x w') :
    ∃ a, x = .ok a ∧
      ResolvesAll s (inside r c) (r.satisfaction.dependencies s.catalog) w a w' := by
  unfold childrenOf at h
  simp only [← resolveFully_inside] at h
  obtain ⟨rfl, rfl⟩ := runs_lift.1 h
  exact ⟨_, rfl, resolvesAll_of_run (fun d w => hresolve r d w _ _ (runs_self _ w)) _ w⟩

theorem expands_of_runs
    (h : (s.expand (s.resolveWithin (s.maxDepth - c.depth)) r c).Runs w o w') :
    Expands s r c w o w' := by
  unfold expand at h
  rcases runs_bind.1 h with ⟨a, v, hall, h⟩ | ⟨e, _, hall⟩
  · obtain ⟨_, ha, hall⟩ := resolvesAll_of_runs hresolve hall
    cases ha
    rcases a with ⟨e, d⟩ | edges
    · dsimp only at h
      split at h
      · obtain ⟨rfl, rfl⟩ := runs_throw.1 h
        exact .failed hall (by assumption)
      · rename_i p hp
        rcases runs_bind.1 h with ⟨_, v', hreport, h⟩ | ⟨_, _, hreport⟩
        · refine .restored hall hp hreport ?_
          -- A binding is undone once: what the second attempt comes to is the outcome.
          have hnone := backtrack?_of_restored hp
          rcases runs_bind.1 h with ⟨a, v'', hall', h⟩ | ⟨e, _, hall'⟩
          · obtain ⟨_, ha, hall'⟩ := resolvesAll_of_runs hresolve hall'
            cases ha
            rcases a with ⟨e', d'⟩ | edges
            · obtain ⟨rfl, rfl⟩ := runs_throw.1 h
              exact .failed hall' (by simp [hnone])
            · exact .grown hall' h
          · obtain ⟨_, ha, _⟩ := resolvesAll_of_runs hresolve hall'
            cases ha
        · cases (runs_report.1 hreport).1
    · exact .grown hall h
  · obtain ⟨_, ha, _⟩ := resolvesAll_of_runs hresolve hall
    cases ha

end

theorem resolves_of_runs (h : (s.resolveFully d c).Runs w o w') : Resolves s d c w o w' := by
  unfold resolveFully at h
  generalize hroom : s.maxDepth + 1 - c.depth = room at h
  induction room generalizing d c w o w' with
  | zero =>
    obtain ⟨rfl, rfl⟩ := runs_throw.1 h
    exact .tooDeep (by omega)
  | succ room ih =>
    have hdepth : c.depth ≤ s.maxDepth := by omega
    rw [resolveWithin] at h
    rcases runs_bind.1 h with ⟨r, v, hsettle, h⟩ | ⟨e, rfl, hsettle⟩
    · split at h
      · rename_i hr
        exact .deferred hdepth hsettle hr h
      · rename_i hr
        refine .expanded hdepth hsettle (by simpa using hr) (expands_of_runs ?_ ?_)
        · intro r' d' w o w' hrun
          unfold resolveFully at hrun
          have hinside : s.maxDepth + 1 - (inside r' c).depth = room := by
            unfold inside
            rw [Context.depth_extend]
            omega
          rw [hinside] at hrun
          exact ih hinside hrun
        · have : s.maxDepth - c.depth = room := by omega
          rw [this]
          exact h
    · exact .unsettled hdepth hsettle

/-! ## Derivations are runs -/

theorem run_children_of_failed {resolve : Desire → Work Resolved} {ds : List Desire}
    {e : WiringError} (h : (resolve d).Runs w (.error e) w') :
    (children resolve (d :: ds)).run w = (.error (e, d), w') := by
  have hrun : (resolve d).run.run w = (.error e, w') := Prod.ext h.1.symm h.2.symm
  rw [run_children_cons, hrun]

theorem run_children_of_cons {resolve : Desire → Work Resolved} {ds : List Desire}
    {edge : Resolved} {v : Workspace} {a : ChildrenOutcome} (h : (resolve d).Runs w (.ok edge) v)
    (hrest : (children resolve ds).run v = (a, w')) :
    (children resolve (d :: ds)).run w = (a.map (edge :: ·), w') := by
  rw [run_children_cons, show (resolve d).run.run w = (.ok edge, v) from Prod.ext h.1.symm h.2.symm]
  show (((children resolve ds).run v).1.map (edge :: ·), ((children resolve ds).run v).2) = _
  rw [hrest]

theorem runs_childrenOf {a : ChildrenOutcome}
    (h : (children (s.resolveFully · (inside r c)) (r.satisfaction.dependencies s.catalog)).run w =
      (a, w')) :
    (s.childrenOf (s.resolveWithin (s.maxDepth - c.depth)) r c).Runs w (.ok a) w' := by
  unfold childrenOf
  simp only [← resolveFully_inside]
  rw [runs_lift, h]
  exact ⟨rfl, rfl⟩

theorem runs_expand {v : Workspace} {edges : List Resolved}
    (hall : (s.childrenOf (s.resolveWithin (s.maxDepth - c.depth)) r c).Runs w (.ok (.ok edges)) v)
    (hgrow : (s.grow r edges).Runs v o w') :
    (s.expand (s.resolveWithin (s.maxDepth - c.depth)) r c).Runs w o w' := by
  unfold expand
  rw [runs_bind]
  exact .inl ⟨_, v, hall, hgrow⟩

mutual

theorem runs_of_resolves : ∀ {d : Desire} {c : Context} {w w' : Workspace} {o : Attempt Resolved},
    Resolves s d c w o w' → (s.resolveFully d c).Runs w o w'
  | _, _, _, _, _, .tooDeep hdepth => by
    unfold resolveFully
    rw [Nat.sub_eq_zero_of_le hdepth]
    exact ⟨rfl, rfl⟩
  | _, _, _, _, _, .unsettled hdepth hsettle => by
    unfold resolveFully
    rw [Nat.sub_add_comm hdepth, resolveWithin, runs_bind]
    exact .inr ⟨_, rfl, hsettle⟩
  | _, _, _, _, _, .deferred hdepth hsettle hr hdefer => by
    unfold resolveFully
    rw [Nat.sub_add_comm hdepth, resolveWithin, runs_bind]
    refine .inl ⟨_, _, hsettle, ?_⟩
    rw [if_pos hr]
    exact hdefer
  | _, _, _, _, _, .expanded hdepth hsettle hr hexpand => by
    have hexpand := runs_of_expands hexpand
    unfold resolveFully
    rw [Nat.sub_add_comm hdepth, resolveWithin, runs_bind]
    refine .inl ⟨_, _, hsettle, ?_⟩
    rw [if_neg (by simp [hr])]
    exact hexpand

theorem runs_of_expands :
    ∀ {r : Resolution} {c : Context} {w w' : Workspace} {o : Attempt Resolved},
      Expands s r c w o w' → (s.expand (s.resolveWithin (s.maxDepth - c.depth)) r c).Runs w o w'
  | _, _, _, _, _, .grown hall hgrow =>
    runs_expand (runs_childrenOf (run_of_resolvesAll hall)) hgrow
  | _, _, _, _, _, .failed hall hspent => by
    have hall := runs_childrenOf (run_of_resolvesAll hall)
    unfold expand
    rw [runs_bind]
    refine .inl ⟨_, _, hall, ?_⟩
    dsimp only
    rw [hspent]
    exact ⟨rfl, rfl⟩
  | _, _, _, _, _, .restored hall hp hreport hexpand => by
    have hall := runs_childrenOf (run_of_resolvesAll hall)
    have hexpand := runs_of_expands hexpand
    have hspent := backtrack?_of_restored hp
    unfold expand at hexpand ⊢
    rw [runs_bind]
    refine .inl ⟨_, _, hall, ?_⟩
    dsimp only
    rw [hp]
    dsimp only
    rw [runs_bind]
    -- What the dependencies come to is final where no binding may be undone.
    simp only [hspent, ite_self] at hexpand
    exact .inl ⟨_, _, hreport, hexpand⟩

theorem run_of_resolvesAll :
    ∀ {c : Context} {ds : List Desire} {w w' : Workspace} {a : ChildrenOutcome},
      ResolvesAll s c ds w a w' → (children (s.resolveFully · c) ds).run w = (a, w')
  | _, _, _, _, _, .nil => rfl
  | _, _, _, _, _, .failed h => run_children_of_failed (runs_of_resolves h)
  | _, _, _, _, _, .cons h hrest =>
    run_children_of_cons (runs_of_resolves h) (run_of_resolvesAll hrest)

end

theorem Resolves.unique {o' : Attempt Resolved} {w'' : Workspace} (h : Resolves s d c w o w')
    (h' : Resolves s d c w o' w'') : o = o' ∧ w' = w'' :=
  (runs_of_resolves h).unique (runs_of_resolves h')

end Wiring.Settings
