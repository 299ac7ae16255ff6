import Wiring.Proofs.Solver.Failures

/-!
# Failing in the same way

Where no function follows a script, the error of a call depends on what the solver holds and not on
the tags it hands out: from two solvers that hold the same, a call that fails in one fails in the
other, and with the same error.
-/

namespace Wiring

open Work Settings Catalog BackEdges

variable {c : Catalog} {context : Context} {turn turn' : Nat} {functions : List BindingFunction}

/-! ## Turns -/

theorem askBinders_turn {chain : DesireChain} {bs : List Binder}
    (h : ∀ b ∈ bs, b.function.isScripted = false) :
    askBinders c turn context chain bs = askBinders c turn' context chain bs := by
  induction bs with
  | nil => rfl
  | cons b bs ih =>
    have hoffer : b.offer c turn context chain = b.offer c turn' context chain := by
      have hb := h b List.mem_cons_self
      unfold Binder.offer BindingFunction.offer
      cases hf : b.function with
      | rules | providers | defaults => rfl
      | scripted _ | chosen _ _ =>
        rw [hf] at hb
        cases hb
    rw [askBinders, askBinders, hoffer, ih fun b' hb' => h b' (List.mem_cons_of_mem _ hb')]

theorem Rounds.run?_turn {fuel : Nat} {r : Rounds}
    (h : ∀ b ∈ r.binders, b.function.isScripted = false) :
    r.run? c turn context fuel = r.run? c turn' context fuel := by
  induction fuel generalizing r with
  | zero => rfl
  | succ fuel ih =>
    have hask : askBinders c turn context r.chain r.binders =
        askBinders c turn' context r.chain r.binders := askBinders_turn h
    have hnext := fun o => ih (r := r.accept o (askBinders c turn' context r.chain r.binders).binders)
      (functions_of_askBinders (P := (·.isScripted = false)) h)
    rw [run?, run?, hask]
    simp only [hnext]

theorem settle_turn (h : ∀ f ∈ functions, f.isScripted = false) (d : Desire) :
    settle c functions turn context d = settle c functions turn' context d := by
  have hstart : ∀ b ∈ (Rounds.start functions d).binders, b.function.isScripted = false :=
    Rounds.functions_start (P := (·.isScripted = false)) h d
  unfold settle
  rw [Rounds.run?_turn hstart]

/-! ## Trees -/

namespace Settings

variable {s : Settings} {d d' : Desire} {r p : Resolution} {w w' v v' : Workspace}
  {o o' : Attempt Resolved} {e : WiringError}

def FailAlike {ε α : Type} (x y : Except ε α) : Prop := Alike Eq (fun _ _ => True) x y

theorem outcome_eq {x y : Attempt Resolution} (hs : s.Unscripted)
    (h : (s.settle d context).Runs w x w') (h' : (s.settle d context).Runs v y v') : x = y := by
  rw [(runs_settle.1 h).1, (runs_settle.1 h').1, settle_turn hs d]

mutual

theorem Resolves.failAlike (hs : s.Unscripted) : ∀ {d c w w' o}, Resolves s d c w o w' →
    ∀ ⦃v v' o'⦄, Resolves s d c v o' v' → FailAlike o o'
  | _, _, _, _, _, .tooDeep hdepth, _, _, _, h' => by
    cases h' with
    | tooDeep _ => exact rfl
    | unsettled h _ | deferred h _ _ _ | expanded h _ _ _ => omega
  | _, _, _, _, _, .unsettled hdepth h, _, _, _, h' => by
    cases h' with
    | tooDeep _ => omega
    | unsettled _ h' =>
      cases outcome_eq hs h h'
      exact rfl
    | deferred _ h' _ _ | expanded _ h' _ _ => cases outcome_eq hs h h'
  | _, _, _, _, _, .deferred hdepth h hr hdefer, _, _, _, h' => by
    cases h' with
    | tooDeep _ => omega
    | unsettled _ h' => cases outcome_eq hs h h'
    | deferred _ h' _ hdefer' =>
      obtain ⟨_, _, _, rfl, _, _⟩ := runs_defer hdefer
      obtain ⟨_, _, _, rfl, _, _⟩ := runs_defer hdefer'
      exact trivial
    | expanded _ h' hr' _ =>
      cases outcome_eq hs h h'
      simp [hr] at hr'
  | _, _, _, _, _, .expanded hdepth h hr hexpand, _, _, _, h' => by
    have ih := Expands.failAlike hs hexpand
    cases h' with
    | tooDeep _ => omega
    | unsettled _ h' => cases outcome_eq hs h h'
    | deferred _ h' hr' _ =>
      cases outcome_eq hs h h'
      simp [hr] at hr'
    | expanded _ h' _ hexpand' =>
      cases outcome_eq hs h h'
      exact ih hexpand'

theorem Expands.failAlike (hs : s.Unscripted) : ∀ {r c w w' o}, Expands s r c w o w' →
    ∀ ⦃v v' o'⦄, Expands s r c v o' v' → FailAlike o o'
  | _, _, _, _, _, .grown hall hgrow, _, _, _, h' => by
    have ih := ResolvesAll.failAlike hs hall
    cases h' with
    | grown hall' hgrow' =>
      obtain ⟨_, rfl, _, _⟩ := runs_grow hgrow
      obtain ⟨_, rfl, _, _⟩ := runs_grow hgrow'
      exact trivial
    | failed hall' _ | restored hall' _ _ _ => exact (ih hall').elim
  | _, _, _, _, _, .failed hall hspent, _, _, _, h' => by
    have ih := ResolvesAll.failAlike hs hall
    cases h' with
    | grown hall' _ => exact (ih hall').elim
    | failed hall' _ => exact congrArg Prod.fst (ih hall')
    | restored hall' hp _ _ =>
      cases ih hall'
      rw [hp] at hspent
      cases hspent
  | _, _, _, _, _, .restored hall hp _ hexpand, _, _, _, h' => by
    have ih := ResolvesAll.failAlike hs hall
    have ih' := Expands.failAlike hs hexpand
    cases h' with
    | grown hall' _ => exact (ih hall').elim
    | failed hall' hspent =>
      cases ih hall'
      rw [hspent] at hp
      cases hp
    | restored hall' hp' _ hexpand' =>
      cases ih hall'
      rw [hp'] at hp
      cases hp
      exact ih' hexpand'

theorem ResolvesAll.failAlike (hs : s.Unscripted) : ∀ {c ds w w' a}, ResolvesAll s c ds w a w' →
    ∀ ⦃v v' a'⦄, ResolvesAll s c ds v a' v' → FailAlike a a'
  | _, _, _, _, _, .nil, _, _, _, h' => by
    cases h'
    exact trivial
  | _, _, _, _, _, .failed h, _, _, _, h' => by
    have ih := Resolves.failAlike hs h
    cases h' with
    | failed h' => exact congrArg (·, _) (ih h')
    | cons h' _ => exact (ih h').elim
  | _, _, _, _, _, .cons (o := a) h hrest, _, _, _, h' => by
    have ih := Resolves.failAlike hs h
    have ih' := ResolvesAll.failAlike hs hrest
    cases h' with
    | failed h' => exact (ih h').elim
    | @cons _ _ _ _ a' _ _ _ h' hrest' =>
      have hrest := ih' hrest'
      rcases a with _ | _ <;> rcases a' with _ | _ <;> exact hrest

end

end Settings

/-! ## Passes -/

variable {s : Settings} {d : Desire} {e : WiringError} {w v w' v' : Workspace} {p q : Pass}
  {parent parent' current current' : Graph} {f f' : Deferral}

theorem resolves_fails (hs : s.Unscripted) (h : Resolves s d context w (.error e) w')
    (v : Workspace) : ∃ v', Resolves s d context v (.error e) v' := by
  have h' := resolves_of_runs (runs_self (s.resolveFully d context) v)
  have halike := h.failAlike hs h'
  revert h' halike
  generalize ((s.resolveFully d context).run.run v).1 = o
  intro h' halike
  cases o with
  | error e' =>
    cases halike
    exact ⟨_, h'⟩
  | ok _ => exact halike.elim

theorem spans_anyComponent (g : Graph) : Solver.anyComponent.Spans g := fun _ _ => trivial

theorem fails_of_expandChildren (hs : s.Unscripted) (hplain : s.catalog.Plain)
    (hparent : Dag.SameNode parent parent') : ∀ (ds : List Desire) {current current' : Graph}
      {p q : Pass} {w v w' : Workspace},
      (s.expandChildren parent context ds current p).Runs w (.error e) w' →
      BothGrowing s [] [] context w v p q current current' ds →
      ∃ v', (s.expandChildren parent' context ds current' q).Runs v (.error e) v'
  | [], _, _, _, _, _, _, _, hrun, _ => by cases (runs_pure.1 hrun).1
  | d :: ds, current, current', p, q, w, v, w', hrun, h => by
    rw [Settings.expandChildren] at hrun ⊢
    rcases runs_bind.1 hrun with ⟨⟨dep, tree⟩, w1, hd, hrun⟩ | ⟨e', he, hd⟩
    · rcases runs_bind.1 hrun with ⟨child, w2, hmerge, hrun⟩ | ⟨_, _, hmerge⟩
      · rcases runs_bind.1 hrun with ⟨x, w3, hadd, hrun⟩ | ⟨e', _, hadd⟩
        · rcases runs_bind.1 hrun with ⟨_, _, _, hpure⟩ | ⟨e', he, hrest⟩
          · cases (runs_pure.1 hpure).1
          · cases he
            obtain ⟨dep', tree', child', y, v1, v2, v3, hd', hmerge', hadd', -, hboth⟩ :=
              h.addChild hs hplain (Solver.aside_nil _ Solver.anyComponent) (spans_anyComponent _)
                hparent (resolves_of_runs hd) hmerge hadd
            obtain ⟨v', hrest'⟩ := fails_of_expandChildren hs hplain hparent ds hrest hboth
            refine ⟨v', runs_bind.2 (.inl ⟨_, v1, runs_of_resolves hd', ?_⟩)⟩
            refine runs_bind.2 (.inl ⟨_, v2, hmerge', ?_⟩)
            exact runs_bind.2 (.inl ⟨_, v3, hadd', runs_bind.2 (.inr ⟨_, rfl, hrest'⟩)⟩)
        · obtain ⟨x, _, hx⟩ := exists_addChild parent current child dep p w2
          cases (hadd.unique hx).1
      · cases (runs_merge.1 hmerge).1
    · cases he
      obtain ⟨v', hd'⟩ := resolves_fails hs (resolves_of_runs hd) v
      exact ⟨v', runs_bind.2 (.inr ⟨_, rfl, runs_of_resolves hd'⟩)⟩

theorem BothIdle.fails (hs : s.Unscripted) (hplain : s.catalog.Plain)
    (h : BothIdle s [] [] f f' w v p q) (hrun : (s.processDeferral p f).Runs w (.error e) w') :
    ∃ v', (s.processDeferral q f').Runs v (.error e) v' := by
  obtain ⟨hskip, hfound, hexpand⟩ := runs_processDeferral_error.1 hrun
  have hskips := h.skips (Solver.aside_nil _ Solver.anyComponent) (spans_anyComponent _)
  have hreach := reaches_of_skip hskip
  have hreach' := reaches_of_skip (hskips ▸ hskip)
  obtain ⟨v', hexpand'⟩ :=
    fails_of_expandChildren hs hplain h.same.node _ hexpand (h.growing hreach hreach')
  rw [needs_congr h.same.label, h.same.context] at hexpand'
  have hchildren : Option.Rel (List.Forall₂ Dag.SameEdge) (p.children? f.node)
      (q.children? f'.node) := children?_same h.beside.expanded h.same.node
  rw [hfound] at hchildren
  refine ⟨v', runs_processDeferral_error.2 ⟨hskips ▸ hskip, ?_, hexpand'⟩⟩
  cases hq : q.children? f'.node with
  | none => rfl
  | some _ =>
    rw [hq] at hchildren
    cases hchildren

theorem Settings.Drains.fails (hs : s.Unscripted) (hplain : s.catalog.Plain) {o : Attempt Pass}
    (h : Drains s p w o w') (ho : o = .error e) (hb : Beside [] [] p q) (hp : p.Ready s w)
    (hq : q.Ready s v) (hqueue : List.Forall₂ SameDeferral w.queue v.queue) :
    ∃ v', Drains s q v (.error e) v' := by
  have hidle : ∀ {p q : Pass} {w v : Workspace} {f f' : Deferral} {rest rest' : List Deferral},
      Beside [] [] p q → p.Ready s w → q.Ready s v → w.queue = f :: rest →
      v.queue = f' :: rest' → SameDeferral f f' → List.Forall₂ SameDeferral rest rest' →
      BothIdle s [] [] f f' { w with queue := rest } { v with queue := rest' } p q := by
    intro p q w v f f' rest rest' hb hp hq hfront hfront' hsame hrest
    have hbare := hp.bare f (hfront ▸ List.mem_cons_self)
    exact ⟨hb, hfront ▸ hp.idle, hfront' ▸ hq.idle, hsame, hbare, hsame.bare hbare, absurd rfl,
      ⟨hp.pool, hq.pool⟩, hrest⟩
  induction h generalizing q v with
  | done _ => cases ho
  | failed hfront hrun =>
    cases ho
    rw [hfront] at hqueue
    obtain ⟨f', rest', hsame, hrest, hfront'⟩ := List.forall₂_cons_left_iff.1 hqueue
    obtain ⟨v', hrun'⟩ :=
      (hidle hb hp hq hfront hfront' hsame hrest).fails hs hplain hrun
    exact ⟨v', .failed hfront' hrun'⟩
  | next hfront hrun _ ih =>
    rw [hfront] at hqueue
    obtain ⟨f', rest', hsame, hrest, hfront'⟩ := List.forall₂_cons_left_iff.1 hqueue
    obtain ⟨q1, v1, hrun', hb1, hqueue1⟩ :=
      (hidle hb hp hq hfront hfront' hsame hrest).follows hs hplain
        (Solver.aside_nil _ Solver.anyComponent) hrun (spans_anyComponent _)
    obtain ⟨v', hdrains⟩ := ih ho hb1 (hp.next hfront hrun) (hq.next hfront' hrun') hqueue1
    exact ⟨v', .next hfront' hrun' hdrains⟩

/-! ## Calls -/

namespace Solver

variable {v u : Solver} {w w' w2 : Workspace}

theorem Calls.fails (hs : v.settings.Unscripted) (hplain : v.settings.catalog.Plain)
    (hsettings : u.settings = v.settings) (hv : v.Sound) (hu : u.Sound) (hb : Beside [] [] v u)
    (hpool : PoolBuilt w) (hpool' : PoolBuilt w2) (hw : w.queue = []) (hw2 : w2.queue = [])
    (h : v.Calls d w (.error e) w') : ∃ v', u.Calls d w2 (.error e) v' := by
  rcases h with hd | ⟨hd, hmerge, hbuild, hdrains⟩
  · obtain ⟨v', hd'⟩ := resolves_fails hs hd w2
    exact ⟨v', .unresolved (hsettings ▸ hd')⟩
  · obtain ⟨edge', node', root', v1, v2, v3, hd', hmerge', hbuild', hlinked, hready, hready',
      hsame, -⟩ := exists_linked hs hsettings hv hu hb hpool hpool' hw hw2 hd hmerge hbuild
    obtain ⟨v', hdrains'⟩ := hdrains.fails hs hplain rfl hlinked hready hready' hsame
    rw [← hsettings] at hdrains'
    exact ⟨v', .drained hd' hmerge' hbuild' hdrains'⟩

/-- From solvers that hold the same, a call has the same result, and the solvers hold the same
after it. -/
theorem resolve_same (hs : v.settings.Unscripted) (hplain : v.settings.catalog.Plain)
    (hsettings : u.settings = v.settings) (hv : v.Sound) (hu : u.Sound) (hb : Beside [] [] v u)
    (d : Desire) (tag tag' : Nat) :
    ((u.resolve d).run tag').1.result = ((v.resolve d).run tag).1.result ∧
      Beside [] [] ((v.resolve d).run tag).1.solver ((u.resolve d).run tag').1.solver := by
  cases hresult : ((v.resolve d).run tag).1.result with
  | ok _ =>
    exact resolve_beside hs hplain (aside_nil _ anyComponent) (absurd rfl) hsettings hv hu hb
      hresult (spans_anyComponent _) tag'
  | error e =>
    have hfails : ((u.resolve d).run tag').1.result = .error e := by
      obtain ⟨o, w', hcalls, ho, -⟩ := v.exists_calls d tag
      obtain ⟨o', v', hcalls', ho', -⟩ := u.exists_calls d tag'
      rw [hresult] at ho
      cases o with
      | ok _ => cases ho
      | error _ =>
        cases ho
        obtain ⟨v'', hfails⟩ := hcalls.fails hs hplain hsettings hv hu hb (hv.poolBuilt tag)
          (hu.poolBuilt tag') rfl rfl
        obtain ⟨rfl, -⟩ := hcalls'.unique hfails
        exact ho'
    obtain ⟨hgraph, hback⟩ := resolve_error hresult
    obtain ⟨hgraph', hback'⟩ := resolve_error hfails
    refine ⟨hfails, ?_, ?_⟩
    · rw [hgraph, hgraph']
      exact hb.root
    · rw [hback, hback']
      exact hb.back

end Solver

end Wiring
