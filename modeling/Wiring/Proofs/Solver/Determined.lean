import Wiring.Proofs.Context
import Wiring.Proofs.Dag.Merge
import Wiring.Proofs.Solver.Coverage
import Wiring.Proofs.Solver.Narrowings

/-!
# What a desire is bound to

Where no function follows a script, what resolving a desire comes to depends on the shape of the
context and on nothing else: from any two workspaces it fails with the same blame, or it gives equal
edges to equal nodes. So a desire yields one resolution in a context, the end of its rounds or,
where a dependency of that cannot be satisfied, what was there before the last binding.
-/

namespace Wiring

open Work Settings

variable {c : Catalog} {functions : List BindingFunction} {context k : Context} {turn turn' : Nat}

/-! ## Rounds -/

def Alike {ε α : Type} (E : ε → ε → Prop) (R : α → α → Prop) : Except ε α → Except ε α → Prop
  | .ok a, .ok b => R a b
  | .error e, .error f => E e f
  | _, _ => False

def SameBlame (e f : WiringError) : Prop := ∀ d, e.blames d = f.blames d

/-- On the left and on the right, in a turn and a context each, functions in `F` offer the same for
chains in `K`. Such chains are equal, and they stay in `K` when one desire is added to both. -/
structure AskedAlike (c : Catalog) (turn turn' : Nat) (context k : Context)
    (F : BindingFunction → Prop) (K : DesireChain → DesireChain → Prop) : Prop where
  offer : ∀ ⦃f⦄, F f → ∀ ⦃chain chain'⦄, K chain chain' → ∀ applied,
    Alike SameBlame Eq (f.offer c turn context chain applied) (f.offer c turn' k chain' applied)
  beq : ∀ ⦃chain chain'⦄, K chain chain' → (chain == chain') = true
  extend : ∀ ⦃chain chain'⦄, K chain chain' → ∀ d, K (chain.extend d) (chain'.extend d)

structure SameAnswer (a b : Answer) : Prop where
  offer : Alike SameBlame Eq a.offer b.offer
  binders : a.binders = b.binders

structure Resolution.Matched (K : DesireChain → DesireChain → Prop) (r p : Resolution) : Prop where
  chain : K r.chain p.chain
  left : r.chain.current.satisfaction? = some r.satisfaction
  right : p.chain.current.satisfaction? = some p.satisfaction
  policy : r.policy = p.policy
  fixed : r.fixed = p.fixed
  deferred : r.deferred = p.deferred
  skippable : r.skippable = p.skippable

theorem Resolution.Matched.eq {r p : Resolution} (h : r.Matched Eq p) : r = p := by
  obtain ⟨hchain, hleft, hright, hpolicy, hfixed, hdeferred, hskippable⟩ := h
  rw [hchain, hright] at hleft
  cases r
  cases p
  simp_all

section AskedAlike

variable {F : BindingFunction → Prop} {K : DesireChain → DesireChain → Prop}
  {chain chain' : DesireChain} (hask : AskedAlike c turn turn' context k F K)
include hask

theorem AskedAlike.askBinders {bs : List Binder} (hF : ∀ b ∈ bs, F b.function)
    (hK : K chain chain') :
    SameAnswer (askBinders c turn context chain bs) (askBinders c turn' k chain' bs) := by
  induction bs with
  | nil => exact ⟨rfl, rfl⟩
  | cons b bs ih =>
    obtain ⟨ihoffer, ihbinders⟩ := ih fun b' hb' => hF b' (List.mem_cons_of_mem _ hb')
    have hoffer : Alike SameBlame Eq (b.offer c turn context chain) (b.offer c turn' k chain') :=
      hask.offer (hF b List.mem_cons_self) hK b.applied
    rw [Wiring.askBinders, Wiring.askBinders]
    revert hoffer
    generalize b.offer c turn context chain = x
    generalize b.offer c turn' k chain' = y
    intro hoffer
    rcases x with e | o <;> rcases y with f | p
    · exact ⟨hoffer, rfl⟩
    · exact hoffer.elim
    · exact hoffer.elim
    · cases hoffer
      rcases o with _ | o
      · exact ⟨ihoffer, congrArg (b :: ·) ihbinders⟩
      · dsimp only
        rw [DesireChain.contains_earlier_of_beq (hask.beq hK)]
        split
        · exact ⟨ihoffer, congrArg (b.remember o :: ·) ihbinders⟩
        · exact ⟨rfl, rfl⟩

theorem AskedAlike.resolution {r : Rounds} (hK : K r.chain chain') :
    Alike SameBlame (Resolution.Matched K) (r.resolution context)
      ({ r with chain := chain' }.resolution k) := by
  have hbeq := hask.beq hK
  have hcurrent := DesireChain.current_beq hbeq
  unfold Rounds.resolution
  dsimp only
  cases ha : r.chain.current.satisfaction? with
  | none =>
    have hnone := Desire.isInstantiable_of_beq hcurrent
    unfold Desire.isInstantiable at hnone
    rw [ha, Option.isSome_none, eq_comm, Option.isSome_eq_false_iff, Option.isNone_iff_eq_none]
      at hnone
    rw [hnone]
    refine fun d => ?_
    show (r.chain.initial == d) = (chain'.initial == d)
    exact BEq.congr_left ((DesireChain.beq_iff _ _).1 hbeq).1
  | some a =>
    obtain ⟨b, hb, -⟩ := Desire.satisfaction_of_beq hcurrent ha
    rw [hb]
    exact ⟨hK, ha, hb, rfl, rfl, rfl, rfl⟩

theorem AskedAlike.ends {r : Rounds} {x y : Settled} (hF : ∀ b ∈ r.binders, F b.function)
    (hK : K r.chain chain') (h : Rounds.Ends c turn context r x)
    (h' : Rounds.Ends c turn' k { r with chain := chain' } y) :
    Alike SameBlame (Resolution.Matched K) x.outcome y.outcome := by
  have hsame : ∀ {r : Rounds} {chain' : DesireChain}, (∀ b ∈ r.binders, F b.function) →
      K r.chain chain' → SameAnswer (Wiring.askBinders c turn context r.chain r.binders)
        (Wiring.askBinders c turn' k chain' r.binders) := fun hF hK => hask.askBinders hF hK
  have hover' : ∀ {r : Rounds} {chain' : DesireChain}, K r.chain chain' →
      { r with chain := chain' }.isOver = r.isOver := by
    intro r chain' hK
    unfold Rounds.isOver
    dsimp only
    rw [Desire.isInstantiable_of_beq (DesireChain.current_beq (hask.beq hK))]
  induction h generalizing chain' y with
  | @ended r hover =>
    cases h' with
    | ended _ => exact hask.resolution hK
    | failed h' _ | stuck h' _ | bound h' _ _ => simp [hover' hK, hover] at h'
  | @failed r e hover h =>
    have hanswer := (hsame hF hK).offer
    rw [h] at hanswer
    cases h' with
    | ended h' => simp [hover' hK, hover] at h'
    | failed _ h' =>
      rw [h'] at hanswer
      exact hanswer
    | stuck _ h' | bound _ h' _ =>
      rw [h'] at hanswer
      exact hanswer.elim
  | @stuck r hover h =>
    have hanswer := (hsame hF hK).offer
    rw [h] at hanswer
    cases h' with
    | ended h' => simp [hover' hK, hover] at h'
    | stuck _ _ => exact hask.resolution hK
    | failed _ h' | bound _ h' _ =>
      rw [h'] at hanswer
      cases hanswer
  | @bound r o x hover h _ ih =>
    obtain ⟨hanswer, hbinders⟩ := hsame hF hK
    rw [h] at hanswer
    cases h' with
    | ended h' => simp [hover' hK, hover] at h'
    | failed _ h' | stuck _ h' =>
      rw [h'] at hanswer
      cases hanswer
    | bound _ h' hy =>
      rw [h'] at hanswer
      cases hanswer
      dsimp only at hy
      rw [← hbinders] at hy
      have ih := ih (functions_of_askBinders hF) (hask.extend hK _) hy
      exact ih

theorem AskedAlike.settle {d d' : Desire} (hscript : ∀ f ∈ functions, f.isScripted = false)
    (hF : ∀ f ∈ functions, F f) (hK : K (.singleton d) (.singleton d')) :
    Alike SameBlame (Resolution.Matched K) (settle c functions turn context d).outcome
      (settle c functions turn' k d').outcome := by
  have hends : Rounds.Ends c turn context (.start functions d) _ := Rounds.ends_settle hscript
  have hends' : Rounds.Ends c turn' k (.start functions d') _ := Rounds.ends_settle hscript
  exact hask.ends (Rounds.functions_start hF d) hK hends hends'

end AskedAlike

/-! ## Contexts of one shape -/

theorem askedAlike_of_shape (hk : context.shape = k.shape) :
    AskedAlike c turn turn' context k (·.isScripted = false) Eq where
  beq _ _ h := h ▸ BEq.rfl
  extend _ _ h d := h ▸ rfl
  offer f hscript chain _ h applied := by
    subst h
    unfold BindingFunction.offer
    cases f with
    | scripted _ | chosen _ _ => cases hscript
    | providers | defaults => exact rfl
    | rules groups =>
      dsimp only
      unfold offerByRules
      rw [candidates_of_shape hk]
      dsimp only
      split
      · exact rfl
      · exact rfl
      · exact fun d => rfl

theorem settle_alike (hscript : ∀ f ∈ functions, f.isScripted = false)
    (hk : context.shape = k.shape) (d : Desire) :
    Alike SameBlame Eq (settle c functions turn context d).outcome
      (settle c functions turn' k d).outcome := by
  have hask : AskedAlike c turn turn' context k (·.isScripted = false) Eq := askedAlike_of_shape hk
  have hsettle : Alike SameBlame (Resolution.Matched Eq)
    (settle c functions turn context d).outcome (settle c functions turn' k d).outcome :=
    hask.settle hscript hscript rfl
  revert hsettle
  generalize (settle c functions turn context d).outcome = x
  generalize (settle c functions turn' k d).outcome = y
  intro hsettle
  cases x <;> cases y
  · exact hsettle
  · exact hsettle.elim
  · exact hsettle.elim
  · exact hsettle.eq

namespace Settings

variable {s : Settings} {d d' : Desire} {r p : Resolution} {w w' v v' : Workspace}
  {o o' : Attempt Resolved} {e : WiringError}

def Unscripted (s : Settings) : Prop := ∀ f ∈ s.functions, f.isScripted = false

theorem outcome_alike {x y : Attempt Resolution} (hs : s.Unscripted)
    (hk : context.shape = k.shape) (h : (s.settle d context).Runs w x w')
    (h' : (s.settle d k).Runs v y v') : Alike SameBlame Eq x y := by
  rw [(runs_settle.1 h).1, (runs_settle.1 h').1]
  exact settle_alike hs hk d

theorem Settles.of_shape (hs : s.Unscripted) (hk : context.shape = k.shape)
    (h : s.Settles d context r) : s.Settles d k r := by
  obtain ⟨turn, h⟩ := h
  have halike : Alike SameBlame Eq (Wiring.settle s.catalog s.functions turn context d).outcome
      (Wiring.settle s.catalog s.functions turn k d).outcome := settle_alike hs hk d
  rw [h] at halike
  refine ⟨turn, ?_⟩
  generalize (Wiring.settle s.catalog s.functions turn k d).outcome = o at halike
  cases o with
  | error _ => exact halike.elim
  | ok _ => exact congrArg _ halike.symm

theorem Settles.unique (hs : s.Unscripted) (h : s.Settles d context r)
    (h' : s.Settles d context p) : r = p := by
  obtain ⟨turn, h⟩ := h
  obtain ⟨turn', h'⟩ := h'
  have halike : Alike SameBlame Eq (Wiring.settle s.catalog s.functions turn context d).outcome
      (Wiring.settle s.catalog s.functions turn' context d).outcome := settle_alike hs rfl d
  rw [h, h'] at halike
  exact halike

/-! ## Trees -/

def SameFailure (a b : WiringError × Desire) : Prop := SameBlame a.1 b.1 ∧ a.2 = b.2

theorem Bare.beq {l : Component} {g k : Graph} (hg : Bare l g) (hk : Bare l k) :
    (g == k) = true := by
  refine Dag.beq_of_forall₂ hg.wellBuilt hk.wellBuilt ?_ ?_
  · rw [hg.label, hk.label]
    exact BEq.rfl
  · rw [hg.edges, hk.edges]
    exact .nil

theorem alike_defer (h : (s.defer r context).Runs w o w') (h' : (s.defer r k).Runs v o' v') :
    Alike SameBlame Dag.SameEdge o o' := by
  obtain ⟨f, hf, _, rfl, _, _⟩ := runs_defer h
  obtain ⟨g, hg, _, rfl, _, _⟩ := runs_defer h'
  exact ⟨(Dag.edge_beq_iff _ _).2 ⟨BEq.rfl, hf.beq hg⟩, hf.wellBuilt, hg.wellBuilt⟩

theorem alike_grow {es fs : List Resolved} (hes : List.Forall₂ Dag.SameEdge es fs)
    (h : (s.grow r es).Runs w o w') (h' : (s.grow r fs).Runs v o' v') :
    Alike SameBlame Dag.SameEdge o o' := by
  obtain ⟨t, rfl, _, _⟩ := runs_grow h
  obtain ⟨t', rfl, _, _⟩ := runs_grow h'
  obtain ⟨hleft, hright, hbeq⟩ := Dag.build_addEdges_beq BEq.rfl hes t t'
  exact ⟨(Dag.edge_beq_iff _ _).2 ⟨BEq.rfl, hbeq⟩, hleft, hright⟩

theorem alike_cons {edge edge' : Resolved} {a b : ChildrenOutcome}
    (h : Dag.SameEdge edge edge') (hrest : Alike SameFailure (List.Forall₂ Dag.SameEdge) a b) :
    Alike SameFailure (List.Forall₂ Dag.SameEdge) (a.map (edge :: ·)) (b.map (edge' :: ·)) := by
  cases a with
  | error _ =>
    cases b with
    | error _ => exact hrest
    | ok _ => exact hrest.elim
  | ok _ =>
    cases b with
    | error _ => exact hrest.elim
    | ok _ => exact .cons h hrest

theorem shape_inside (r : Resolution) (hk : context.shape = k.shape) :
    (inside r context).shape = (inside r k).shape :=
  Context.shape_extend_congr r.qualifier hk rfl

mutual

theorem Resolves.alike (hs : s.Unscripted) : ∀ {d c w w' o}, Resolves s d c w o w' →
    ∀ {k}, c.shape = k.shape → ∀ ⦃v v' o'⦄, Resolves s d k v o' v' →
      Alike SameBlame Dag.SameEdge o o'
  | _, _, _, _, _, .tooDeep hdepth, _, hk, _, _, _, h' => by
    have hkd := Context.depth_of_shape hk
    cases h' with
    | tooDeep _ => exact fun d => rfl
    | unsettled h _ | deferred h _ _ _ | expanded h _ _ _ => omega
  | _, _, _, _, _, .unsettled hdepth h, _, hk, _, _, _, h' => by
    have hkd := Context.depth_of_shape hk
    cases h' with
    | tooDeep _ => omega
    | unsettled _ h' => exact outcome_alike hs hk h h'
    | deferred _ h' _ _ | expanded _ h' _ _ => exact (outcome_alike hs hk h h').elim
  | _, _, _, _, _, .deferred hdepth h hr hdefer, _, hk, _, _, _, h' => by
    have hkd := Context.depth_of_shape hk
    cases h' with
    | tooDeep _ => omega
    | unsettled _ h' => exact (outcome_alike hs hk h h').elim
    | deferred _ h' _ hdefer' =>
      cases outcome_alike hs hk h h'
      exact alike_defer hdefer hdefer'
    | expanded _ h' hr' _ =>
      cases outcome_alike hs hk h h'
      simp [hr] at hr'
  | _, _, _, _, _, .expanded hdepth h hr hexpand, _, hk, _, _, _, h' => by
    have hkd := Context.depth_of_shape hk
    have ih := Expands.alike hs hexpand hk
    cases h' with
    | tooDeep _ => omega
    | unsettled _ h' => exact (outcome_alike hs hk h h').elim
    | deferred _ h' hr' _ =>
      cases outcome_alike hs hk h h'
      simp [hr] at hr'
    | expanded _ h' _ hexpand' =>
      cases outcome_alike hs hk h h'
      exact ih hexpand'

theorem Expands.alike (hs : s.Unscripted) : ∀ {r c w w' o}, Expands s r c w o w' →
    ∀ {k}, c.shape = k.shape → ∀ ⦃v v' o'⦄, Expands s r k v o' v' →
      Alike SameBlame Dag.SameEdge o o'
  | _, _, _, _, _, .grown hall hgrow, _, hk, _, _, _, h' => by
    have ih := ResolvesAll.alike hs hall (shape_inside _ hk)
    cases h' with
    | grown hall' hgrow' => exact alike_grow (ih hall') hgrow hgrow'
    | failed hall' _ | restored hall' _ _ _ => exact (ih hall').elim
  | _, _, _, _, _, .failed hall hspent, _, hk, _, _, _, h' => by
    have ih := ResolvesAll.alike hs hall (shape_inside _ hk)
    cases h' with
    | grown hall' _ => exact (ih hall').elim
    | failed hall' _ => exact (ih hall').1
    | restored hall' hp _ _ =>
      obtain ⟨hblame, hd⟩ := ih hall'
      cases hd
      rw [hblame, hp] at hspent
      cases hspent
  | _, _, _, _, _, .restored hall hp _ hexpand, _, hk, _, _, _, h' => by
    have ih := ResolvesAll.alike hs hall (shape_inside _ hk)
    have ih' := Expands.alike hs hexpand hk
    cases h' with
    | grown hall' _ => exact (ih hall').elim
    | failed hall' hspent =>
      obtain ⟨hblame, hd⟩ := ih hall'
      cases hd
      rw [hblame, hspent] at hp
      cases hp
    | restored hall' hp' _ hexpand' =>
      obtain ⟨hblame, hd⟩ := ih hall'
      cases hd
      rw [hblame, hp'] at hp
      cases hp
      exact ih' hexpand'

theorem ResolvesAll.alike (hs : s.Unscripted) : ∀ {c ds w w' a}, ResolvesAll s c ds w a w' →
    ∀ {k}, c.shape = k.shape → ∀ ⦃v v' a'⦄, ResolvesAll s k ds v a' v' →
      Alike SameFailure (List.Forall₂ Dag.SameEdge) a a'
  | _, _, _, _, _, .nil, _, _, _, _, _, h' => by
    cases h'
    exact .nil
  | _, _, _, _, _, .failed h, _, hk, _, _, _, h' => by
    have ih := Resolves.alike hs h hk
    cases h' with
    | failed h' => exact ⟨ih h', rfl⟩
    | cons h' _ => exact (ih h').elim
  | _, _, _, _, _, .cons (o := a) h hrest, _, hk, _, _, _, h' => by
    have ih := Resolves.alike hs h hk
    have ih' := ResolvesAll.alike hs hrest hk
    cases h' with
    | failed h' => exact (ih h').elim
    | cons h' hrest' =>
      have hedge := ih h'
      exact alike_cons hedge (ih' hrest')

end

/-! ## The binding of a desire -/

/-- What a desire is bound to in a context: what its rounds come to or, where a dependency of that
cannot be satisfied and the last binding may be undone, what was there before it. -/
inductive Yields (s : Settings) (d : Desire) (c : Context) : Resolution → Prop
  | settled {r : Resolution} : s.Settles d c r →
      (∀ w w' e d', r.deferred = false →
        ResolvesAll s (inside r c) (r.satisfaction.dependencies s.catalog) w (.error (e, d')) w' →
        (if e.blames d' then r.backtrack? else none) = none) →
      Yields s d c r
  | restored {r p : Resolution} {w w' : Workspace} {e : WiringError} {d' : Desire} :
      s.Settles d c r → r.deferred = false →
      ResolvesAll s (inside r c) (r.satisfaction.dependencies s.catalog) w (.error (e, d')) w' →
      e.blames d' = true → r.backtrack? = some p → Yields s d c p

theorem Yields.unique (hs : s.Unscripted) (h : s.Yields d context r) (h' : s.Yields d context p) :
    r = p := by
  cases h with
  | settled h hkeep =>
    cases h' with
    | settled h' _ => exact h.unique hs h'
    | restored h' hr hall hblames hp =>
      cases h.unique hs h'
      have hnone := hkeep _ _ _ _ hr hall
      rw [if_pos hblames, hp] at hnone
      cases hnone
  | restored h hr hall hblames hp =>
    cases h' with
    | settled h' hkeep =>
      cases h.unique hs h'
      have hnone := hkeep _ _ _ _ hr hall
      rw [if_pos hblames, hp] at hnone
      cases hnone
    | restored h' _ _ _ hp' =>
      cases h.unique hs h'
      rw [hp] at hp'
      exact Option.some.inj hp'

theorem Binds.yields (hs : s.Unscripted) (h : s.Binds d context r) {es : List Resolved}
    (hall : ResolvesAll s (inside r context) (r.satisfaction.dependencies s.catalog) w (.ok es)
      w') :
    s.Yields d context r := by
  cases h with
  | settled h =>
    refine .settled h fun v v' e d' _ hfails => ?_
    exact (hall.alike hs rfl hfails).elim
  | restored h hr hall hblames hp => exact .restored h hr hall hblames hp

theorem exists_resolvesAll (s : Settings) (k : Context) (ds : List Desire) (v : Workspace) :
    ∃ a v', ResolvesAll s k ds v a v' :=
  ⟨_, _, resolvesAll_of_run (fun _ _ => resolves_of_runs (runs_self _ _)) ds v⟩

theorem ResolvesAll.fails (hs : s.Unscripted) (hk : context.shape = k.shape) {ds : List Desire}
    (h : ResolvesAll s context ds w (.error (e, d)) w') :
    ∃ f v', ResolvesAll s k ds w (.error (f, d)) v' ∧ SameBlame e f := by
  obtain ⟨a, v', h'⟩ := exists_resolvesAll s k ds w
  have halike := h.alike hs hk h'
  rcases a with ⟨f, d'⟩ | edges
  · obtain ⟨hblame, hd⟩ := halike
    cases hd
    exact ⟨f, v', h', hblame⟩
  · exact halike.elim

theorem Yields.of_shape (hs : s.Unscripted) (hk : context.shape = k.shape)
    (h : s.Yields d context r) : s.Yields d k r := by
  cases h with
  | settled h hkeep =>
    refine .settled (h.of_shape hs hk) fun w w' e d' hr hall => ?_
    obtain ⟨f, v', hall', hblame⟩ := hall.fails hs (shape_inside r hk.symm)
    rw [hblame]
    exact hkeep _ _ _ _ hr hall'
  | restored h hr hall hblames hp =>
    obtain ⟨f, v', hall', hblame⟩ := hall.fails hs (shape_inside _ hk)
    rw [hblame] at hblames
    exact .restored (h.of_shape hs hk) hr hall' hblames hp

theorem Settles.yields (h : s.Settles d context r) (hr : r.deferred = true) :
    s.Yields d context r := by
  refine .settled h fun w w' e d' hr' => ?_
  simp [hr] at hr'

end Settings

end Wiring
