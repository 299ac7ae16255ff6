import Wiring.Proofs.Injector.Ledger
import Wiring.Proofs.Injector.Memoizing

/-!
# What the record says

Where recipes take their dependencies first and register one disposer then, the registered hooks are
the disposers of what is on record, and what an instance was given was constructed before it.
-/

namespace Wiring

open Making Recorded

variable {i i' j : Injector} {l l' : Ledger} {k : Container} {m : Instantiator} {c : Nat}
  {x y : Sides Ledger}

/-! ## What the record says -/

structure Balanced (i : Injector) (l : Ledger) : Prop where
  solver : i.solver.Sound
  recipes : i.solver.settings.catalog.Disposes
  container : i.container.Sound
  hooks : i.container.lifecycle.hooks = l.hooks
  made : ∀ x ∈ l.built, ∃ n < i.made, x.identity = .made n
  order : InOrder l.built
  parts : ∀ y ∈ l.parts, l.Holds y
  /-- Instances that are shared were constructed as well. -/
  shared : ∀ m c p, i.container.Has m → m.cell? = some c → m.source.constructs = true →
    i.container.cell? c = some (.done (.ok (some p))) → l.Holds p.identity

theorem Container.lifecycle_makerFor (k : Container) (x : Graph) (b : BackEdges) :
    (k.makerFor x b).2.lifecycle = k.lifecycle := by
  unfold makerFor newMaker
  dsimp only
  split
  · rfl
  · dsimp only
    split <;> rfl

namespace Balanced

theorem withBooks (h : Balanced i l) (b : Books) (hmade : i.made ≤ b.made) :
    Balanced (i.withBooks b) l := by
  refine ⟨h.solver, h.recipes, h.container, h.hooks, fun x hx => ?_, h.order, h.parts, h.shared⟩
  obtain ⟨n, hn, hx⟩ := h.made x hx
  exact ⟨n, Nat.lt_of_lt_of_le hn hmade, hx⟩

theorem asked (h : Balanced i l) {x : Graph} {b : BackEdges} (hx : x.WellBuilt)
    (hb : b.BuiltTails) :
    Balanced { i with container := (i.container.makerFor x b).2 } l := by
  have hk := h.container.makerFor hx hb
  refine ⟨h.solver, h.recipes, hk.sound, ?_, h.made, h.order, h.parts, fun m c p hm hc hs hp => ?_⟩
  · exact (congrArg _ (i.container.lifecycle_makerFor x b)).trans h.hooks
  · have hcell : (i.container.makerFor x b).2.cell? c = i.container.cell? c :=
      congrArg (List.lookup c) hk.cells
    rw [hcell] at hp
    rcases hk.fresh m c hm hc with hm | hnone
    · exact h.shared m c p hm hc hs hp
    · rw [hnone] at hp
      cases hp

theorem taken (h : Balanced i l) {p : Option Product} (hp : ∀ q, p = some q → l.Holds q.identity) :
    Balanced i { l with parts := l.parts ++ (p.map (·.identity)).toList } := by
  refine ⟨h.solver, h.recipes, h.container, h.hooks, h.made, h.order, fun y hy => ?_, h.shared⟩
  rcases List.mem_append.1 hy with hy | hy
  · exact h.parts y hy
  · obtain ⟨q, hq, rfl⟩ := Option.map_eq_some_iff.1 (Option.mem_toList.1 hy)
    exact hp q hq

end Balanced

def recorded : Comparison Ledger where
  Tied x := x.left = x.right ∧ Balanced x.right x.besides
  Later x y := x.right.container.Grows y.right.container ∧ x.besides.built <+: y.besides.built
  Makers m m' x := m = m' ∧ x.right.container.Has m'
  Nodes p q := p = q ∧ q.1.WellBuilt ∧ q.2.BuiltTails
  refl _ := ⟨.refl _, List.prefix_rfl⟩
  trans h h' := ⟨h.1.trans h'.1, h.2.trans h'.2⟩
  makers_later h hxy := ⟨h.1, h.2.mono hxy.1⟩
  type h := congrArg Instantiator.type h.1
  label h := congrArg (·.1.label) h.1
  catalog h := by rw [h.1]
  dropped h := by rw [h.1]
  books h := by rw [h.1]
  withBooks b h hmade :=
    ⟨⟨congrArg (·.withBooks b) h.1, h.2.withBooks b hmade⟩, .refl _, List.prefix_rfl⟩
  asked := by
    rintro ⟨i', l, i⟩ p _ ⟨hsame, h⟩ ⟨rfl, hnode, hback⟩
    obtain rfl : i' = i := hsame
    have hk := h.container.makerFor hnode hback
    exact ⟨⟨rfl, h.asked hnode hback⟩, ⟨hk.grows, List.prefix_rfl⟩, rfl, hk.has⟩

theorem eq_of_gives {p p' : Option Product} (h : recorded.Gives p p' x) : p = p' := by
  cases h with
  | null => rfl
  | value v => rfl
  | maker n hm => rw [hm.1]

theorem has_of_gives {p p' : Option Product} (h : recorded.Gives p p' x) {n : Identity}
    (hp : p' = some (.maker n m)) : x.right.container.Has m := by
  subst hp
  cases h with
  | maker _ h => exact h.2

theorem gives_self {p : Option Product}
    (h : ∀ n m, p = some (.maker n m) → x.right.container.Has m) : recorded.Gives p p x := by
  cases p with
  | none => exact .null
  | some p =>
    cases p with
    | value v => exact .value v
    | maker n m => exact .maker n ⟨rfl, h n m rfl⟩

theorem eq_of_gathers {found found' : Gathered} (h : recorded.Gathers found found' x) :
    found = found' := by
  obtain ⟨fields, makers⟩ := found
  obtain ⟨fields', makers'⟩ := found'
  obtain ⟨rfl, hmakers⟩ := h
  have hmakers : List.Forall₂ (· = ·) makers makers' :=
    hmakers.imp fun _ _ h => Prod.ext h.1 h.2.1
  rw [List.forall₂_eq_eq_eq] at hmakers
  rw [hmakers]

theorem deps_of_built {deps : Dependencies} (h : deps.Built) : recorded.Deps deps deps :=
  List.forall₂_same.2 fun _ he => ⟨BEq.rfl, rfl, h.edges _ he, h.back⟩

section

variable {α β : Type} {t : Recorded α} {u : Making β} {P : α → β → Sides Ledger → Prop}

/-- What an injector and its record come to, and how the recorded run agrees with the plain one. -/
def Recorded.Comes (t : Recorded α) (i : Injector) (l : Ledger) (r : Attempt β) (j : Injector)
    (P : α → β → Sides Ledger → Prop) : Prop :=
  ∃ r' l', Ends t i l r' j l' ∧ Balanced j l' ∧ i.container.Grows j.container ∧
    l.built <+: l'.built ∧ Agree (P · · ⟨j, l', j⟩) r' r

theorem relates_recorded (h : ∀ i l, x = ⟨i, l, i⟩ → Balanced i l → ∀ r j, RunsTo u i r j →
    Recorded.Comes t i l r j P) : recorded.Relates x t u P := by
  obtain ⟨i', l, i⟩ := x
  rintro ⟨hsame, hb⟩ r j hr
  obtain rfl : i' = i := hsame
  obtain ⟨r', l', hends, hb', hgrows, hbuilt, hagree⟩ := h i' l rfl hb r j hr
  exact ⟨r', j, l', hends, ⟨rfl, hb'⟩, ⟨hgrows, hbuilt⟩, hagree⟩

theorem comes_of_relates {r : Attempt β} (h : recorded.Relates ⟨i, l, i⟩ t u P) (hb : Balanced i l)
    (hr : RunsTo u i r j) : Recorded.Comes t i l r j P := by
  obtain ⟨r', j', l', hends, ⟨hsame, hb'⟩, ⟨hgrows, hbuilt⟩, hagree⟩ := h ⟨rfl, hb⟩ r j hr
  obtain rfl : j' = j := hsame
  exact ⟨r', l', hends, hb', hgrows, hbuilt, hagree⟩

end

/-! ## Constructions -/

section

variable {M : Type → Type} [Monad M] [LawfulMonad M]

theorem runSteps_append (run : Instantiator → MakingOver M (Option Product)) (type : TypeKey)
    (deps : Dependencies) (steps rest : List RecipeStep) (found : Gathered) :
    runSteps run type deps (steps ++ rest) found =
      runSteps run type deps steps found >>= runSteps run type deps rest := by
  induction steps generalizing found with
  | nil =>
    rw [List.nil_append, runSteps, pure_bind]
  | cons s steps ih =>
    rw [List.cons_append, runSteps, runSteps, bind_assoc]
    congr 1
    funext r
    cases r with
    | ok a => exact ih _
    | error e =>
      dsimp only
      split
      · exact ih _
      · exact ExceptT.ext (by rw [ExceptT.run_bind, ExceptT.run_throw, pure_bind])

end

/-- What is left of a recipe when its dependencies were taken: a disposer is registered, and
something new is given, which is in `P`. -/
def Finishes {α : Type} (name : String) (identity : α → Identity) (P : α → Prop)
    (rest : Gathered → Recorded α) (rest' : Gathered → Making α) : Prop :=
  ∀ found i, ∃ a j n, RunsTo (rest' found) i (.ok a) j ∧
    (∀ l : Ledger, Ends (rest found) i l (.ok a) j l) ∧ P a ∧
    identity a = .made n ∧ i.made ≤ n ∧ n < j.made ∧ j.solver = i.solver ∧
    j.container = { i.container with
      lifecycle := i.container.lifecycle.register (.disposer name) }

variable {watch : Instantiator → Recorded (Option Product)}
  {run : Instantiator → Making (Option Product)} {deps : Dependencies} {type : TypeKey}
  {name : String} {n : Nat} {outside : List Identity}

theorem Balanced.constructed {y : Identity} (h : Balanced i l) (hy : y = .made n)
    (hn : i.made ≤ n) (hmade : n < j.made) (hsolver : j.solver = i.solver)
    (hcontainer : j.container = { i.container with
      lifecycle := i.container.lifecycle.register (.disposer name) })
    (houtside : ∀ y ∈ outside, l.Holds y) :
    Balanced j ⟨l.built ++ [⟨y, name, l.parts⟩], outside⟩ := by
  have hgrows : l.built <+: l.built ++ [⟨y, name, l.parts⟩] := List.prefix_append _ _
  have hmem : ∀ z, z ∈ l.built ++ [⟨y, name, l.parts⟩] → z ∈ l.built ∨ z = ⟨y, name, l.parts⟩ := by
    simp
  obtain ⟨hsolver', hrecipes, hk, hhooks, hmade', horder, hparts, hshared⟩ := h
  refine ⟨hsolver ▸ hsolver', hsolver ▸ hrecipes, ?_, ?_, fun z hz => ?_, ?_, ?_, ?_⟩
  · rw [hcontainer]
    exact ⟨hk.node, fun e he => (hk.maker e he).mono rfl Nat.le.refl, hk.apart, hk.cells, hk.unused,
      hk.injected⟩
  · rw [hcontainer]
    simp [Lifecycle.register, Ledger.hooks, hhooks]
  · rcases hmem z hz with hz | rfl
    · obtain ⟨a, ha, hza⟩ := hmade' z hz
      exact ⟨a, by omega, hza⟩
    · exact ⟨n, hmade, hy⟩
  · refine horder.next (fun z hz heq => ?_) hparts
    obtain ⟨a, ha, hza⟩ := hmade' z hz
    have han : a = n := Identity.made.inj (hza.symm.trans (heq.trans hy))
    omega
  · exact fun z hz => (houtside z hz).mono hgrows
  · intro m c p hm hc hs hp
    rw [hcontainer] at hm hp
    exact (hshared m c p hm hc hs hp).mono hgrows

theorem relates_takes (hcalls : recorded.Calls watch run) (hdeps : deps.Built) (type : TypeKey)
    {takes : List RecipeStep} (htakes : ∀ s ∈ takes, s.action.takes = true) :
    recorded.Relates x (runSteps watch type deps takes {}) (runSteps run type deps takes {})
      recorded.Gathers := by
  have hdeps := deps_of_built hdeps
  refine Comparison.relates_runSteps_of type (fun s hs x => ?_) (Comparison.gathers_nil _ _)
  have htakes := htakes s hs
  cases haction : s.action with
  | require form => exact Comparison.relates_runAction_require hcalls hdeps type s.name form
  | provider => exact Comparison.relates_runAction_provider hcalls hdeps type s.name
  | _ =>
    rw [haction] at htakes
    cases htakes

theorem relates_enter (hcalls : recorded.Calls watch run) (hdeps : deps.Built)
    {takes : List RecipeStep} (htakes : ∀ s ∈ takes, s.action.takes = true) {α : Type}
    {identity : α → Identity} {P : α → Prop} {rest : Gathered → Recorded α}
    {rest' : Gathered → Making α} (hrest : Finishes name identity P rest rest') :
    recorded.Relates x (enter name identity (runSteps watch type deps takes {} >>= rest))
      (runSteps run type deps takes {} >>= rest')
      fun a b y => a = b ∧ P b ∧ y.besides.Holds (identity b) := by
  refine relates_recorded fun i l _ hb r j hr => ?_
  -- inside, parts are collected anew; those of the construction outside are put back at the end
  have hinside : Balanced i { l with parts := [] } :=
    ⟨hb.solver, hb.recipes, hb.container, hb.hooks, hb.made, hb.order, List.forall_mem_nil _,
      hb.shared⟩
  have htaken := relates_takes (x := ⟨i, { l with parts := [] }, i⟩) hcalls hdeps type htakes
  rcases runsTo_bind.1 hr with ⟨found, i1, hfound, hr⟩ | ⟨e, rfl, hfailed⟩
  · obtain ⟨_, l1, hends, hb1, hgrows, hbuilt, hagree⟩ := comes_of_relates htaken hinside hfound
    -- nothing can fail when the dependencies were taken, so every disposer has its construction
    obtain ⟨a, j', n, hruns, hends', hP, hidentity, hn, hmade, hsolver, hcontainer⟩ := hrest found i1
    cases hruns.symm.trans hr
    cases hagree with
    | ok hfound =>
      cases eq_of_gathers hfound
      refine ⟨_, ⟨l1.built ++ [⟨identity a, name, l1.parts⟩], l.parts⟩, ?_, ?_, ?_, ?_,
        .ok ⟨rfl, hP, _, List.mem_append_right _ List.mem_cons_self, rfl⟩⟩
      · exact ends_bind rfl (ends_bind (ends_attempt (ends_bind hends (hends' l1)))
          (ends_bind rfl rfl))
      · exact hb1.constructed hidentity hn hmade hsolver hcontainer fun y hy =>
          (hb.parts y hy).mono hbuilt
      · rw [hcontainer]
        exact ⟨hgrows.policy, hgrows.cache, hgrows.cells⟩
      · exact hbuilt.trans (List.prefix_append _ _)
  · obtain ⟨_, l1, hends, hb1, hgrows, hbuilt, hagree⟩ := comes_of_relates htaken hinside hfailed
    cases hagree
    refine ⟨.error e, { l1 with parts := l.parts }, ?_, ?_, hgrows, hbuilt, .error e⟩
    · exact ends_bind rfl (ends_bind (ends_attempt (ends_bind_error hends)) (ends_bind rfl rfl))
    · exact ⟨hb1.solver, hb1.recipes, hb1.container, hb1.hooks, hb1.made, hb1.order,
        fun y hy => (hb.parts y hy).mono hbuilt, hb1.shared⟩

theorem relates_enter_construct (hcalls : recorded.Calls watch run) (hdeps : deps.Built)
    (type : TypeKey) {r : Recipe} (hnew : r.yield.isNew = true) (hsteps : Disposing r.steps) :
    recorded.Relates x
      (enter (disposerName r.steps) (·.identity) (construct watch type deps r))
      (construct run type deps r)
      fun p p' y => Comparison.Values p p' y ∧ y.besides.Holds p'.identity := by
  obtain ⟨steps, yield⟩ := r
  dsimp only at hnew hsteps ⊢
  obtain ⟨takes, tolerant, hsteps, htakes⟩ := hsteps.split
  generalize disposerName steps = name at hsteps ⊢
  unfold construct
  rw [Recipe.goOn, Recipe.goOn, hsteps, runSteps_append, runSteps_append, bind_assoc, bind_assoc]
  refine (relates_enter (P := fun p : Product => ∃ v, p = .value v) hcalls hdeps htakes
    fun found i => ?_).mono ?_
  · cases yield with
    | object | fresh =>
      simp only [Yield.goOn]
      exact ⟨_, _, i.made, rfl, fun l => rfl, ⟨_, rfl⟩, rfl, Nat.le.refl, Nat.lt_succ_self _, rfl,
        rfl⟩
    | shared | further => cases hnew
  · rintro _ _ y ⟨rfl, ⟨v, rfl⟩, hholds⟩
    exact ⟨⟨v, rfl, rfl⟩, hholds⟩

theorem relates_enter_constructProvider (hcalls : recorded.Calls watch run) (hdeps : deps.Built)
    (type : TypeKey) {r : ProviderRecipe} (hsteps : Disposing r.steps) :
    recorded.Relates x
      (enter (disposerName r.steps) (·.identity) (constructProvider watch type deps r))
      (constructProvider run type deps r) fun p p' _ => p = p' := by
  obtain ⟨takes, tolerant, hsteps, htakes⟩ := hsteps.split
  revert hsteps
  generalize disposerName r.steps = name
  intro hsteps
  unfold constructProvider
  rw [hsteps, runSteps_append, runSteps_append, bind_assoc, bind_assoc]
  refine (relates_enter (P := fun _ => True) hcalls hdeps htakes fun found i => ?_).mono
    fun _ _ _ h => h.1
  obtain ⟨steps, supply, renews⟩ := r
  cases supply with
  | constant value =>
    cases renews with
    | true =>
      exact ⟨_, _, i.made + 1, rfl, fun l => rfl, trivial, rfl, Nat.le_succ _, Nat.lt_succ_self _,
        rfl, rfl⟩
    | false =>
      exact ⟨_, _, i.made, rfl, fun l => rfl, trivial, rfl, Nat.le.refl, Nat.lt_succ_self _, rfl,
        rfl⟩
  | counter | fresh | failing =>
    exact ⟨_, _, i.made, rfl, fun l => rfl, trivial, rfl, Nat.le.refl, Nat.lt_succ_self _, rfl, rfl⟩

def Held (constructs : Bool) (p : Option Product) (l : Ledger) : Prop :=
  constructs = true → ∀ q, p = some q → l.Holds q.identity

theorem relates_recordProduce (hcalls : recorded.Calls watch run) (hdeps : deps.Built)
    (s : Satisfaction) :
    recorded.Relates x (recordProduce watch s deps) (produce run s deps) fun p p' y =>
      recorded.Gives p p' y ∧ Held (Source.satisfaction s deps).constructs p' y.besides := by
  refine .of_tied fun ⟨hsame, hb⟩ => ?_
  have hproduce : (∀ t, s ≠ .construct t) → (∀ t t', s ≠ .viaClass t t') →
      recorded.Relates x (produce watch s deps) (produce run s deps) fun p p' y =>
        recorded.Gives p p' y ∧ Held false p' y.besides := fun hconstruct hprovider =>
    (Comparison.relates_produce_of (deps_of_built hdeps) s
      (fun _ _ hs => absurd hs (hconstruct _)) fun _ _ _ hs => absurd hs (hprovider _ _)).mono
        fun _ _ _ h => ⟨h, nofun⟩
  cases s with
  | construct type =>
    unfold recordProduce produce
    refine Comparison.relates_get.bind fun i j y _ h => ?_
    obtain ⟨rfl, rfl, rfl⟩ := h
    dsimp only
    rw [hsame]
    cases hr : y.right.solver.settings.catalog.recipe? type with
    | none => exact Comparison.relates_throw _
    | some r =>
      obtain ⟨hnew, hsteps⟩ := hb.recipes.recipe type r hr
      refine (relates_enter_construct hcalls hdeps type hnew hsteps).bind fun p p' z _ h => ?_
      obtain ⟨⟨v, rfl, rfl⟩, hholds⟩ := h
      refine Comparison.relates_pure ⟨.value v, fun _ q hq => ?_⟩
      cases hq
      exact hholds
  | viaClass provider type =>
    unfold recordProduce produce
    refine Comparison.relates_get.bind fun i j y _ h => ?_
    obtain ⟨rfl, rfl, rfl⟩ := h
    dsimp only
    rw [hsame]
    cases hr : y.right.solver.settings.catalog.providerRecipe? provider with
    | none => exact Comparison.relates_throw _
    | some r =>
      have hsteps := hb.recipes.providerRecipe provider r hr
      refine (relates_enter_constructProvider hcalls hdeps provider hsteps).bind fun p _ z _ h => ?_
      subst h
      refine (Comparison.relates_ask p).bind fun q q' _ _ h => ?_
      obtain ⟨v, rfl, rfl⟩ := h
      exact Comparison.relates_pure ⟨.value v, nofun⟩
  | existing | viaProvider | injected | null => exact hproduce nofun nofun

/-! ## Cells -/

variable {r : Outcome} {s : Satisfaction}

theorem ends_known {recipe : Satisfaction → Dependencies → Recorded (Option Product)}
    {inner : Source} (h : i.container.cell? c = some (.done r)) :
    Ends (runSource recipe type (.memoized c inner)) i l r i l := by
  rw [runSource]
  refine ends_bind (ends_get i l) ?_
  rw [h]
  rfl

theorem ends_first {recipe : Satisfaction → Dependencies → Recorded (Option Product)}
    {inner : Source} (h : i.container.cell? c = none)
    (hrun : Ends (runSource recipe type inner) (i.withCell c .running) l r j l') :
    Ends (runSource recipe type (.memoized c inner)) i l r (j.withCell c (.done r)) l' := by
  rw [runSource]
  refine ends_bind (ends_get i l) ?_
  rw [h]
  exact ends_bind (a := ()) rfl (ends_bind (ends_attempt hrun) (ends_bind (a := ()) rfl rfl))

namespace Balanced

theorem start (h : Balanced i l) (hc : c < i.container.nextCell) :
    Balanced (i.withCell c .running) l := by
  refine ⟨h.solver, h.recipes, h.container.setCell hc nofun, h.hooks, h.made, h.order, h.parts,
    fun m d p hm hd hs hp => ?_⟩
  have hp : (i.container.setCell c .running).cell? d = some (.done (.ok (some p))) := hp
  have hdc : d ≠ c := by
    rintro rfl
    simp at hp
  rw [Container.cell?_setCell_of_ne hdc] at hp
  exact h.shared m d p hm hd hs hp

theorem finish (h : Balanced i l) (hm : i.container.Has m) (hc : m.cell? = some c)
    (hinjected : ∀ n m', r = .ok (some (.maker n m')) → i.container.Has m')
    (hheld : ∀ p, r = .ok p → Held m.source.constructs p l) :
    Balanced (i.withCell c (.done r)) l := by
  obtain ⟨x, hx⟩ := hm
  have hlt : c < i.container.nextCell := (h.container.maker _ hx).cell_lt hc
  refine ⟨h.solver, h.recipes, h.container.setCell hlt ?_, h.hooks, h.made, h.order, h.parts,
    fun m' d p hm' hd hs hp => ?_⟩
  · rintro n m' ⟨⟩
    exact hinjected n m' rfl
  · have hp : (i.container.setCell c (.done r)).cell? d = some (.done (.ok (some p))) := hp
    by_cases hdc : d = c
    · subst hdc
      rw [Container.cell?_setCell_self] at hp
      cases hp
      obtain rfl := h.container.eq_of_cell ⟨x, hx⟩ hm' hc hd
      exact hheld _ rfl hs p rfl
    · rw [Container.cell?_setCell_of_ne hdc] at hp
      exact h.shared m' d p hm' hd hs hp

end Balanced

theorem relates_runSource (hcalls : recorded.Calls watch run) (hm : x.right.container.Has m) :
    recorded.Relates x (runSource (recordProduce watch) m.type m.source)
      (runSource (produce run) m.type m.source) fun p p' y =>
        recorded.Gives p p' y ∧ Held m.source.constructs p' y.besides := by
  refine .of_tied fun ⟨_, hb⟩ => ?_
  obtain ⟨node, hnode⟩ := id hm
  have hmaker : x.right.container.MakerOf node m := hb.container.maker _ hnode
  cases hmaker with
  | plain _ hdeps => exact relates_recordProduce hcalls hdeps _
  | @shared deps c _ hdeps hc =>
    refine relates_recorded fun i l hx hb r j hr => ?_
    subst hx
    rcases runsTo_memoized hr with ⟨hknown, rfl⟩ | ⟨hnone, i1, hrun, rfl⟩
    · -- what the cell holds was put on record when it was filled
      refine ⟨r, l, ends_known hknown, hb, .refl _, List.prefix_rfl, ?_⟩
      cases r with
      | error e => exact .error e
      | ok p =>
        refine .ok ⟨gives_self fun n m hp => ?_, fun hs q hq => ?_⟩
        · exact hb.container.injected c n m (hp ▸ hknown)
        · exact hb.shared _ c q hm rfl hs (hq ▸ hknown)
    · have hinner := relates_recordProduce (x := ⟨i.withCell c .running, l, i.withCell c .running⟩)
        hcalls hdeps node.label.satisfaction
      obtain ⟨r', l1, hends, hb1, hgrows, hbuilt, hagree⟩ :=
        comes_of_relates hinner (hb.start hc) hrun
      have hm : (i.withCell c .running).container.Has _ := hm
      have hm1 := hm.mono hgrows
      cases hagree with
      | error e =>
        exact ⟨_, l1, ends_first hnone hends, hb1.finish hm1 rfl nofun nofun,
          hgrows.setCell hnone _, hbuilt, .error e⟩
      | @ok p _ h =>
        obtain ⟨hgives, hheld⟩ := h
        obtain rfl := eq_of_gives hgives
        have hinjected : ∀ n m', (.ok p : Outcome) = .ok (some (.maker n m')) →
            i1.container.Has m' := by
          rintro n m' ⟨⟩
          exact has_of_gives hgives rfl
        refine ⟨_, l1, ends_first hnone hends, hb1.finish hm1 rfl hinjected ?_,
          hgrows.setCell hnone _, hbuilt, .ok ⟨?_, hheld⟩⟩
        · rintro q ⟨⟩
          exact hheld
        · exact gives_self fun n m' hp => hinjected n m' (congrArg _ hp)

/-! ## Makers -/

/-- However deep recipes may run inside each other, a maker runs as it does without the record. -/
theorem calls_recorded (depth : Nat) :
    recorded.Calls (Instantiator.recordWithin depth) (Instantiator.runWithin depth) := by
  induction depth with
  | zero =>
    intro m m' x _ _ r j hr
    cases hr
  | succ depth ih =>
    rintro m _ x ⟨rfl, hm⟩
    refine relates_recorded fun i l hx hb r j hr => ?_
    subst hx
    obtain ⟨r', l', hends, hb', hgrows, hbuilt, hagree⟩ :=
      comes_of_relates (relates_runSource ih hm) hb hr
    rw [Instantiator.recordWithin]
    cases hagree with
    | error e => exact ⟨_, l', ends_bind_error hends, hb', hgrows, hbuilt, .error e⟩
    | @ok p _ h =>
      obtain ⟨hgives, hheld⟩ := h
      obtain rfl := eq_of_gives hgives
      cases hs : m.source.constructs with
      | false =>
        exact ⟨.ok p, l', ends_bind hends rfl, hb', hgrows, hbuilt, .ok hgives⟩
      | true =>
        have hhas : ∀ n m', p = some (.maker n m') → j.container.Has m' :=
          fun _ _ hp => has_of_gives hgives hp
        exact ⟨.ok p, _, ends_bind hends rfl, hb'.taken (hheld hs), hgrows, hbuilt,
          .ok (gives_self hhas)⟩

/-! ## Requests -/

theorem relates_requestRoot (type : TypeKey) (qualifier : Option Qualifier) :
    recorded.Relates x (requestRoot type qualifier : Recorded _) (requestRoot type qualifier)
      recorded.Makers := by
  have hmaker : ∀ {d : Desire} {x : Sides Ledger},
      recorded.Relates x (rootMaker d : Recorded _) (rootMaker d) recorded.Makers := by
    intro d x
    unfold rootMaker
    refine .of_tied fun ⟨hsame, hb⟩ => Comparison.relates_get.bind fun _ _ y _ h => ?_
    obtain ⟨rfl, rfl, rfl⟩ := h
    rw [hsame]
    cases hnode : y.right.solver.rootNode? d with
    | none => exact Comparison.relates_throw _
    | some node =>
      refine Comparison.relates_modifyGet _ _ fun htied => ?_
      refine recorded.asked (q := (node, y.right.solver.backEdges)) htied
        ⟨rfl, ?_, fun e he f hf => ?_⟩
      · exact wellBuilt_of_rootNode? hb.solver hnode
      · exact (hb.solver.edge e he f hf).wellBuilt
  have hresolve : ∀ {d : Desire}, recorded.Relates x (resolveRoot d : Recorded _) (resolveRoot d)
      fun _ _ _ => True := by
    intro d
    unfold resolveRoot
    refine Comparison.Relates.bind (P := fun a b _ => a = b) ?_ fun r _ _ _ h => ?_
    · refine Comparison.relates_modifyGet _ _ fun ⟨hsame, hb⟩ => ?_
      rw [hsame]
      refine ⟨⟨rfl, ⟨hb.solver.resolve d _, ?_, hb.container, hb.hooks, hb.made, hb.order, hb.parts,
        hb.shared⟩⟩, ⟨.refl _, List.prefix_rfl⟩, rfl⟩
      have hsettings := Solver.settings_resolve x.right.solver d x.right.nextTag
      exact hsettings ▸ hb.recipes
    · subst h
      refine Comparison.relates_of_agree ?_
      cases r with
      | ok a => exact .ok trivial
      | error e => exact .error e
  unfold requestRoot
  refine .of_tied fun ⟨hsame, hb⟩ => Comparison.relates_get.bind fun _ _ y _ h => ?_
  obtain ⟨rfl, rfl, rfl⟩ := h
  rw [hsame]
  dsimp only
  split
  · exact hresolve.bind fun _ _ _ _ _ => hmaker
  · exact hmaker

end Wiring
