import Wiring.Proofs.Injector.Watching

/-!
# Recipes that are watched

Where a run of a recipe ends, the run that is watched ends in the same way, and the calls in it go
with what the container knows afterwards. There is one lemma for each function that recipes are run
by; what a call of a maker does inside of a recipe is given.
-/

namespace Wiring

open Making Watched

variable {α β : Type} {i i' i1 : Injector} {w w' w1 : Watch} {P : α → Injector → Prop}
  {Q : β → Injector → Prop} {t : Watched α} {u : Making α} {f : α → Watched β} {g : α → Making β}

structure Watching (i : Injector) (w : Watch) : Prop where
  solver : i.solver.Sound
  container : i.container.Sound
  calls : Logged i.container w.calls

theorem Watching.aside (h : Watching i w) (hsolver : i'.solver.Sound) {l : Lifecycle} {b : Bool}
    (hcontainer : i'.container = { i.container with lifecycle := l, dropped := b }) :
    Watching i' w := by
  have hk := h.container
  have hc := h.calls
  refine ⟨hsolver, ?_, ?_⟩ <;> rw [hcontainer]
  · exact ⟨hk.node, fun e he => (hk.maker e he).mono rfl Nat.le.refl, hk.apart, hk.cells, hk.unused,
      hk.injected⟩
  · exact ⟨hc.has, hc.plain, hc.done, hc.ran, hc.once⟩

/-- Whoever has gone from here to there goes on watching, with all calls seen before, and the
container has what it had. -/
structure Goes (i : Injector) (w : Watch) (i' : Injector) (w' : Watch) : Prop where
  watching : Watching i' w'
  grows : i.container.Grows i'.container
  calls : w.calls <+: w'.calls

theorem Goes.refl (hw : Watching i w) : Goes i w i w := ⟨hw, .refl _, List.prefix_rfl⟩

theorem Goes.trans (h : Goes i w i1 w1) (h' : Goes i1 w1 i' w') : Goes i w i' w' :=
  ⟨h'.watching, h.grows.trans h'.grows, h.calls.trans h'.calls⟩

/-- Where the making ends, it ends in the same way if it is watched, and what it gives is in `P`. -/
def Tracks (i : Injector) (w : Watch) (t : Watched α) (u : Making α)
    (P : α → Injector → Prop) : Prop :=
  Watching i w → ∀ r i', RunsTo u i r i' → ∃ w', Shows t i w r i' w' ∧ Goes i w i' w' ∧
    ∀ a, r = .ok a → P a i'

/-! ## Steps -/

theorem Tracks.bind (h : Tracks i w t u P)
    (hf : ∀ a i1 w1, i.container.Grows i1.container → P a i1 → Tracks i1 w1 (f a) (g a) Q) :
    Tracks i w (t >>= f) (u >>= g) Q := by
  intro hw r i' hr
  rcases runsTo_bind.1 hr with ⟨a, i1, ha, hr⟩ | ⟨e, rfl, he⟩
  · obtain ⟨w1, hshows, hgoes, hP⟩ := h hw _ _ ha
    obtain ⟨w', hshows', hgoes', hQ⟩ := hf a i1 w1 hgoes.grows (hP a rfl) hgoes.watching _ _ hr
    exact ⟨w', shows_bind_ok hshows hshows', hgoes.trans hgoes', hQ⟩
  · obtain ⟨w', hshows, hgoes, -⟩ := h hw _ _ he
    exact ⟨w', shows_bind.2 (.inr ⟨e, rfl, hshows⟩), hgoes, nofun⟩

theorem tracks_of_attempt (x : Attempt α) (hP : ∀ a, x = .ok a → P a i) :
    Tracks i w (liftM x) (liftM x) P := by
  intro hw r i' hr
  cases hr
  exact ⟨w, rfl, .refl hw, hP⟩

theorem tracks_pure (a : α) (hP : P a i) : Tracks i w (pure a) (pure a) P := by
  intro hw r i' hr
  cases hr
  exact ⟨w, rfl, .refl hw, fun b hb => by cases hb; exact hP⟩

theorem tracks_throw (e : WiringError) : Tracks i w (throw e) (throw e) P := by
  intro hw r i' hr
  cases hr
  exact ⟨w, rfl, .refl hw, nofun⟩

theorem tracks_modifyGet (f : Injector → α × Injector)
    (hf : Watching i w → Watching (f i).2 w ∧ i.container.Grows (f i).2.container ∧
      P (f i).1 (f i).2) : Tracks i w (modifyGet f) (modifyGet f) P := by
  intro hw r i' hr
  obtain ⟨hw', hgrows, hP⟩ := hf hw
  cases hr
  exact ⟨w, rfl, ⟨hw', hgrows, List.prefix_rfl⟩, fun a ha => by cases ha; exact hP⟩

theorem tracks_beside (f : Injector → α × Injector) (hsolver : (f i).2.solver = i.solver)
    (hcontainer : (f i).2.container = i.container) (hP : P (f i).1 (f i).2) :
    Tracks i w (modifyGet f) (modifyGet f) P := by
  refine tracks_modifyGet f fun hw => ⟨⟨?_, ?_, ?_⟩, ?_, hP⟩
  · exact hsolver ▸ hw.solver
  · exact hcontainer ▸ hw.container
  · exact hcontainer ▸ hw.calls
  · exact hcontainer ▸ .refl _

theorem tracks_get : Tracks i w get get fun a i' => a = i ∧ i' = i :=
  tracks_beside (fun i => (i, i)) rfl rfl ⟨rfl, rfl⟩

theorem Tracks.attempt (h : Tracks i w t u P) :
    Tracks i w (Making.attempt t) (Making.attempt u) fun r i' => ∀ a, r = .ok a → P a i' := by
  intro hw r i' hr
  obtain ⟨o, rfl, ho⟩ := runsTo_attempt.1 hr
  obtain ⟨w', hshows, hgoes, hP⟩ := h hw _ _ ho
  exact ⟨w', shows_attempt.2 ⟨_, rfl, hshows⟩, hgoes, fun a ha => by cases ha; exact hP⟩

theorem tracks_makerFor {x : Graph} {b : BackEdges} (hx : x.WellBuilt) (hb : b.BuiltTails) :
    Tracks i w (changeContainer (·.makerFor x b)) (changeContainer (·.makerFor x b))
      fun m i' => i'.container.Has m := by
  refine tracks_modifyGet _ fun hw => ?_
  have h := hw.container.makerFor hx hb
  exact ⟨⟨hw.solver, h.sound, hw.calls.extended h⟩, h.grows, h.has⟩

theorem tracks_register (h : Hook) : Tracks i w (register h) (register h) fun _ _ => True :=
  tracks_modifyGet _ fun hw =>
    ⟨hw.aside hw.solver rfl, ⟨rfl, fun _ => id, fun _ _ => id⟩, trivial⟩

/-! ## Dependencies -/

def Injected (p : Option Product) (i : Injector) : Prop :=
  ∀ j m, p = some (.maker j m) → i.container.Has m

def TracksCalls (watch : Instantiator → Watched (Option Product))
    (run : Instantiator → Making (Option Product)) : Prop :=
  ∀ ⦃m i w⦄, i.container.Has m → Tracks i w (watch m) (run m) Injected

variable {watch : Instantiator → Watched (Option Product)}
  {run : Instantiator → Making (Option Product)} {deps : Dependencies} {m : Instantiator}

theorem tracks_maker (hdeps : deps.Built) (type : TypeKey) {node : Graph}
    (hnode : node.WellBuilt) : Tracks i w (deps.maker type node) (deps.maker type node)
      fun m i' => i'.container.Has m := by
  unfold Dependencies.maker
  refine tracks_get.bind fun _ i1 w1 _ h => ?_
  obtain ⟨rfl, rfl⟩ := h
  split
  · exact tracks_throw _
  · exact tracks_makerFor hnode hdeps.back

theorem built_of_find? (hdeps : deps.Built) {p : Desire → Bool} {e : Dependency × Graph}
    (h : deps.find? p = some e) : e.2.WellBuilt :=
  hdeps.edges e (List.mem_of_find?_eq_some h)

theorem tracks_serve (hdeps : deps.Built) (d : Desire) :
    Tracks i w (deps.serve d) (deps.serve d) fun m i' => i'.container.Has m := by
  unfold Dependencies.serve
  split
  · exact tracks_throw _
  · exact tracks_maker hdeps _ (built_of_find? hdeps (by assumption))

theorem inForm_eq_ok {p q : Product} {type : TypeKey} {form : Form}
    (h : p.inForm type form = .ok q) : q = p := by
  unfold Product.inForm at h
  split at h <;> cases h
  rfl

section

variable (hcalls : TracksCalls watch run) (hdeps : deps.Built)
include hcalls

theorem tracks_runAs (hm : i.container.Has m) (form : Option Form) :
    Tracks i w (runAs watch m form) (runAs run m form) Injected := by
  cases form with
  | none => exact hcalls hm
  | some form =>
    refine (hcalls hm).bind fun p i1 w1 _ hp => ?_
    cases p with
    | none => exact tracks_throw _
    | some p =>
      refine (tracks_of_attempt (P := fun q i' => q = p ∧ i' = i1) _ fun q hq =>
        ⟨inForm_eq_ok hq, rfl⟩).bind fun q i2 w2 _ h => ?_
      obtain ⟨rfl, rfl⟩ := h
      exact tracks_pure _ hp

include hdeps

theorem tracks_getDependency (name : String) (form : Form) :
    Tracks i w (deps.get watch name form) (deps.get run name form) Injected := by
  unfold Dependencies.get
  split
  · exact tracks_throw _
  · rename_i hfind
    refine (tracks_maker hdeps _ (built_of_find? hdeps hfind)).bind fun m i1 w1 _ hm => ?_
    refine (hcalls hm).bind fun p i2 w2 _ hp => ?_
    cases p with
    | none =>
      dsimp only
      split
      · exact tracks_pure _ nofun
      · exact tracks_throw _
    | some p =>
      refine (tracks_of_attempt (P := fun q i' => q = p ∧ i' = i2) _ fun q hq =>
        ⟨inForm_eq_ok hq, rfl⟩).bind fun q i3 w3 _ h => ?_
      obtain ⟨rfl, rfl⟩ := h
      exact tracks_pure _ hp

theorem tracks_require (name : String) (form : Form) :
    Tracks i w (deps.require watch name form) (deps.require run name form)
      fun p i' => Injected (some p) i' := by
  refine (tracks_getDependency hcalls hdeps name form).bind fun p i1 w1 _ hp => ?_
  cases p with
  | some p => exact tracks_pure _ hp
  | none =>
    dsimp only
    split <;> exact tracks_throw _

theorem tracks_provider (name : String) :
    Tracks i w (deps.provider watch name) (deps.provider run name)
      fun m i' => i'.container.Has m := by
  refine (tracks_require hcalls hdeps name .maker).bind fun p i1 w1 _ hp => ?_
  cases p with
  | maker j m => exact tracks_pure _ (hp j m rfl)
  | value _ => exact tracks_throw _

end

/-! ## Roots -/

theorem wellBuilt_of_rootNode? {v : Solver} {d : Desire} {node : Graph} (hv : v.Sound)
    (h : v.rootNode? d = some node) : node.WellBuilt := by
  obtain ⟨e, he, rfl⟩ := Option.map_eq_some_iff.1 h
  obtain ⟨f, hf, rfl⟩ := List.mem_map.1 (List.mem_of_find?_eq_some he)
  exact hv.wellBuilt.tail hf

theorem tracks_resolveRoot (d : Desire) :
    Tracks i w (resolveRoot d) (resolveRoot d) fun _ _ => True := by
  unfold resolveRoot
  refine Tracks.bind (P := fun _ _ => True) (tracks_modifyGet _ fun hw => ?_) fun r i1 w1 _ _ => ?_
  · exact ⟨⟨hw.solver.resolve d _, hw.container, hw.calls⟩, .refl _, trivial⟩
  · exact tracks_of_attempt r fun _ _ => trivial

theorem tracks_rootMaker (d : Desire) :
    Tracks i w (rootMaker d) (rootMaker d) fun m i' => i'.container.Has m := by
  unfold rootMaker
  refine tracks_get.bind fun _ i1 w1 _ h => ?_
  obtain ⟨rfl, rfl⟩ := h
  split
  · exact tracks_throw _
  · rename_i hnode
    intro hw
    refine tracks_makerFor (wellBuilt_of_rootNode? hw.solver hnode) (fun entry he e hf => ?_) hw
    exact (hw.solver.edge entry he e hf).wellBuilt

theorem tracks_requestRoot (type : TypeKey) (qualifier : Option Qualifier) :
    Tracks i w (requestRoot type qualifier) (requestRoot type qualifier)
      fun m i' => i'.container.Has m := by
  unfold requestRoot
  refine tracks_get.bind fun _ i1 w1 _ h => ?_
  obtain ⟨rfl, rfl⟩ := h
  dsimp only
  split
  · exact (tracks_resolveRoot _).bind fun _ _ _ _ _ => tracks_rootMaker _
  · exact tracks_rootMaker _

/-! ## Recipes -/

abbrev Ignored {α : Type} (_ : α) (_ : Injector) : Prop := True

theorem tracks_newIdentity : Tracks i w newIdentity newIdentity Ignored :=
  tracks_beside _ rfl rfl trivial

theorem tracks_nextSerial : Tracks i w nextSerial nextSerial Ignored :=
  tracks_beside _ rfl rfl trivial

theorem tracks_writeLog (line : String) : Tracks i w (writeLog line) (writeLog line) Ignored :=
  tracks_beside _ rfl rfl trivial

theorem tracks_newValue (d : Datum) : Tracks i w (newValue d) (newValue d) Ignored :=
  tracks_newIdentity.bind fun _ _ _ _ _ => tracks_pure _ trivial

abbrev IsValue (p : Product) (_ : Injector) : Prop := ∃ v, p = .value v

theorem injected_of_isValue {p : Product} (h : IsValue p i) : Injected (some p) i := by
  obtain ⟨v, rfl⟩ := h
  nofun

theorem tracks_ask (p : Provider) : Tracks i w (ask p) (ask p) IsValue := by
  unfold ask
  split
  · refine Tracks.bind (P := Ignored) (tracks_beside _ rfl rfl trivial) fun n i1 w1 _ _ => ?_
    exact (tracks_newValue _).bind fun v _ _ _ _ => tracks_pure _ ⟨v, rfl⟩
  · exact tracks_pure _ ⟨_, rfl⟩
  · refine tracks_nextSerial.bind fun n i1 w1 _ _ => ?_
    exact (tracks_newValue _).bind fun v _ _ _ _ => tracks_pure _ ⟨v, rfl⟩
  · exact tracks_throw _

theorem tracks_finish (type : TypeKey) (found : Gathered) {value : String → Watched Value}
    {value' : String → Making Value}
    (hvalue : ∀ name i w, Tracks i w (value name) (value' name) Ignored) :
    Tracks i w (finish type found value) (finish type found value') IsValue := by
  unfold finish
  refine tracks_nextSerial.bind fun serial i1 w1 _ _ => ?_
  refine (tracks_writeLog _).bind fun _ i2 w2 _ _ => ?_
  refine (hvalue _ _ _).bind fun v i3 w3 _ _ => ?_
  refine Tracks.bind (P := Ignored) (tracks_beside _ rfl rfl trivial) fun _ i4 w4 _ _ => ?_
  exact tracks_pure _ ⟨v, rfl⟩

theorem tracks_newSupply (r : ProviderRecipe) :
    Tracks i w r.newSupply r.newSupply Ignored := by
  unfold ProviderRecipe.newSupply
  split
  · split
    · exact (tracks_newValue _).bind fun _ _ _ _ _ => tracks_pure _ trivial
    · exact tracks_pure _ trivial
  · exact tracks_pure _ trivial

section

variable (hcalls : TracksCalls watch run) (hdeps : deps.Built)
include hcalls hdeps

theorem tracks_runAction (type : TypeKey) (name : String) (a : Action) :
    Tracks i w (runAction watch type deps name a) (runAction run type deps name a) Ignored := by
  cases a with
  | get form =>
    exact (tracks_getDependency hcalls hdeps name form).bind fun _ _ _ _ _ => tracks_pure _ trivial
  | require form =>
    exact (tracks_require hcalls hdeps name form).bind fun _ _ _ _ _ => tracks_pure _ trivial
  | provider =>
    exact (tracks_provider hcalls hdeps name).bind fun _ _ _ _ _ => tracks_pure _ trivial
  | call form =>
    exact (tracks_provider hcalls hdeps name).bind fun _ _ _ _ hm =>
      (tracks_runAs hcalls hm form).bind fun _ _ _ _ _ => tracks_pure _ trivial
  | names => exact tracks_pure _ trivial
  | serve desire =>
    exact (tracks_serve hdeps desire).bind fun _ _ _ _ hm =>
      (hcalls hm).bind fun _ _ _ _ _ => tracks_pure _ trivial
  | request wanted qualifier form =>
    exact (tracks_requestRoot wanted qualifier).bind fun _ _ _ _ hm =>
      (tracks_runAs hcalls hm form).bind fun _ _ _ _ _ => tracks_pure _ trivial
  | hook | dispose => exact (tracks_register _).bind fun _ _ _ _ _ => tracks_pure _ trivial
  | hooks => exact tracks_get.bind fun _ _ _ _ _ => tracks_pure _ trivial
  | fail => exact tracks_throw _

theorem tracks_runSteps (type : TypeKey) (steps : List RecipeStep) (found : Gathered) :
    Tracks i w (runSteps watch type deps steps found) (runSteps run type deps steps found)
      Ignored := by
  induction steps generalizing found i w with
  | nil => exact tracks_pure _ trivial
  | cons s rest ih =>
    rw [runSteps, runSteps]
    refine (tracks_runAction hcalls hdeps type s.name s.action).attempt.bind
      fun r i1 w1 _ _ => ?_
    cases r with
    | ok => exact ih _
    | error e =>
      dsimp only
      split
      · exact ih _
      · exact tracks_throw _

end

mutual

theorem tracks_recipe (hcalls : TracksCalls watch run) (hdeps : deps.Built) (type : TypeKey) :
    ∀ (r : Recipe) (found : Gathered) {i w},
      Tracks i w (r.goOn watch type deps found) (r.goOn run type deps found) IsValue
  | ⟨steps, yield⟩, found, _, _ => by
    rw [Recipe.goOn, Recipe.goOn]
    exact (tracks_runSteps hcalls hdeps type steps found).bind fun found _ _ _ _ =>
      tracks_yield hcalls hdeps type yield found

theorem tracks_yield (hcalls : TracksCalls watch run) (hdeps : deps.Built) (type : TypeKey) :
    ∀ (y : Yield) (found : Gathered) {i w},
      Tracks i w (y.goOn watch type deps found) (y.goOn run type deps found) IsValue
  | .object, found, _, _ => by
    rw [Yield.goOn, Yield.goOn]
    exact tracks_finish type found fun _ _ _ => tracks_newValue _
  | .fresh datum, found, _, _ => by
    rw [Yield.goOn, Yield.goOn]
    exact tracks_finish type found fun _ _ _ => tracks_newValue _
  | .shared value, found, _, _ => by
    rw [Yield.goOn, Yield.goOn]
    exact tracks_finish type found fun _ _ _ => tracks_pure _ trivial
  | .further choose, found, _, _ => by
    rw [Yield.goOn, Yield.goOn]
    exact tracks_newIdentity.bind fun n _ _ _ _ =>
      tracks_recipe hcalls hdeps type (choose n found.fields) found

end

section

variable (hcalls : TracksCalls watch run) (hdeps : deps.Built)
include hcalls hdeps

theorem tracks_construct (type : TypeKey) (r : Recipe) :
    Tracks i w (construct watch type deps r) (construct run type deps r) IsValue :=
  tracks_recipe hcalls hdeps type r {}

theorem tracks_constructProvider (type : TypeKey) (r : ProviderRecipe) :
    Tracks i w (constructProvider watch type deps r) (constructProvider run type deps r)
      Ignored := by
  unfold constructProvider
  refine (tracks_runSteps hcalls hdeps type r.steps {}).bind fun found i1 w1 _ _ => ?_
  refine tracks_nextSerial.bind fun serial i2 w2 _ _ => ?_
  refine (tracks_writeLog _).bind fun _ i3 w3 _ _ => ?_
  refine (tracks_newSupply r).bind fun supply i4 w4 _ _ => ?_
  exact tracks_newIdentity.bind fun _ _ _ _ _ => tracks_pure _ trivial

theorem tracks_produce (s : Satisfaction) :
    Tracks i w (produce watch s deps) (produce run s deps) Injected := by
  unfold produce
  refine tracks_get.bind fun _ i1 w1 _ _ => ?_
  cases s with
  | construct type =>
    dsimp only
    split
    · exact (tracks_construct hcalls hdeps type _).bind fun _ _ _ _ hp =>
        tracks_pure _ (injected_of_isValue hp)
    · exact tracks_throw _
  | existing type value => exact tracks_pure _ nofun
  | viaClass provider type =>
    dsimp only
    split
    · exact (tracks_constructProvider hcalls hdeps provider _).bind fun _ _ _ _ _ =>
        (tracks_ask _).bind fun _ _ _ _ hp => tracks_pure _ (injected_of_isValue hp)
    · exact tracks_throw _
  | viaProvider type provider =>
    exact (tracks_ask _).bind fun _ _ _ _ hp => tracks_pure _ (injected_of_isValue hp)
  | injected type target =>
    refine (tracks_serve hdeps target).bind fun m i2 w2 _ hm => ?_
    refine tracks_newIdentity.bind fun j i3 w3 hgrows _ => tracks_pure _ ?_
    rintro _ _ ⟨⟩
    exact hm.mono hgrows
  | null type => exact tracks_pure _ nofun

end

end Wiring
