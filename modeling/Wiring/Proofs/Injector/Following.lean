import Wiring.Proofs.Injector.Comparing

/-!
# Recipes side by side

A comparison that holds of what single steps do to an injector holds of whole recipes, and of all
that satisfactions come to.
-/

namespace Wiring

open Making

mutual

def Recipe.All (P : RecipeStep → Prop) : Recipe → Prop
  | ⟨steps, yield⟩ => (∀ s ∈ steps, P s) ∧ yield.All P

def Yield.All (P : RecipeStep → Prop) : Yield → Prop
  | .object | .fresh _ | .shared _ => True
  | .further choose => ∀ n fields, (choose n fields).All P

end

mutual

theorem Recipe.All.mono {P Q : RecipeStep → Prop} (h : ∀ s, P s → Q s) :
    ∀ {r : Recipe}, r.All P → r.All Q
  | ⟨_, _⟩, ⟨hsteps, hyield⟩ => ⟨fun s hs => h s (hsteps s hs), hyield.mono h⟩

theorem Yield.All.mono {P Q : RecipeStep → Prop} (h : ∀ s, P s → Q s) :
    ∀ {y : Yield}, y.All P → y.All Q
  | .object, _ | .fresh _, _ | .shared _, _ => trivial
  | .further _, hall => fun n fields => (hall n fields).mono h

end

variable {M : Type → Type} [Monad M] {S : Type} [Watchable M S]

namespace Comparison

variable {C : Comparison S} {x y : Sides S}

def Named (C : Comparison S) (l l' : List (String × Instantiator)) (x : Sides S) : Prop :=
  List.Forall₂ (fun a b => a.1 = b.1 ∧ C.Makers a.2 b.2 x) l l'

theorem Named.later {l l' : List (String × Instantiator)} (h : C.Named l l' x)
    (hxy : C.Later x y) : C.Named l l' y :=
  h.imp fun _ _ hab => ⟨hab.1, C.makers_later hab.2 hxy⟩

def Gathers (C : Comparison S) (found found' : Gathered) (x : Sides S) : Prop :=
  found.fields = found'.fields ∧ C.Named found.makers found'.makers x

theorem gathers_nil (C : Comparison S) (x : Sides S) : C.Gathers {} {} x := ⟨rfl, .nil⟩

def Values (p p' : Product) (_ : Sides S) : Prop := ∃ v, p = .value v ∧ p' = .value v

theorem relates_ask (p : Provider) :
    C.Relates x (ask p : MakingOver M _) (ask p) Values := by
  unfold ask
  split
  · refine (relates_bookwork (.count _ _)).bind fun n _ y _ h => ?_
    subst h
    refine (relates_bookwork (.newValue _)).bind fun v _ z _ h => ?_
    exact relates_pure ⟨v, rfl, by rw [h]⟩
  · exact relates_pure ⟨_, rfl, rfl⟩
  · refine (relates_bookwork .nextSerial).bind fun n _ y _ h => ?_
    subst h
    refine (relates_bookwork (.newValue _)).bind fun v _ z _ h => ?_
    exact relates_pure ⟨v, rfl, by rw [h]⟩
  · exact relates_throw _

end Comparison

namespace Sides

def registered (x : Sides S) (h : Hook) : Sides S :=
  ⟨{ x.left with container := { x.left.container with
      lifecycle := x.left.container.lifecycle.register h } }, x.besides,
    { x.right with container := { x.right.container with
      lifecycle := x.right.container.lifecycle.register h } }⟩

def kept (x : Sides S) (n : Identity) (l l' : List (String × Instantiator)) : Sides S :=
  ⟨{ x.left with kept := (n, l) :: x.left.kept }, x.besides,
    { x.right with kept := (n, l') :: x.right.kept }⟩

end Sides

namespace Comparison

def Requests (C : Comparison S) (M : Type → Type) [Monad M] [Watchable M S] (s : RecipeStep) :
    Prop :=
  ∀ wanted qualifier form, s.action = .request wanted qualifier form → ∀ x,
    C.Relates x (requestRoot wanted qualifier : MakingOver M _) (requestRoot wanted qualifier)
      C.Makers

structure Follows (C : Comparison S) (M : Type → Type) [Monad M] [Watchable M S] : Prop where
  size : ∀ {x}, C.Tied x → x.left.container.lifecycle.size = x.right.container.lifecycle.size
  register : ∀ {x} (h : Hook), C.Tied x → C.Tied (x.registered h) ∧ C.Later x (x.registered h)
  keep : ∀ {x} (n : Identity) {l l'}, C.Tied x → C.Named l l' x →
    C.Tied (x.kept n l l') ∧ C.Later x (x.kept n l l')
  recipe : ∀ {x t r}, C.Tied x → x.right.solver.settings.catalog.recipe? t = some r →
    r.All (C.Requests M)
  providerRecipe : ∀ {x t r}, C.Tied x →
    x.right.solver.settings.catalog.providerRecipe? t = some r → ∀ s ∈ r.steps, C.Requests M s

variable {C : Comparison S} {x y : Sides S} {run : Instantiator → MakingOver M (Option Product)}
  {run' : Instantiator → Making (Option Product)} {deps deps' : Dependencies}
  {m m' : Instantiator} {steps : List RecipeStep} {found found' : Gathered}

def Acts (C : Comparison S) (a b : String × Option Instantiator) (x : Sides S) : Prop :=
  a.1 = b.1 ∧ Option.Rel (C.Makers · · x) a.2 b.2

theorem relates_runSteps_of (type : TypeKey)
    (haction : ∀ s ∈ steps, ∀ x, C.Relates x (runAction run type deps s.name s.action)
      (runAction run' type deps' s.name s.action) C.Acts)
    (hfound : C.Gathers found found' x) :
    C.Relates x (runSteps run type deps steps found) (runSteps run' type deps' steps found')
      C.Gathers := by
  induction steps generalizing found found' x with
  | nil => exact relates_pure hfound
  | cons s rest ih =>
    have hrest := fun s hs => haction s (List.mem_cons_of_mem _ hs)
    rw [runSteps, runSteps]
    refine (haction s List.mem_cons_self x).attempt.bind fun r r' y hxy hr => ?_
    have hnamed := hfound.2.later hxy
    cases hr with
    | @ok a b hab =>
      obtain ⟨text, maker⟩ := a
      obtain ⟨text', maker'⟩ := b
      obtain ⟨rfl, hmaker⟩ := hab
      refine ih hrest ⟨by rw [hfound.1], ?_⟩
      refine List.rel_append hnamed ?_
      cases hmaker with
      | none => exact .nil
      | some hm => exact .cons ⟨rfl, hm⟩ .nil
    | error e =>
      dsimp only
      split
      · exact ih hrest ⟨by rw [hfound.1], hnamed⟩
      · exact relates_throw _

section

variable (hcalls : C.Calls run run') (hdeps : C.Deps deps deps')
include hcalls hdeps

theorem relates_runAction_require (type : TypeKey) (name : String) (form : Form) :
    C.Relates x (runAction run type deps name (.require form))
      (runAction run' type deps' name (.require form)) C.Acts :=
  (relates_require hcalls hdeps name form).bind fun _ _ _ _ hp => relates_pure ⟨hp.summary, .none⟩

theorem relates_runAction_provider (type : TypeKey) (name : String) :
    C.Relates x (runAction run type deps name .provider) (runAction run' type deps' name .provider)
      C.Acts := by
  refine (relates_provider hcalls hdeps name).bind fun m m' _ _ hm => relates_pure ⟨?_, .some hm⟩
  simp [Instantiator.outline, C.type hm]

omit hcalls in
theorem relates_produce_of (s : Satisfaction)
    (hconstruct : ∀ type r, s = .construct type →
      x.right.solver.settings.catalog.recipe? type = some r →
        C.Relates x (construct run type deps r) (construct run' type deps' r) Values)
    (hprovider : ∀ type provider r, s = .viaClass provider type →
      x.right.solver.settings.catalog.providerRecipe? provider = some r →
        C.Relates x (constructProvider run provider deps r) (constructProvider run' provider deps' r)
          fun p p' _ => p = p') :
    C.Relates x (produce run s deps) (produce run' s deps') C.Gives := by
  unfold produce
  refine .of_tied fun htied => relates_get.bind fun i j y _ h => ?_
  obtain ⟨rfl, rfl, rfl⟩ := h
  have hvalue : ∀ {z : Sides S} {t : MakingOver M Product} {u : Making Product},
      C.Relates z t u Values →
        C.Relates z (t >>= fun p => pure (some p)) (u >>= fun p => pure (some p)) C.Gives := by
    intro z t u h
    refine h.bind fun p p' _ _ hp => ?_
    obtain ⟨v, rfl, rfl⟩ := hp
    exact relates_pure (.value v)
  cases s with
  | construct type =>
    dsimp only
    rw [C.catalog htied]
    split
    · rename_i r hr
      exact hvalue (hconstruct type r rfl hr)
    · exact relates_throw _
  | existing type value => exact relates_pure (.value value)
  | viaClass provider type =>
    dsimp only
    rw [C.catalog htied]
    split
    · rename_i r hr
      refine (hprovider type provider r rfl hr).bind fun p p' _ _ hp => ?_
      subst hp
      exact hvalue (relates_ask p)
    · exact relates_throw _
  | viaProvider type provider => exact hvalue (relates_ask provider)
  | injected type target =>
    refine (relates_serve hdeps target).bind fun m m' y1 _ hm => ?_
    refine (relates_bookwork .newIdentity).bind fun n _ y2 h2 h => ?_
    subst h
    exact relates_pure (.maker n (C.makers_later hm h2))
  | null type => exact relates_pure .null

end

section

variable (hfollows : C.Follows M) (hcalls : C.Calls run run') (hdeps : C.Deps deps deps')
include hfollows hcalls hdeps

theorem relates_runAction (type : TypeKey) (s : RecipeStep) (hrequests : C.Requests M s) :
    C.Relates x (runAction run type deps s.name s.action)
      (runAction run' type deps' s.name s.action) C.Acts := by
  cases haction : s.action with
  | get form =>
    exact (relates_getDependency hcalls hdeps s.name form).bind fun p p' _ _ hp =>
      relates_pure ⟨hp.summary, .none⟩
  | require form => exact relates_runAction_require hcalls hdeps type s.name form
  | provider => exact relates_runAction_provider hcalls hdeps type s.name
  | call form =>
    exact (relates_provider hcalls hdeps s.name).bind fun m m' _ _ hm =>
      (relates_runAs hcalls hm form).bind fun p p' _ _ hp => relates_pure ⟨hp.summary, .none⟩
  | names => exact relates_pure ⟨by rw [hdeps.names], .none⟩
  | serve desire =>
    exact (relates_serve hdeps desire).bind fun m m' _ _ hm =>
      (hcalls hm).bind fun p p' _ _ hp => relates_pure ⟨hp.summary, .none⟩
  | request wanted qualifier form =>
    exact (hrequests wanted qualifier form haction _).bind fun m m' _ _ hm =>
      (relates_runAs hcalls hm form).bind fun p p' _ _ hp => relates_pure ⟨hp.summary, .none⟩
  | hook =>
    exact Relates.bind (P := fun _ _ _ => True)
      (relates_modifyGet _ _ fun htied => ⟨(hfollows.register _ htied).1,
        (hfollows.register _ htied).2, trivial⟩) fun _ _ _ _ _ => relates_pure ⟨rfl, .none⟩
  | dispose =>
    exact Relates.bind (P := fun _ _ _ => True)
      (relates_modifyGet _ _ fun htied => ⟨(hfollows.register _ htied).1,
        (hfollows.register _ htied).2, trivial⟩) fun _ _ _ _ _ => relates_pure ⟨rfl, .none⟩
  | hooks =>
    refine .of_tied fun htied => relates_get.bind fun _ _ y _ h => ?_
    obtain ⟨rfl, rfl, rfl⟩ := h
    exact relates_pure ⟨by rw [hfollows.size htied], .none⟩
  | fail => exact relates_throw _

theorem relates_runSteps (type : TypeKey) (hrequests : ∀ s ∈ steps, C.Requests M s)
    (hfound : C.Gathers found found' x) :
    C.Relates x (runSteps run type deps steps found) (runSteps run' type deps' steps found')
      C.Gathers :=
  relates_runSteps_of type
    (fun s hs _ => relates_runAction hfollows hcalls hdeps type s (hrequests s hs)) hfound

omit hcalls hdeps in
theorem relates_finish (type : TypeKey) {value : String → MakingOver M Value}
    {value' : String → Making Value} (hvalue : ∀ name, Bookwork (value name) (value' name))
    (hfound : C.Gathers found found' x) :
    C.Relates x (finish type found value) (finish type found' value') Values := by
  unfold finish
  obtain ⟨hfields, hnamed⟩ := hfound
  refine (relates_bookwork .nextSerial).bind fun serial _ y1 h1 h => ?_
  subst h
  rw [hfields]
  refine (relates_bookwork (.writeLog _)).bind fun _ _ y2 h2 _ => ?_
  refine (relates_bookwork (hvalue _)).bind fun v _ y3 h3 h => ?_
  subst h
  have hnamed := hnamed.later (C.trans h1 (C.trans h2 h3))
  refine Relates.bind (P := fun _ _ _ => True) (relates_modifyGet _ _ fun htied => ?_)
    fun _ _ _ _ _ => relates_pure ⟨v, rfl, rfl⟩
  obtain ⟨htied', hlater⟩ := hfollows.keep v.identity htied hnamed
  exact ⟨htied', hlater, trivial⟩

end

mutual

theorem relates_recipe (hfollows : C.Follows M) (hcalls : C.Calls run run')
    (hdeps : C.Deps deps deps') (type : TypeKey) :
    ∀ {r : Recipe} {found found' : Gathered} {x : Sides S}, r.All (C.Requests M) →
      C.Gathers found found' x →
      C.Relates x (r.goOn run type deps found) (r.goOn run' type deps' found') Values
  | ⟨steps, yield⟩, _, _, _, ⟨hrequests, hyield⟩, hfound => by
    rw [Recipe.goOn, Recipe.goOn]
    exact (relates_runSteps hfollows hcalls hdeps type hrequests hfound).bind
      fun _ _ _ _ hfound => relates_yield hfollows hcalls hdeps type hyield hfound

theorem relates_yield (hfollows : C.Follows M) (hcalls : C.Calls run run')
    (hdeps : C.Deps deps deps') (type : TypeKey) :
    ∀ {y : Yield} {found found' : Gathered} {x : Sides S}, y.All (C.Requests M) →
      C.Gathers found found' x →
      C.Relates x (y.goOn run type deps found) (y.goOn run' type deps' found') Values
  | .object, _, _, _, _, hfound => by
    rw [Yield.goOn, Yield.goOn]
    exact relates_finish hfollows type (fun _ => .newValue _) hfound
  | .fresh _, _, _, _, _, hfound => by
    rw [Yield.goOn, Yield.goOn]
    exact relates_finish hfollows type (fun _ => .newValue _) hfound
  | .shared _, _, _, _, _, hfound => by
    rw [Yield.goOn, Yield.goOn]
    exact relates_finish hfollows type (fun _ => .pure _) hfound
  | .further choose, _, _, _, hrequests, hfound => by
    rw [Yield.goOn, Yield.goOn, hfound.1]
    refine (relates_bookwork .newIdentity).bind fun n _ _ hlater h => ?_
    subst h
    have hlater : C.Gathers _ _ _ := ⟨hfound.1, hfound.2.later hlater⟩
    exact relates_recipe hfollows hcalls hdeps type (hrequests n _) hlater

end

section

variable (hfollows : C.Follows M) (hcalls : C.Calls run run') (hdeps : C.Deps deps deps')
include hfollows hcalls hdeps

theorem relates_construct (type : TypeKey) {r : Recipe} (hrequests : r.All (C.Requests M)) :
    C.Relates x (construct run type deps r) (construct run' type deps' r) Values :=
  relates_recipe hfollows hcalls hdeps type hrequests (gathers_nil C x)

theorem relates_constructProvider (type : TypeKey) {r : ProviderRecipe}
    (hrequests : ∀ s ∈ r.steps, C.Requests M s) :
    C.Relates x (constructProvider run type deps r) (constructProvider run' type deps' r)
      fun p p' _ => p = p' := by
  unfold constructProvider
  refine (relates_runSteps hfollows hcalls hdeps type hrequests (gathers_nil C x)).bind
    fun found found' y1 _ hfound => ?_
  rw [hfound.1]
  exact relates_bookwork (Bookwork.nextSerial.bind fun _ => (Bookwork.writeLog _).bind fun _ =>
    (Bookwork.newSupply r).bind fun _ => Bookwork.newIdentity.bind fun _ => Bookwork.pure _)

theorem relates_produce (s : Satisfaction) :
    C.Relates x (produce run s deps) (produce run' s deps') C.Gives :=
  .of_tied fun htied => relates_produce_of hdeps s
    (fun type _ _ hr =>
      relates_construct hfollows hcalls hdeps type (hfollows.recipe htied hr))
    fun _ provider _ _ hr =>
      relates_constructProvider hfollows hcalls hdeps provider (hfollows.providerRecipe htied hr)

end

end Comparison

end Wiring
