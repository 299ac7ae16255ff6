import Wiring.Proofs.Catalog.Freezing
import Wiring.Proofs.Injector.Following

/-!
# Constructions on record

What is constructed is put on record: which instance it was, how its disposer is called, and which
constructed instances its recipe took. To keep the record is one of the things that making instances
may do besides, so what is recorded runs as it does otherwise.
-/

namespace Wiring

open Making

/-! ## Recipes that dispose -/

/-- The step takes what is injected at a point: an instance, or a maker to be kept. -/
def Action.takes : Action → Bool
  | .require _ | .provider => true
  | _ => false

def Action.disposes : Action → Bool
  | .dispose => true
  | _ => false

structure Disposing (steps : List RecipeStep) : Prop where
  takes : ∀ s ∈ steps.dropLast, s.action.takes = true
  disposes : steps.getLast?.any (·.action.disposes) = true

def disposerName (steps : List RecipeStep) : String := (steps.getLast?.map (·.name)).getD ""

theorem Disposing.split {steps : List RecipeStep} (h : Disposing steps) :
    ∃ takes tolerant, steps = takes ++ [⟨disposerName steps, .dispose, tolerant⟩] ∧
      ∀ s ∈ takes, s.action.takes = true := by
  obtain ⟨⟨name, action, tolerant⟩, hlast, hdisposes⟩ := (Option.any_eq_true _ _).1 h.disposes
  refine ⟨steps.dropLast, tolerant, ?_, h.takes⟩
  have hname : disposerName steps = name := by simp [disposerName, hlast]
  cases action with
  | dispose =>
    rw [hname]
    exact (List.dropLast_append_getLast? _ hlast).symm
  | _ => cases hdisposes

def Yield.isNew : Yield → Bool
  | .object | .fresh _ => true
  | .shared _ | .further _ => false

/-- The recipes of all classes take dependencies, register one disposer, and give something new. -/
structure Catalog.Disposes (c : Catalog) : Prop where
  recipe : ∀ t r, c.recipe? t = some r → r.yield.isNew = true ∧ Disposing r.steps
  providerRecipe : ∀ t r, c.providerRecipe? t = some r → Disposing r.steps

theorem Catalog.disposes_of_types {c : Catalog}
    (h : ∀ i ∈ c.types, (∀ r ∈ i.recipe, r.yield.isNew = true ∧
        (∀ s ∈ r.steps.dropLast, s.action.takes = true) ∧
          r.steps.getLast?.any (·.action.disposes) = true) ∧
      ∀ r ∈ i.providerRecipe, (∀ s ∈ r.steps.dropLast, s.action.takes = true) ∧
        r.steps.getLast?.any (·.action.disposes) = true) : c.Disposes where
  recipe t r hr := by
    obtain ⟨i, hi, hr⟩ := exists_info_of_recipe hr
    obtain ⟨hnew, htakes, hlast⟩ := (h i hi).1 r hr
    exact ⟨hnew, htakes, hlast⟩
  providerRecipe t r hr := by
    obtain ⟨i, hi, hr⟩ := exists_info_of_providerRecipe hr
    obtain ⟨htakes, hlast⟩ := (h i hi).2 r hr
    exact ⟨htakes, hlast⟩

/-! ## The record -/

structure Construction where
  identity : Identity
  disposer : String
  /-- The constructed instances that were taken for it. -/
  parts : List Identity

/-- The constructions in the order in which they ended, and what was taken since the innermost one
began that has not ended. -/
structure Ledger where
  built : List Construction := []
  parts : List Identity := []

/-- Making instances while constructions are put on record. -/
abbrev Recorded := MakingOver (StateT Ledger Option)

namespace Recorded

def change {α : Type} (f : Ledger → α × Ledger) : Recorded α :=
  ExceptT.lift (StateT.lift (modifyGet f))

def take (p : Option Product) : Recorded Unit :=
  change fun l => ((), { l with parts := l.parts ++ (p.map (·.identity)).toList })

/-- What ends well is put on record as a construction, with the parts that were taken meanwhile. -/
def enter {α : Type} (disposer : String) (identity : α → Identity) (t : Recorded α) :
    Recorded α := do
  let outside ← change fun l => (l.parts, { l with parts := [] })
  let outcome ← attempt t
  change fun l =>
    match outcome with
    | .ok a => ((), ⟨l.built ++ [⟨identity a, disposer, l.parts⟩], outside⟩)
    | .error _ => ((), { l with parts := outside })
  outcome

end Recorded

open Recorded

def recordProduce (run : Instantiator → Recorded (Option Product)) (s : Satisfaction)
    (deps : Dependencies) : Recorded (Option Product) :=
  match s with
  | .construct type => do
    match (← get).solver.settings.catalog.recipe? type with
    | some r =>
      return some (← enter (disposerName r.steps) (·.identity) (construct run type deps r))
    | none => throw (.construction s.type (.noRecipe type))
  | .viaClass provider _ => do
    match (← get).solver.settings.catalog.providerRecipe? provider with
    | some r =>
      return some (← ask (← enter (disposerName r.steps) (·.identity)
        (constructProvider run provider deps r)))
    | none => throw (.construction s.type (.noRecipe provider))
  | _ => produce run s deps

def Source.constructs : Source → Bool
  | .satisfaction (.construct _) _ => true
  | .memoized _ source => source.constructs
  | _ => false

namespace Instantiator

/-- Runs a maker, as `runWithin` does, and keeps the record. -/
def recordWithin : (depth : Nat) → Instantiator → Recorded (Option Product)
  | 0, _ => endless
  | depth + 1, m => do
    let p ← runSource (recordProduce (recordWithin depth)) m.type m.source
    if m.source.constructs then take p
    return p

def record (m : Instantiator) : Recorded (Option Product) := m.recordWithin nestingBound

end Instantiator

def recordInstance (type : TypeKey) (qualifier : Option Qualifier) (form : Form) :
    Recorded (Option Product) := do
  runAs Instantiator.record (← requestRoot type qualifier) (some form)

def Ledger.after (l : Ledger) (i : Injector) (type : TypeKey) (qualifier : Option Qualifier)
    (form : Form) : Ledger :=
  match ((recordInstance type qualifier form).run.run i).run l with
  | some (_, l') => l'
  | none => l

/-! ## What is on record -/

namespace Ledger

variable {l l' : Ledger} {n : Identity}

def Holds (l : Ledger) (n : Identity) : Prop := ∃ x ∈ l.built, x.identity = n

def hooks (l : Ledger) : List Hook := l.built.reverse.map (.disposer ·.disposer)

theorem Holds.mono (h : l.Holds n) (hl : l.built <+: l'.built) : l'.Holds n := by
  obtain ⟨x, hx, rfl⟩ := h
  exact ⟨x, hl.subset hx, rfl⟩

end Ledger

/-- Every instance is another one than those before it, and its parts were constructed before. -/
inductive InOrder : List Construction → Prop
  | nil : InOrder []
  | next {built : List Construction} {x : Construction} : InOrder built →
      (∀ z ∈ built, z.identity ≠ x.identity) →
      (∀ y ∈ x.parts, ∃ z ∈ built, z.identity = y) → InOrder (built ++ [x])

namespace InOrder

variable {built before after : List Construction} {x : Construction}

theorem nodup (h : InOrder built) : (built.map (·.identity)).Nodup := by
  induction h with
  | nil => exact .nil
  | @next built x _ hnew _ ih =>
    rw [List.map_append, List.map_singleton]
    refine List.nodup_append.2 ⟨ih, List.pairwise_singleton _ _, fun a ha b hb hab => ?_⟩
    obtain ⟨z, hz, rfl⟩ := List.mem_map.1 ha
    exact hnew z hz (hab.trans (List.mem_singleton.1 hb))

theorem parts_after (h : InOrder built) (hsplit : built.reverse = before ++ x :: after)
    {y : Identity} (hy : y ∈ x.parts) : ∃ z ∈ after, z.identity = y := by
  induction h generalizing before with
  | nil => simp at hsplit
  | @next built w _ _ hparts ih =>
    rw [List.reverse_append, List.reverse_singleton] at hsplit
    cases before with
    | nil =>
      obtain ⟨rfl, rfl⟩ := List.cons.inj hsplit
      obtain ⟨z, hz, hzy⟩ := hparts y hy
      exact ⟨z, List.mem_reverse.2 hz, hzy⟩
    | cons v before => exact ih (List.cons.inj hsplit).2

end InOrder

end Wiring
