import Wiring.Container
import Wiring.Journal.Metrics
import Wiring.Solver

/-!
# Injectors

An injector joins a solver and a container. A root is resolved when it is first requested; later
requests find its node in the solver's graph. Running the makers of nodes follows the recipes of
their classes, which may take their dependencies and even request further roots.
-/

namespace Wiring

/-- An injector with all that running recipes leaves behind. -/
structure Injector where
  solver : Solver
  container : Container
  nextTag : Nat
  metrics : Metrics := {}
  serial : Nat := 0
  made : Nat := 0
  /-- The number of outcomes that sequences have given. -/
  given : Nat := 0
  counters : List (Identity × UInt64) := []
  kept : List (Identity × List (String × Instantiator)) := []
  log : List String := []

/-- Making instances may fail. What it may do besides is up to `M`. -/
abbrev MakingOver (M : Type → Type) := ExceptT WiringError (StateT Injector M)

/-- Making instances may not come to an end. -/
abbrev Making := MakingOver Option

variable {M : Type → Type} [Monad M]

namespace Making

/-- Running a recipe again while it is running, or running ever more recipes inside each other, does
not come to an end. -/
def endless [MonadLiftT Option M] {α : Type} : MakingOver M α :=
  ExceptT.lift (StateT.lift (liftM (none : Option α)))

def writeLog (line : String) : MakingOver M Unit :=
  modify fun i => { i with log := i.log ++ [line] }

def newIdentity : MakingOver M Identity :=
  modifyGet fun i => (.made i.made, { i with made := i.made + 1 })

def nextSerial : MakingOver M Nat :=
  modifyGet fun i => (i.serial + 1, { i with serial := i.serial + 1 })

def changeContainer {α : Type} (f : Container → α × Container) : MakingOver M α :=
  modifyGet fun i => let (a, container) := f i.container; (a, { i with container })

def register (h : Hook) : MakingOver M Unit :=
  changeContainer fun c => ((), { c with lifecycle := c.lifecycle.register h })

def newValue (d : Datum) : MakingOver M Value := return ⟨← newIdentity, d⟩

def count (provider : Identity) (start : UInt64) : MakingOver M UInt64 :=
  modifyGet fun i =>
    let n := (i.counters.lookup provider).getD start
    (n, { i with counters := (provider, n + 1) :: i.counters })

def nextOutcome (outcomes : List (Except String (Option Value))) :
    MakingOver M (Option (Except String (Option Value))) :=
  modifyGet fun i => (outcomes[i.given % outcomes.length]?, { i with given := i.given + 1 })

def attempt {α : Type} (m : MakingOver M α) : MakingOver M (Attempt α) := ExceptT.lift m.run

end Making

open Making

def Product.inForm (p : Product) (type : TypeKey) (form : Form) : Attempt Product :=
  if p.hasForm form then .ok p else .error (.typeMismatch (.isNotA type form))

namespace Dependencies

def find? (deps : Dependencies) (p : Desire → Bool) : Option (Dependency × Graph) :=
  deps.edges.find? fun e => p e.1.initial

/-- The maker of a node, if the container is still there; the error names `type`. -/
def maker (deps : Dependencies) (type : TypeKey) (node : Graph) : MakingOver M Instantiator := do
  if (← get).container.dropped then throw (.construction type .containerDropped)
  changeContainer (·.makerFor node deps.backEdges)

def serve (deps : Dependencies) (d : Desire) : MakingOver M Instantiator := do
  match deps.find? (· == d) with
  | none => throw (.construction d.type (.noDependencyFor d))
  | some (_, node) => deps.maker d.type node

/-- The instance injected at a point. Null is given back where the point allows it. -/
def get (deps : Dependencies) (run : Instantiator → MakingOver M (Option Product))
    (name : String) (form : Form) : MakingOver M (Option Product) := do
  match deps.find? (·.point.name == name) with
  | none => throw (.construction (.named form.typeName) (.noDependencyNamed name))
  | some (dep, node) =>
    let point := dep.initial.point
    let m ← deps.maker point.type node
    match ← run m with
    | some p => return some (← p.inForm node.label.satisfaction.type form)
    | none => if point.nullable then return none else throw (.nullDependency point)

/-- The instance injected at a point, where null is an error. -/
def require (deps : Dependencies) (run : Instantiator → MakingOver M (Option Product))
    (name : String) (form : Form) : MakingOver M Product := do
  match ← deps.get run name form with
  | some p => return p
  | none =>
    match deps.find? (·.point.name == name) with
    | some (dep, _) => throw (.nullDependency dep.initial.point)
    | none => throw (.typeMismatch (.missingDependency name))

def provider (deps : Dependencies) (run : Instantiator → MakingOver M (Option Product))
    (name : String) : MakingOver M Instantiator := do
  match ← deps.require run name .maker with
  | .maker _ m => return m
  | .value _ => throw (.typeMismatch (.isNotA (.named name) .maker))

def names (deps : Dependencies) : List String := deps.edges.map (·.1.initial.point.name)

end Dependencies

/-- Runs a maker in a form, where null is an error, or as it comes. -/
def runAs (run : Instantiator → MakingOver M (Option Product)) (m : Instantiator)
    (form : Option Form) : MakingOver M (Option Product) := do
  match form with
  | none => run m
  | some form =>
    match ← run m with
    | some p => return some (← p.inForm m.type form)
    | none => throw (.construction m.type .producedNull)

def resolveRoot (d : Desire) : MakingOver M Unit := do
  let result : Attempt Unit ← modifyGet fun i =>
    let (called, nextTag) := (i.solver.resolve d).run i.nextTag
    (called.result,
      { i with solver := called.solver, nextTag, metrics := i.metrics.addAll called.events })
  result

def rootMaker (d : Desire) : MakingOver M Instantiator := do
  let i ← get
  match i.solver.rootNode? d with
  | none => throw (.invalidGraph (.noRootEdge d))
  | some node => changeContainer (·.makerFor node i.solver.backEdges)

def requestRoot (type : TypeKey) (qualifier : Option Qualifier) : MakingOver M Instantiator := do
  let i ← get
  let desire := i.solver.settings.catalog.rootDesire type qualifier
  if (i.solver.rootNode? desire).isNone then resolveRoot desire
  rootMaker desire

/-! ## Recipes -/

structure Gathered where
  fields : List String := []
  makers : List (String × Instantiator) := []

def runAction (run : Instantiator → MakingOver M (Option Product)) (type : TypeKey)
    (deps : Dependencies) (name : String) : Action → MakingOver M (String × Option Instantiator)
  | .get form => return (productSummary (← deps.get run name form), none)
  | .require form => return ((← deps.require run name form).summary, none)
  | .provider => do
    let m ← deps.provider run name
    return (m.outline, some m)
  | .call form => do
    let m ← deps.provider run name
    return (productSummary (← runAs run m form), none)
  | .names => return ("|".intercalate deps.names, none)
  | .serve desire => do
    let m ← deps.serve desire
    return (productSummary (← run m), none)
  | .request wanted qualifier form => do
    let m ← requestRoot wanted qualifier
    return (productSummary (← runAs run m form), none)
  | .hook => do
    register (.plain name)
    return ("hook", none)
  | .dispose => do
    register (.disposer name)
    return ("dispose", none)
  | .hooks => return (toString (← get).container.lifecycle.size, none)
  | .fail => throw (.construction type (.reported name))

/-- Runs the steps in order. A tolerant step that fails leaves its error as its text. -/
def runSteps (run : Instantiator → MakingOver M (Option Product)) (type : TypeKey)
    (deps : Dependencies) : List RecipeStep → Gathered → MakingOver M Gathered
  | [], g => return g
  | s :: rest, g => do
    match ← attempt (runAction run type deps s.name s.action) with
    | .ok (text, maker) =>
      runSteps run type deps rest
        ⟨g.fields ++ [s.name ++ "=" ++ text], g.makers ++ (maker.map (s.name, ·)).toList⟩
    | .error e =>
      if s.tolerant then
        runSteps run type deps rest
          { g with fields := g.fields ++ [s.name ++ "!" ++ e.kind ++ ": " ++ e.message] }
      else throw e

def serialName (type : String) (serial : Nat) : String := type ++ "#" ++ toString serial

/-- Reports a new instance, whose value may need its name, and keeps its makers. -/
def finish (type : TypeKey) (g : Gathered) (value : String → MakingOver M Value) :
    MakingOver M Product := do
  let name := serialName type.text (← nextSerial)
  writeLog ("new " ++ name ++ "(" ++ ", ".intercalate g.fields ++ ")")
  let v ← value name
  modify fun i => { i with kept := (v.identity, g.makers) :: i.kept }
  return .value v

mutual

/-- Runs a recipe, where this was gathered before. -/
def Recipe.goOn (run : Instantiator → MakingOver M (Option Product)) (type : TypeKey)
    (deps : Dependencies) : Recipe → Gathered → MakingOver M Product
  | ⟨steps, yield⟩, g => do yield.goOn run type deps (← runSteps run type deps steps g)

def Yield.goOn (run : Instantiator → MakingOver M (Option Product)) (type : TypeKey)
    (deps : Dependencies) : Yield → Gathered → MakingOver M Product
  | .object, g => finish type g fun name => newValue (.object name)
  | .fresh datum, g => finish type g fun _ => newValue datum
  | .shared value, g => finish type g fun _ => return value
  | .further choose, g => do (choose (← newIdentity) g.fields).goOn run type deps g

end

def construct (run : Instantiator → MakingOver M (Option Product)) (type : TypeKey)
    (deps : Dependencies) (r : Recipe) : MakingOver M Product := r.goOn run type deps {}

def ask (p : Provider) : MakingOver M Product := do
  match p.supply with
  | .counter start => return .value (← newValue (.number (← count p.identity start)))
  | .constant value => return .value value
  | .fresh name => return .value (← newValue (.object (serialName name (← nextSerial))))
  | .failing message => throw (.construction (.named "provider") (.reported message))

def ProviderRecipe.newSupply (r : ProviderRecipe) : MakingOver M Supply := do
  match r.supply with
  | .constant value =>
    if r.renews then return .constant (← newValue value.datum) else return .constant value
  | other => return other

def constructProvider (run : Instantiator → MakingOver M (Option Product)) (type : TypeKey)
    (deps : Dependencies) (r : ProviderRecipe) : MakingOver M Provider := do
  let g ← runSteps run type deps r.steps {}
  let name := serialName type.text (← nextSerial)
  writeLog ("provider " ++ name ++ "(" ++ ", ".intercalate g.fields ++ ")")
  let supply ← r.newSupply
  return ⟨← newIdentity, supply⟩

def produce (run : Instantiator → MakingOver M (Option Product)) (s : Satisfaction)
    (deps : Dependencies) :
    MakingOver M (Option Product) := do
  let catalog := (← get).solver.settings.catalog
  match s with
  | .construct type =>
    match catalog.recipe? type with
    | some r => return some (← construct run type deps r)
    | none => throw (.construction s.type (.noRecipe type))
  | .existing _ value => return some (.value value)
  | .viaClass provider _ =>
    match catalog.providerRecipe? provider with
    | some r => return some (← ask (← constructProvider run provider deps r))
    | none => throw (.construction s.type (.noRecipe provider))
  | .viaProvider _ provider => return some (← ask provider)
  | .injected _ target => do
    let m ← deps.serve target
    return some (.maker (← newIdentity) m)
  | .null _ => return none

/-- Runs a source of instances of a type. What a satisfaction comes to is up to `recipe`. -/
def runSource [MonadLiftT Option M]
    (recipe : Satisfaction → Dependencies → MakingOver M (Option Product)) (type : TypeKey) :
    Source → MakingOver M (Option Product)
  | .satisfaction s deps => recipe s deps
  | .sequence outcomes => do
    match ← nextOutcome outcomes with
    | some (.ok value) => return value.map .value
    | some (.error message) => throw (.construction type (.reported message))
    | none => endless
  | .memoized cell inner => do
    match (← get).container.cell? cell with
    | some (.done outcome) => outcome
    | some .running => endless
    | none =>
      changeContainer fun c => ((), c.setCell cell .running)
      let outcome ← attempt (runSource recipe type inner)
      changeContainer fun c => ((), c.setCell cell (.done outcome))
      outcome

/-- Runs a maker, where recipes run inside each other at most `depth` deep. -/
def Instantiator.runWithin : (depth : Nat) → Instantiator → Making (Option Product)
  | 0, _ => endless
  | depth + 1, m => runSource (produce (runWithin depth)) m.type m.source

def nestingBound : Nat := 1000000

def Instantiator.run (m : Instantiator) : Making (Option Product) := m.runWithin nestingBound

def Instantiator.runAs (m : Instantiator) (form : Option Form) : Making (Option Product) :=
  Wiring.runAs Instantiator.run m form

namespace Injector

def ofSettings (s : Settings) (containerPolicy : CachePolicy)
    (orders : Nat → BackEdges.Order := fun _ => .added) : Injector :=
  let (solver, nextTag) := (Solver.ofSettings s orders).run 0
  { solver, nextTag, container := { policy := containerPolicy } }

def rootInstance (type : TypeKey) (qualifier : Option Qualifier) (form : Form) :
    Making (Option Product) := do
  (← requestRoot type qualifier).runAs (some form)

/-- The maker that an instance keeps under a name; an instance that is a maker needs no name. -/
def keptMaker? (i : Injector) (p : Product) (name : Option String) : Option Instantiator :=
  match p, name with
  | .maker _ m, _ => some m
  | .value v, some name => (i.kept.lookup v.identity).bind (·.lookup name)
  | .value _, none => none

def close : Making Unit := do
  for line in ← changeContainer (·.close) do
    writeLog line

def drop (i : Injector) : Injector := { i with container := { i.container with dropped := true } }

def outline (i : Injector) : String :=
  Text.recordOutline "Injector"
    [("types", toString i.solver.settings.catalog.size), ("container", i.container.outline)]

end Injector

end Wiring
