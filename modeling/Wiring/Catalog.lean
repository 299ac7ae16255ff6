import Wiring.Recipe
import Wiring.CachePolicy
import Wiring.Desire

/-!
# The catalog

Everything known about the types that can be wired. Types and qualifier kinds are declared in any
order; freezing keeps the last declaration of each and works out the desires of every type.
-/

namespace Wiring

/-- Defaults of a type or of a qualifier kind. The first one given counts, in the order of the
fields. -/
structure Defaults where
  implementation : Option TypeKey := none
  provider : Option TypeKey := none
  value : Option Value := none

namespace Defaults

def isEmpty (d : Defaults) : Bool :=
  d.implementation.isNone && d.provider.isNone && d.value.isNone

def outline (d : Defaults) : String :=
  Text.recordOutline "Defaults"
    [("implementation", Text.optionOutline (d.implementation.map (·.text))),
     ("provider", Text.optionOutline (d.provider.map (·.text))),
     ("instance", Text.optionOutline (d.value.map fun _ => "\"<instance>\""))]

end Defaults

structure TypeSpec where
  key : TypeKey
  /-- A class can be instantiated, an interface cannot. -/
  instantiable : Bool
  supertypes : List TypeKey := []
  points : List InjectionPoint := []
  defaults : Defaults := {}
  policy : CachePolicy := .noPreference
  recipe : Option Recipe := none
  providerRecipe : Option ProviderRecipe := none

structure QualifierSpec where
  kind : String
  defaults : Defaults

structure TypeInfo where
  key : TypeKey
  supertypes : List TypeKey
  instantiable : Bool
  dependencies : List Desire
  defaults : Defaults
  policy : CachePolicy
  recipe : Option Recipe
  providerRecipe : Option ProviderRecipe

def TypeInfo.outline (i : TypeInfo) : String :=
  Text.recordOutline "TypeInfo"
    [("key", i.key.text),
     ("supertypes", Text.listOutline (i.supertypes.map (·.text))),
     ("instantiable", Text.boolText i.instantiable),
     ("dependencies", Text.listOutline (i.dependencies.map (·.text))),
     ("defaults", i.defaults.outline),
     ("cache_policy", i.policy.outline)]

structure Catalog where
  types : List TypeInfo
  qualifiers : List (String × Defaults)

namespace Catalog

/-! ## Look-up -/

def info? (c : Catalog) (t : TypeKey) : Option TypeInfo := c.types.find? (·.key == t)

def contains (c : Catalog) (t : TypeKey) : Bool := (c.info? t).isSome

def size (c : Catalog) : Nat := c.types.length

def isInstantiable (c : Catalog) (t : TypeKey) : Bool := (c.info? t).any (·.instantiable)

def classSatisfaction? (c : Catalog) (t : TypeKey) : Option Satisfaction :=
  if c.isInstantiable t then some (.construct t) else none

def desire (c : Catalog) (p : InjectionPoint) : Desire := ⟨p, p.type, c.classSatisfaction? p.type⟩

def rootDesire (c : Catalog) (t : TypeKey) (q : Option Qualifier) : Desire := c.desire (.ofRoot t q)

def dependencies (c : Catalog) (t : TypeKey) : List Desire :=
  ((c.info? t).map (·.dependencies)).getD []

def policy (c : Catalog) (t : TypeKey) : CachePolicy :=
  ((c.info? t).map (·.policy)).getD .noPreference

def recipe? (c : Catalog) (t : TypeKey) : Option Recipe := (c.info? t).bind (·.recipe)

def providerRecipe? (c : Catalog) (t : TypeKey) : Option ProviderRecipe :=
  (c.info? t).bind (·.providerRecipe)

def typeDefaults? (c : Catalog) (t : TypeKey) : Option Defaults := (c.info? t).map (·.defaults)

def qualifierDefaults? (c : Catalog) (kind : String) : Option Defaults := c.qualifiers.lookup kind

def outline (c : Catalog) : String :=
  Text.recordOutline "TypeCatalog"
    [("types", "\"" ++ toString c.types.length ++ " types\""),
     ("qualifiers", "\"" ++ toString c.qualifiers.length ++ " qualifier kinds\"")]

/-! ## Freezing -/

def latestBy {α β : Type} [BEq β] (key : α → β) : List α → List α
  | [] => []
  | a :: rest => if rest.any (key · == key a) then latestBy key rest else a :: latestBy key rest

def declared (s : TypeSpec) : TypeInfo where
  key := s.key
  supertypes := s.supertypes
  instantiable := s.instantiable
  dependencies := []
  defaults := s.defaults
  policy := s.policy
  recipe := s.recipe
  providerRecipe := s.providerRecipe

/-- The desires of a type are worked out when all types are known, so a type may need one that is
declared after it. -/
def freeze (types : List TypeSpec) (qualifiers : List QualifierSpec) : Catalog :=
  let specs := latestBy (·.key) types
  let kinds := (latestBy (·.kind) qualifiers).map fun q => (q.kind, q.defaults)
  let known : Catalog := ⟨specs.map declared, kinds⟩
  ⟨specs.map fun s => { declared s with dependencies := s.points.map known.desire }, kinds⟩

end Catalog

/-! ## Narrowing and needs -/

/-- The desire narrowed to a type; it can be instantiated iff the type is a class. -/
def Desire.restrictType (c : Catalog) (d : Desire) (t : TypeKey) : Desire :=
  ⟨d.point, t, c.classSatisfaction? t⟩

namespace Satisfaction

def dependencies (c : Catalog) : Satisfaction → List Desire
  | construct t => c.dependencies t
  | viaClass p _ => c.dependencies p
  | injected _ d => [d]
  | existing _ _ | viaProvider _ _ | null _ => []

def policy (c : Catalog) : Satisfaction → CachePolicy
  | construct t => c.policy t
  | viaClass p _ => c.policy p
  | _ => .noPreference

end Satisfaction

end Wiring
