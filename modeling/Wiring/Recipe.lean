import Wiring.Desire

/-!
# Recipes

How a class makes an instance: a list of steps that use the injected dependencies, and what comes
out in the end. A recipe may also go on with another one, which depends in any way on the occasion
and on what the steps came to, so this is what any constructor may do with what it is given.
-/

namespace Wiring

inductive Form where
  /-- An object of the type with this name. -/
  | object (typeName : String := "driver::Obj")
  | number
  | text
  /-- A maker of further instances, which is what a provider dependency injects. -/
  | maker
deriving DecidableEq

def Form.typeName : Form → String
  | .object typeName => typeName
  | .number => "u64"
  | .text => "alloc::string::String"
  | .maker => "ferrous_resolver::container::Instantiator"

inductive Action where
  /-- Take the dependency injected at the point with the step's name; null may be accepted. -/
  | get (form : Form)
  /-- Take that dependency, which must not be null. -/
  | require (form : Form)
  | provider
  /-- Run the maker injected at that point, in a form or as it comes. -/
  | call (form : Option Form)
  | names
  | serve (desire : Desire)
  | request (type : TypeKey) (qualifier : Option Qualifier) (form : Option Form)
  /-- Register a hook with the step's name. -/
  | hook
  /-- Register a disposer with the step's name. -/
  | dispose
  | hooks
  | fail

structure RecipeStep where
  name : String
  action : Action
  /-- Whether the recipe goes on after an error in this step. -/
  tolerant : Bool

mutual

inductive Yield where
  /-- A new object named after the class and a serial number. -/
  | object
  | fresh (datum : Datum)
  | shared (value : Value)
  /-- What another recipe gives. It is chosen by what the steps so far came to, and the occasion is
  told by an identity of its own. -/
  | further (choose : Identity → List String → Recipe)

structure Recipe where
  steps : List RecipeStep
  yield : Yield

end

/-- The recipe of a provider class gives a provider, which then supplies the instance. -/
structure ProviderRecipe where
  steps : List RecipeStep
  supply : Supply
  /-- Whether each provider gets a constant value of its own. -/
  renews : Bool

end Wiring
