import Wiring.Rule
import Wiring.Context
import Wiring.Desire.Chain

/-!
# Errors

What can go wrong in resolving, building and configuring, each with its cause. The wording is in
`WiringError.message` and the functions it calls.
-/

namespace Wiring

inductive ConstructionFault where
  | reported (message : String)
  | noDependencyFor (desire : Desire)
  | noDependencyNamed (name : String)
  | containerDropped
  | producedNull
  | noRecipe (type : TypeKey)

def ConstructionFault.message : ConstructionFault → String
  | reported m => m
  | noDependencyFor d => "no resolved dependency for " ++ d.text
  | noDependencyNamed n => "no dependency named '" ++ n ++ "'"
  | containerDropped => "injection container has been dropped"
  | producedNull => "instantiator produced null"
  | noRecipe t => "no constructor registered for " ++ t.text

inductive Mismatch where
  /-- The instance is of a type that has another form. -/
  | isNotA (type : TypeKey) (form : Form)
  | missingDependency (name : String)

def Mismatch.message : Mismatch → String
  | isNotA t f => t.text ++ " is not a " ++ f.typeName
  | missingDependency n => "missing dependency '" ++ n ++ "'"

inductive BindingFault where
  | noTarget (dependType : TypeKey)
  | notAssignable (target dependType : TypeKey)

def BindingFault.message : BindingFault → String
  | noTarget t => "no target given for " ++ t.text
  | notAssignable s t => s.text ++ " is not assignable to " ++ t.text

inductive GraphFault where
  /-- The graph does not begin at a root node but at this component. -/
  | notRoot (component : String)
  | noRootEdge (desire : Desire)

def GraphFault.message : GraphFault → String
  | notRoot c => c ++ " is not a solver root node"
  | noRootEdge d => "resolved " ++ d.text ++ " but found no root edge"

inductive ConfigFault where
  | unknownPolicy (word : String)
  | depthNotNumber (raw : String)
  | depthZero
  | unreadable
  | reported (message : String)

def ConfigFault.message : ConfigFault → String
  | unknownPolicy w => "unknown cache policy '" ++ w ++ "'"
  | depthNotNumber raw => "max_depth must be a positive integer, got '" ++ raw ++ "'"
  | depthZero => "max_depth must be at least 1"
  | unreadable => "not a settings document"
  | reported m => m

inductive WiringError where
  | unresolvable (chain : DesireChain) (context : Context)
  | multipleBindings (chain : DesireChain) (context : Context) (rules : List Rule)
  | cyclic (desire : Desire) (satisfaction : Option Satisfaction) (maxDepth : Nat)
  | nullDependency (point : InjectionPoint)
  | construction (type : TypeKey) (fault : ConstructionFault)
  | typeMismatch (mismatch : Mismatch)
  | invalidBinding (fault : BindingFault)
  | invalidGraph (fault : GraphFault)
  | config (fault : ConfigFault)

namespace WiringError

def kind : WiringError → String
  | unresolvable .. => "Unresolvable"
  | multipleBindings .. => "MultipleBindings"
  | cyclic .. => "Cyclic"
  | nullDependency _ => "NullDependency"
  | construction .. => "Construction"
  | typeMismatch _ => "TypeMismatch"
  | invalidBinding _ => "InvalidBinding"
  | invalidGraph _ => "InvalidGraph"
  | config _ => "Config"

def message : WiringError → String
  | unresolvable chain context =>
    "unable to satisfy " ++ chain.current.text ++ " in context " ++ context.text ++ ": tried " ++
      chain.text
  | multipleBindings chain context rules =>
    toString rules.length ++ " bindings are equally applicable to " ++ chain.current.text ++
      " in context " ++ context.text
  | cyclic desire _ maxDepth =>
    "maximum context depth of " ++ toString maxDepth ++ " reached resolving " ++ desire.text ++
      "; dependencies are probably cyclic"
  | nullDependency point => "null dependency injected into non-nullable " ++ point.text
  | construction type fault => "failed to construct " ++ type.text ++ ": " ++ fault.message
  | typeMismatch mismatch => "type mismatch: " ++ mismatch.message
  | invalidBinding fault => "invalid binding: " ++ fault.message
  | invalidGraph fault => "invalid graph: " ++ fault.message
  | config fault => "configuration error: " ++ fault.message

/-- Whether the error arose in resolving, not in building instances. -/
def isResolutionError : WiringError → Bool
  | unresolvable .. | multipleBindings .. | cyclic .. => true
  | _ => false

end WiringError

abbrev Attempt := Except WiringError

theorem eq_ok_of_toOption {α : Type} {a : Attempt α} {x : α} (h : a.toOption = some x) :
    a = .ok x := by
  cases a with
  | error e => cases h
  | ok y =>
    cases h
    rfl

end Wiring
