import Wiring.BackEdges
import Wiring.Error
import Wiring.Lifecycle
import Wiring.Recipe

/-!
# Containers

A container turns the nodes of a graph into makers of instances. It keeps one maker for each node
and, where the policy asks for it, the first outcome of a maker.
-/

namespace Wiring

/-- What a class is given for its recipe: the edges of its node and where back-edges lead. -/
structure Dependencies where
  edges : List (Dependency × Graph)
  backEdges : BackEdges

inductive Source where
  | satisfaction (satisfaction : Satisfaction) (dependencies : Dependencies)
  /-- From the first run of another source; the outcome is kept in a cell. -/
  | memoized (cell : Nat) (source : Source)
  /-- From a list of outcomes, over and over: an instance or null, or a failure. -/
  | sequence (outcomes : List (Except String (Option Value)))

structure Instantiator where
  type : TypeKey
  source : Source

def Instantiator.outline (m : Instantiator) : String := "Instantiator(" ++ m.type.text ++ ")"

/-- An instance: a value, or a maker that was injected. -/
inductive Product where
  | value (value : Value)
  | maker (identity : Identity) (maker : Instantiator)

namespace Product

def identity : Product → Identity
  | value v => v.identity
  | maker i _ => i

def summary : Product → String
  | value v => v.datum.summary
  | maker _ m => "provider:" ++ m.type.text

def hasForm : Product → Form → Bool
  | value ⟨_, .object _⟩, .object _ => true
  | value ⟨_, .number _⟩, .number => true
  | value ⟨_, .text _⟩, .text => true
  | maker _ _, .maker => true
  | _, _ => false

end Product

def productSummary (p : Option Product) : String := (p.map (·.summary)).getD "null"

abbrev Outcome := Attempt (Option Product)

/-- What is known of a source that runs once. -/
inductive Cell where
  | running
  | done (outcome : Outcome)

structure Container where
  policy : CachePolicy
  cache : List (Graph × Instantiator) := []
  cells : List (Nat × Cell) := []
  nextCell : Nat := 0
  lifecycle : Lifecycle := .empty
  /-- Whether the container is gone, so that dependencies can no longer be reached through it. -/
  dropped : Bool := false

namespace Container

def maker? (c : Container) (node : Graph) : Option Instantiator :=
  (c.cache.find? fun e => e.1 == node).map (·.2)

def cell? (c : Container) (cell : Nat) : Option Cell := c.cells.lookup cell

def setCell (c : Container) (cell : Nat) (state : Cell) : Container :=
  { c with cells := (cell, state) :: c.cells }

def memoize (c : Container) (m : Instantiator) : Instantiator × Container :=
  (⟨m.type, .memoized c.nextCell m.source⟩, { c with nextCell := c.nextCell + 1 })

/-- The maker of a node that was not met before. What the node's class is given is fixed now, with
the back-edges there are now. -/
def newMaker (c : Container) (node : Graph) (backEdges : BackEdges) : Instantiator × Container :=
  let s := node.label.satisfaction
  let m : Instantiator :=
    ⟨s.type, .satisfaction s
      ⟨node.edges ++ (backEdges.edgesOf node).map fun e => (e.label, e.tail), backEdges⟩⟩
  if node.label.policy.or c.policy = .memoize then c.memoize m else (m, c)

def makerFor (c : Container) (node : Graph) (backEdges : BackEdges) : Instantiator × Container :=
  match c.maker? node with
  | some m => (m, c)
  | none =>
    let (m, c) := c.newMaker node backEdges
    (m, { c with cache := c.cache ++ [(node, m)] })

def close (c : Container) : List String × Container :=
  let (lines, lifecycle) := c.lifecycle.close
  (lines, { c with lifecycle, cache := [] })

def outline (c : Container) : String :=
  Text.recordOutline "InjectionContainer"
    [("default_policy", c.policy.outline), ("cached", toString c.cache.length)]

end Container

end Wiring
