import Wiring.CachePolicy
import Wiring.Desire.Chain
import Wiring.Dag

/-!
# Components and dependencies

The labels of a dependency graph: a node is a satisfaction with its cache policy, an edge is the
chain of desires that led to it.
-/

namespace Wiring

structure Component where
  satisfaction : Satisfaction
  policy : CachePolicy
deriving BEq

namespace Component

instance : Hashable Component := ⟨fun c => Digest.mix (hash c.satisfaction) (hash c.policy)⟩

def root : Component := ⟨.null .root, .noPreference⟩

def isRoot (c : Component) : Bool :=
  match c.satisfaction with
  | .null .root => true
  | _ => false

def text (c : Component) : String :=
  if c.isRoot then "<root>" else c.satisfaction.text ++ c.policy.trail

instance : ReflBEq Component where
  rfl {c} := by
    show instBEqComponent.beq c c = true
    simp [instBEqComponent.beq]

end Component

structure Dependency where
  chain : DesireChain
  /-- Whether the edge is exempt from revisions. -/
  fixed : Bool
deriving BEq

namespace Dependency

instance : Hashable Dependency := ⟨fun d => Digest.mix (hash d.chain) d.fixed.toUInt64⟩

def initial (d : Dependency) : Desire := d.chain.initial

def text (d : Dependency) : String :=
  d.initial.point.text ++ if d.fixed then " (fixed)" else ""

def outline (d : Dependency) : String :=
  Text.recordOutline "Dependency" [("chain", d.chain.outline), ("fixed", Text.boolText d.fixed)]

instance : ReflBEq Dependency where
  rfl {d} := by
    show instBEqDependency.beq d d = true
    simp [instBEqDependency.beq]

end Dependency

abbrev Graph := Dag Component Dependency

namespace Graph

def resolved? (g : Graph) (d : Desire) : Option Graph :=
  (g.outgoing? fun dep => dep.initial == d).map (·.tail)

def injected? (g : Graph) (point : String) : Option Graph :=
  (g.outgoing? fun dep => dep.initial.point.name == point).map (·.tail)

def along? (g : Graph) (path : List String) : Option Graph := path.foldlM injected? g

end Graph

abbrev GraphEdge := Dag.Edge Component Dependency

end Wiring
