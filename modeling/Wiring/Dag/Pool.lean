import Wiring.Dag.Search
import Wiring.Dag.Memo

/-!
# Merge pools

A pool holds one node of each structure it has met, the first. Merging a graph builds it over the
nodes of the pool, so equal parts of all merged graphs become one node.
-/

namespace Wiring.Dag

variable {V E : Type} [BEq V] [ReflBEq V] [Hashable V] [BEq E] [ReflBEq E] [Hashable E]

/-- The canonical nodes, the oldest first. -/
structure Pool (V E : Type) where
  nodes : List (Dag V E)

namespace Pool

def empty : Pool V E := ⟨[]⟩

def size (p : Pool V E) : Nat := p.nodes.length

def contains (p : Pool V E) (d : Dag V E) : Bool := p.nodes.contains d

def canonical? (p : Pool V E) (d : Dag V E) : Option (Dag V E) := p.nodes.find? (· == d)

def intern (p : Pool V E) (d : Dag V E) : Dag V E × Pool V E :=
  match p.canonical? d with
  | some found => (found, p)
  | none => (d, ⟨p.nodes ++ [d]⟩)

/-- Merges one node, when the nodes it leads to have been merged. -/
def mergeNode (p : Pool V E) (memo : Memo V E) (d : Dag V E) : Fresh (Pool V E × Memo V E) := do
  let edges := d.edges.map fun e => (e.1, memo.imageOf e.2)
  let moved := d.edges.any fun e => !(memo.imageOf e.2).identical e.2
  let candidate ← if moved then ((Draft.ofLabel d.label).addEdges edges).build else pure d
  let (found, p) := p.intern candidate
  pure (p, memo.insert d found)

def mergeNodes (p : Pool V E) (memo : Memo V E) : List (Dag V E) → Fresh (Pool V E × Memo V E)
  | [] => pure (p, memo)
  | d :: ds => do
    let (p, memo) ← mergeNode p memo d
    mergeNodes p memo ds

/-- The canonical node for a graph, and the pool with all its parts. -/
def merge (p : Pool V E) (d : Dag V E) : Fresh (Dag V E × Pool V E) := do
  let (p, memo) ← mergeNodes p .empty d.sorted
  pure (memo.imageOf d, p)

end Pool

end Wiring.Dag
