import Wiring.Dag

/-!
# Walking and searching graphs

Two orders of the nodes of a graph, each with one node of those that are equal: `sorted` has every
node behind the nodes it leads to, `byDistance` has the nearest nodes first.
-/

namespace Wiring.Dag

variable {V E : Type} [BEq V] [ReflBEq V] [BEq E] [ReflBEq E]

mutual

/-- Adds a node to an order, behind the nodes it leads to, unless it is there. -/
def visit : Dag V E → List (Dag V E) → List (Dag V E)
  | d@(node _ _ _ es), order => if order.contains d then order else visitAll es order ++ [d]

def visitAll : List (E × Dag V E) → List (Dag V E) → List (Dag V E)
  | [], order => order
  | (_, d) :: rest, order => visitAll rest (visit d order)

end

def sorted (d : Dag V E) : List (Dag V E) := visit d []

def reaches (d other : Dag V E) : Bool := d.sorted.contains other

def unseen (seen : List (Dag V E)) : List (Dag V E) → List (Dag V E)
  | [] => []
  | d :: ds => if seen.contains d then unseen seen ds else d :: unseen (d :: seen) ds

/-- The nodes of a level that were not seen before, and then the levels below, for at most `fuel`
levels. -/
def levelsFrom : Nat → List (Dag V E) → List (Dag V E) → List (Dag V E)
  | 0, _, _ => []
  | fuel + 1, seen, level =>
    let new := unseen seen level
    new ++ if new.isEmpty then [] else levelsFrom fuel (seen ++ new) (new.flatMap (·.adjacent))

/-- Every node of the graph, the nearest first. No level without a new node has levels below, so
there are no more of them than nodes. -/
def byDistance (d : Dag V E) : List (Dag V E) := levelsFrom d.sorted.length [] [d]

def findNode? (d : Dag V E) (p : Dag V E → Bool) : Option (Dag V E) := d.byDistance.find? p

def findEdge? (d : Dag V E) (p : Edge V E → Bool) : Option (Edge V E) :=
  (d.byDistance.flatMap (·.outgoing)).find? p

def indexIn (d : Dag V E) (order : List (Dag V E)) : Nat := order.findIdx (· == d)

/-- The labels of the nodes of an order, with their edges: where each leads to and its label. -/
def table (order : List (Dag V E)) : List (V × List (Nat × E)) :=
  order.map fun d => (d.label, d.edges.map fun e => (e.2.indexIn order, e.1))

end Wiring.Dag
