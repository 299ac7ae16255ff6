import Wiring.Export

/-!
# Listed graphs

A graph with its back-edges as a table. Edges name the row of the node they lead to.
-/

namespace Wiring

structure ListedNode where
  component : Component
  edges : List (Nat × Dependency)
  /-- The back-edges, where the node has an entry for them. -/
  backEdges : Option (List (Nat × Dependency))

structure GraphListing where
  root : Nat
  nodes : List ListedNode
  /-- The number of heads of back-edges that are not in the table. -/
  strayHeads : Nat

def listNode (b : BackEdges) (order : List Graph) (g : Graph) : ListedNode where
  component := g.label
  edges := g.edges.map fun e => (e.2.indexIn order, e.1)
  backEdges := (b.get? g).map fun es => es.map fun e => (e.tail.indexIn order, e.label)

/-- Every node of a graph with back-edges in a table, the graph's own part first. -/
def listGraph (g : Graph) (b : BackEdges) : GraphListing :=
  let order := allNodes g b .firstFound
  { root := g.indexIn order
    nodes := order.map (listNode b order)
    strayHeads := (b.entries.filter fun e => !order.contains e.1).length }

end Wiring
