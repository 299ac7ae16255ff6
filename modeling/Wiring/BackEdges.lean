import Wiring.Component
import Wiring.Dag.Memo

/-!
# Back-edges

Edges that close a cycle are kept beside the graph, under the node they leave. Equal nodes share
their entries. They are kept in a hash map: there is no saying in which order its entries come when
all of them are gone through.
-/

namespace Wiring

structure BackEdges where
  entries : List (Graph × List GraphEdge)

namespace BackEdges

/-- An order in which entries come. -/
structure Order where
  arrange : List (Graph × List GraphEdge) → List (Graph × List GraphEdge)
  perm : ∀ entries, (arrange entries).Perm entries

def Order.added : Order := ⟨id, fun entries => .refl entries⟩

def empty : BackEdges := ⟨[]⟩

def size (b : BackEdges) : Nat := b.entries.length

def get? (b : BackEdges) (head : Graph) : Option (List GraphEdge) :=
  (b.entries.find? fun e => e.1 == head).map (·.2)

def contains (b : BackEdges) (head : Graph) : Bool := b.entries.any fun e => e.1 == head

def edgesOf (b : BackEdges) (head : Graph) : List GraphEdge := (b.get? head).getD []

def updateEntries (head : Graph) (change : List GraphEdge → List GraphEdge) :
    List (Graph × List GraphEdge) → List (Graph × List GraphEdge)
  | [] => [(head, change [])]
  | (h, es) :: rest =>
    if h == head then (h, change es) :: rest else (h, es) :: updateEntries head change rest

def set (b : BackEdges) (head : Graph) (edges : List GraphEdge) : BackEdges :=
  ⟨updateEntries head (fun _ => edges) b.entries⟩

def append (b : BackEdges) (head : Graph) (edges : List GraphEdge) : BackEdges :=
  ⟨updateEntries head (· ++ edges) b.entries⟩

/-- The edges where their ends are replaced by their images. Heads with one image share an entry,
and have their edges there in the order in which they come. -/
def rekey (b : BackEdges) (order : Order) (memo : Dag.Memo Component Dependency) : BackEdges :=
  (order.arrange b.entries).foldl (fun found entry =>
    let head := memo.imageOf entry.1
    found.append head (entry.2.map fun e => ⟨head, memo.imageOf e.tail, e.label⟩)) empty

/-- The node that a back-edge leads to from `parent` for `desire`. -/
def target? (b : BackEdges) (parent : Graph) (desire : Desire) : Option Graph :=
  ((b.edgesOf parent).find? fun e => e.label.initial == desire).map (·.tail)

end BackEdges

end Wiring
