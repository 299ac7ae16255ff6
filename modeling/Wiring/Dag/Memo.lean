import Wiring.Dag

/-!
# Memos

What has become of the nodes of a graph in an operation that rebuilds it. Equal nodes have one
image.
-/

namespace Wiring.Dag

variable {V E : Type} [BEq V] [ReflBEq V] [BEq E] [ReflBEq E]

/-- Nodes with their images, the latest first. -/
structure Memo (V E : Type) where
  images : List (Dag V E × Dag V E)

namespace Memo

def empty : Memo V E := ⟨[]⟩

def get? (m : Memo V E) (d : Dag V E) : Option (Dag V E) :=
  (m.images.find? fun i => i.1 == d).map (·.2)

def insert (m : Memo V E) (d image : Dag V E) : Memo V E := ⟨(d, image) :: m.images⟩

def size (m : Memo V E) : Nat := m.images.length

/-- The image of a node; a node without one stays as it is. -/
def imageOf (m : Memo V E) (d : Dag V E) : Dag V E := (m.get? d).getD d

end Memo

end Wiring.Dag
