import Wiring.Dag.Search
import Wiring.Dag.Memo

/-!
# Replacing a node

`replace old new` puts `new` where a node equals `old` and rebuilds the nodes above it. Nodes that
do not lead to `old` stay as they are. The memo says what became of every node that was looked at.
-/

namespace Wiring.Dag

variable {V E : Type} [BEq V] [ReflBEq V] [Hashable V] [BEq E] [ReflBEq E] [Hashable E]

mutual

def replaceNode (old new : Dag V E) : Dag V E → Memo V E → Fresh (Dag V E × Memo V E)
  | d@(node _ _ label es), memo =>
    match memo.get? d with
    | some image => pure (image, memo)
    | none =>
      if d == old then pure (new, memo.insert d new)
      else if !d.reaches old then pure (d, memo.insert d d)
      else do
        let (edges, memo) ← replaceTails old new es memo
        let image ← ((Draft.ofLabel label).addEdges edges).build
        pure (image, memo.insert d image)

def replaceTails (old new : Dag V E) :
    List (E × Dag V E) → Memo V E → Fresh (List (E × Dag V E) × Memo V E)
  | [], memo => pure ([], memo)
  | (l, d) :: rest, memo => do
    let (image, memo) ← replaceNode old new d memo
    let (images, memo) ← replaceTails old new rest memo
    pure ((l, image) :: images, memo)

end

end Wiring.Dag
