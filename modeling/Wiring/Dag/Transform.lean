import Wiring.Dag.Memo

/-!
# Transforming edges

`transform f` rebuilds a graph edge by edge. Where `f` gives an edge, its tail and label are taken
as they are; every other edge keeps its label over the transformed tail. A node whose edges all
came out as they were is kept.
-/

namespace Wiring.Dag

variable {V E : Type} [BEq V] [ReflBEq V] [Hashable V] [BEq E] [ReflBEq E] [Hashable E]

def edgesChanged (before after : List (E × Dag V E)) : Bool :=
  (before.zip after).any fun p => !p.2.2.identical p.1.2 || !(p.2.1 == p.1.1)

mutual

def transformNode (f : Edge V E → Option (Edge V E)) :
    Dag V E → Memo V E → Fresh (Dag V E × Memo V E)
  | d@(node _ _ label es), memo =>
    match memo.get? d with
    | some image => pure (image, memo)
    | none => do
      let (edges, memo) ← transformEdges f d es memo
      let image ←
        if edgesChanged es edges then ((Draft.ofLabel label).addEdges edges).build else pure d
      pure (image, memo.insert d image)

def transformEdges (f : Edge V E → Option (Edge V E)) (head : Dag V E) :
    List (E × Dag V E) → Memo V E → Fresh (List (E × Dag V E) × Memo V E)
  | [], memo => pure ([], memo)
  | (l, d) :: rest, memo =>
    match f ⟨head, d, l⟩ with
    | some e => do
      let (images, memo) ← transformEdges f head rest memo
      pure ((e.label, e.tail) :: images, memo)
    | none => do
      let (image, memo) ← transformNode f d memo
      let (images, memo) ← transformEdges f head rest memo
      pure ((l, image) :: images, memo)

end

def transform (f : Edge V E → Option (Edge V E)) (d : Dag V E) : Fresh (Dag V E) := do
  let (image, _) ← transformNode f d .empty
  pure image

end Wiring.Dag
