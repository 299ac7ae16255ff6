import Wiring.Digest
import Wiring.Text.Outline

/-!
# Directed acyclic graphs

A graph is given by a node: a label and a set of labelled edges to further nodes. Nodes are equal
when their labels are equal and their edges are equal as sets, all the way down. Every node also
has a tag, so that two nodes built at different times can be told apart although they are equal,
and a digest of its structure, so that unequal nodes are quickly told apart.
-/

namespace Wiring

inductive Dag (V E : Type) where
  | node (tag : Nat) (digest : UInt64) (label : V) (edges : List (E × Dag V E))

namespace Dag

variable {V E : Type}

def tag : Dag V E → Nat
  | node t _ _ _ => t

def digest : Dag V E → UInt64
  | node _ h _ _ => h

def label : Dag V E → V
  | node _ _ l _ => l

def edges : Dag V E → List (E × Dag V E)
  | node _ _ _ es => es

def adjacent (d : Dag V E) : List (Dag V E) := d.edges.map (·.2)

/-- Whether two nodes are one node, built once. -/
def identical (a b : Dag V E) : Bool := a.tag == b.tag

/-! ## Equality

Shared parts are the rule in these graphs, so the test stops early where both sides are one object
in memory. That needs to know that the test succeeds on equal arguments; the two functions below
carry the proof along. `same_node` gives the test as a plain equation. -/

section Equality

variable [BEq V] [ReflBEq V] [BEq E] [ReflBEq E]

mutual

def sameAs : (a b : Dag V E) → { r : Bool // a = b → r = true }
  | node _ h l es, node _ h' l' es' =>
    ⟨h == h' && es.length == es'.length && l == l' && (coveredBy es es').1, by
      intro e
      injection e with _ h1 h2 h3
      subst h1 h2 h3
      simp [(coveredBy es es).2 fun _ h => h]⟩

def coveredBy : (es fs : List (E × Dag V E)) → { r : Bool // (∀ e ∈ es, e ∈ fs) → r = true }
  | [], _ => ⟨true, fun _ => rfl⟩
  | (l, d) :: rest, fs =>
    ⟨fs.any (fun f => l == f.1 && withPtrEq d f.2 (fun _ => (sameAs d f.2).1) (sameAs d f.2).2) &&
        (coveredBy rest fs).1, by
      intro h
      rw [Bool.and_eq_true]
      refine ⟨List.any_eq_true.2 ⟨(l, d), h _ (by simp), ?_⟩,
        (coveredBy rest fs).2 fun e he => h e (by simp [he])⟩
      simp [withPtrEq, (sameAs d d).2 rfl]⟩

end

/-- Equal labels and equal sets of edges. -/
def same (a b : Dag V E) : Bool := withPtrEq a b (fun _ => (sameAs a b).1) (sameAs a b).2

instance : BEq (Dag V E) := ⟨same⟩

theorem same_node (t h l es t' h' l' es') :
    ((node t h l es : Dag V E) == node t' h' l' es') =
      (h == h' && es.length == es'.length && l == l' &&
        es.all fun e => es'.any fun f => e.1 == f.1 && e.2 == f.2) := by
  have key : ∀ es fs : List (E × Dag V E),
      (coveredBy es fs).1 = es.all fun e => fs.any fun f => e.1 == f.1 && same e.2 f.2 := by
    intro es fs
    induction es with
    | nil => simp [coveredBy]
    | cons e es ih =>
      obtain ⟨l, d⟩ := e
      simp [coveredBy, ih, same, withPtrEq]
  show same _ _ = _
  simp only [same, withPtrEq, sameAs, key]
  rfl

theorem same_refl (d : Dag V E) : (d == d) = true := (sameAs d d).2 rfl

instance : ReflBEq (Dag V E) := ⟨same_refl _⟩

end Equality

/-! ## Building

Tags are handed out in order, so every node that is built has one of its own. -/

/-- A computation that builds nodes; the state is the next tag. -/
abbrev Fresh := StateM Nat

structure Draft (V E : Type) where
  label : V
  edges : List (E × Dag V E)

namespace Draft

variable [BEq V] [ReflBEq V] [BEq E] [ReflBEq E]

def ofLabel (l : V) : Draft V E := ⟨l, []⟩

def setLabel (b : Draft V E) (l : V) : Draft V E := { b with label := l }

/-- An edge equal to one that is there already is not added. -/
def addEdge (b : Draft V E) (l : E) (tail : Dag V E) : Draft V E :=
  if b.edges.any fun e => e.1 == l && e.2 == tail then b
  else { b with edges := b.edges ++ [(l, tail)] }

def addEdges (b : Draft V E) (es : List (E × Dag V E)) : Draft V E :=
  es.foldl (fun b e => b.addEdge e.1 e.2) b

def removeEdges (b : Draft V E) (p : E → Bool) : Draft V E :=
  { b with edges := b.edges.filter fun e => !p e.1 }

/-- The digest of a node. Summing over the edges makes it independent of their order. -/
def digest [Hashable V] [Hashable E] (b : Draft V E) : UInt64 :=
  Digest.mix (hash b.label) (Digest.mix b.edges.length.toUInt64
    (b.edges.foldl (fun sum e => sum + Digest.mix (hash e.1) e.2.digest) 0))

def build [Hashable V] [Hashable E] (b : Draft V E) : Fresh (Dag V E) :=
  modifyGet fun tag => (node tag b.digest b.label b.edges, tag + 1)

end Draft

def copy (d : Dag V E) : Draft V E := ⟨d.label, d.edges⟩

def singleton [Hashable V] [Hashable E] (l : V) : Fresh (Dag V E) := Draft.build ⟨l, []⟩

/-! ## Edges -/

structure Edge (V E : Type) where
  head : Dag V E
  tail : Dag V E
  label : E

/-- Whether the labels of an edge and its ends are the given ones, as far as any are given. -/
def Edge.fits [BEq V] [BEq E] (e : Edge V E) (head tail : Option V) (label : Option E) : Bool :=
  head.all (· == e.head.label) && tail.all (· == e.tail.label) && label.all (· == e.label)

def outgoing (d : Dag V E) : List (Edge V E) := d.edges.map fun e => ⟨d, e.2, e.1⟩

def outgoing? (d : Dag V E) (p : E → Bool) : Option (Edge V E) :=
  d.outgoing.find? fun e => p e.label

instance [BEq V] [ReflBEq V] [BEq E] [ReflBEq E] : BEq (Edge V E) :=
  ⟨fun a b => a.head == b.head && a.tail == b.tail && a.label == b.label⟩

def outline (showLabel : V → String) (showEdge : E → String) (d : Dag V E) : String :=
  Text.recordOutline "DagNode"
    [("label", showLabel d.label),
     ("edges", Text.listOutline (d.edges.map fun e => showEdge e.1))]

def Edge.outline (showLabel : V → String) (showEdge : E → String) (e : Edge V E) : String :=
  Text.recordOutline "DagEdge"
    [("head", showLabel e.head.label), ("tail", showLabel e.tail.label),
     ("label", showEdge e.label)]

end Dag

end Wiring
