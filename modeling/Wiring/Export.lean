import Wiring.BackEdges
import Wiring.Dag.Search

/-!
# Exported graphs

A graph with its back-edges as flat lists of nodes and links. Nodes have ids, and links name the
ids at both ends.
-/

namespace Wiring

structure ExportNode where
  id : String
  typeName : String
  kind : String
  cachePolicy : String
  label : String
  facts : List (String × String)
deriving DecidableEq

structure ExportLink where
  source : String
  target : String
  injectionPoint : String
  qualifier : Option String
  fixed : Bool
  backEdge : Bool
deriving DecidableEq

structure GraphExport where
  nodes : List ExportNode
  links : List ExportLink
  rootCount : Nat
deriving DecidableEq

namespace GraphExport

def nodeCount (g : GraphExport) : Nat := g.nodes.length

def linkCount (g : GraphExport) : Nat := g.links.length

def backEdgeCount (g : GraphExport) : Nat := (g.links.filter (·.backEdge)).length

def memoizedCount (g : GraphExport) : Nat :=
  (g.nodes.filter fun n => n.cachePolicy == CachePolicy.memoize.text).length

def node? (g : GraphExport) (id : String) : Option ExportNode := g.nodes.find? (·.id == id)

def nodesOfType (g : GraphExport) (typeName : String) : List ExportNode :=
  g.nodes.filter (·.typeName == typeName)

end GraphExport

/-! ## The nodes of a graph with back-edges

The parts that hang together by edges are listed leaves first, each behind the parts whose
back-edges lead to it. -/

inductive PartOrder where
  | firstFound
  | lastFound

/-- The parts to be listed, when `found` are found with `waiting` still to come. -/
def PartOrder.add (o : PartOrder) (found waiting : List Graph) : List Graph :=
  match o with
  | firstFound => waiting ++ found
  | lastFound => found.reverse ++ waiting

def backTargets (b : BackEdges) (nodes : List Graph) : List Graph :=
  nodes.flatMap fun n => (b.edgesOf n).map (·.tail)

def listParts (b : BackEdges) (o : PartOrder) : Nat → List Graph → List Graph → List Graph
  | 0, _, listed => listed
  | _ + 1, [], listed => listed
  | fuel + 1, start :: waiting, listed =>
    let new := Dag.unseen listed start.sorted
    listParts b o fuel (o.add (backTargets b new) waiting) (listed ++ new)

/-- Every node of a graph with back-edges. A part waits for each back-edge at most, and for the
graph itself. -/
def allNodes (g : Graph) (b : BackEdges) (o : PartOrder) : List Graph :=
  listParts b o (1 + (b.entries.flatMap (·.2)).length) [g] []

/-! ## Exporting -/

def exportId (c : Component) (before : Nat) : String :=
  if c.isRoot then "root" else "n" ++ toString before

def withIds (nodes : List Graph) : List (Graph × String) :=
  nodes.zipIdx.map fun n => (n.1, exportId n.1.label n.2)

def idOf? (ids : List (Graph × String)) (g : Graph) : Option String :=
  (ids.find? fun i => i.1 == g).map (·.2)

def exportNode (b : BackEdges) (g : Graph) (id : String) : ExportNode where
  id := id
  typeName := g.label.satisfaction.type.text
  kind := g.label.satisfaction.kind
  cachePolicy := g.label.policy.text
  label := g.label.text
  facts :=
    ((b.get? g).map fun es => ("back_edges", toString es.length)).toList ++
      [("dependencies", toString g.edges.length)]

/-- The link of an edge, where the node it leads to is exported. -/
def exportLink (ids : List (Graph × String)) (source : String) (d : Dependency) (tail : Graph)
    (backEdge : Bool) : Option ExportLink :=
  (idOf? ids tail).map fun target =>
    { source, target, backEdge,
      injectionPoint := d.initial.point.text
      qualifier := d.initial.point.qualifier.map (·.text)
      fixed := d.fixed }

/-- The links of one node: its edges, then its back-edges. -/
def exportLinks (b : BackEdges) (ids : List (Graph × String)) (g : Graph) (source : String) :
    List ExportLink :=
  (g.edges.filterMap fun e => exportLink ids source e.1 e.2 false) ++
    (b.edgesOf g).filterMap fun e => exportLink ids source e.label e.tail true

/-- Exports a graph with its back-edges, with or without the nodes labelled as root. -/
def exportGraph (g : Graph) (b : BackEdges) (includeRoot : Bool) : GraphExport :=
  let ids := withIds ((allNodes g b .lastFound).filter fun n => includeRoot || !n.label.isRoot)
  { nodes := ids.map fun i => exportNode b i.1 i.2
    links := ids.flatMap fun i => exportLinks b ids i.1 i.2
    rootCount := g.edges.length }

end Wiring
