import Wiring.Export
import Wiring.Json

/-!
# Exported graphs as JSON

The document has the nodes, the links and the counts, with the time of the export.
-/

namespace Wiring

def ExportNode.json (n : ExportNode) : Json :=
  .object
    [("id", .text n.id),
     ("type_name", .text n.typeName),
     ("kind", .text n.kind),
     ("cache_policy", .text n.cachePolicy),
     ("label", .text n.label),
     ("metadata", .object (n.facts.map fun f => (f.1, .text f.2)))]

def ExportLink.json (l : ExportLink) : Json :=
  .object
    [("from", .text l.source),
     ("to", .text l.target),
     ("injection_point", .text l.injectionPoint),
     ("qualifier", .ofOption l.qualifier),
     ("fixed", .bool l.fixed),
     ("back_edge", .bool l.backEdge)]

def exportVersion : String := "1.0"

def GraphExport.json (g : GraphExport) (time : String) : Json :=
  .object
    [("nodes", .list (g.nodes.map (·.json))),
     ("edges", .list (g.links.map (·.json))),
     ("metadata", .object
       [("node_count", .number g.nodeCount),
        ("edge_count", .number g.linkCount),
        ("back_edge_count", .number g.backEdgeCount),
        ("root_count", .number g.rootCount),
        ("memoized_count", .number g.memoizedCount),
        ("exported_at", .text time),
        ("version", .text exportVersion)])]

end Wiring
