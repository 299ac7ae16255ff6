import Wiring.Export

/-!
# Exported graphs as DOT

One line a node and one line a link. Texts are quoted: a backslash goes before every quote and
backslash. Back-edges are dashed, and the colour of a node shows its cache policy.
-/

namespace Wiring.GraphExport

def dotEscapedChar (c : Char) : List Char :=
  if c = '\\' ∨ c = '"' then ['\\', c] else [c]

def dotEscaped (s : String) : String := String.ofList (s.toList.flatMap dotEscapedChar)

def dotColour (cachePolicy : String) : String :=
  if cachePolicy = CachePolicy.memoize.text then "lightblue"
  else if cachePolicy = CachePolicy.newInstance.text then "lightyellow"
  else "white"

def dotNode (n : ExportNode) : String :=
  "  \"" ++ n.id ++ "\" [label=\"" ++ dotEscaped n.label ++ "\", shape=" ++
    (if n.id = "root" then "circle" else "box") ++ ", fillcolor=" ++ dotColour n.cachePolicy ++
    ", style=filled];\n"

def dotLink (l : ExportLink) : String :=
  "  \"" ++ l.source ++ "\" -> \"" ++ l.target ++ "\" [label=\"" ++ dotEscaped l.injectionPoint ++
    "\", style=" ++ (if l.backEdge then "dashed" else "solid") ++ "];\n"

def dot (g : GraphExport) : String :=
  "digraph DependencyGraph \x7b\n  rankdir=TB;\n  node [shape=box];\n\n" ++
    String.join (g.nodes.map dotNode) ++ "\n" ++ String.join (g.links.map dotLink) ++ "\x7d\n"

end Wiring.GraphExport
