import Wiring.Export.Dot
import Wiring.Proofs.Export
import Wiring.Proofs.Export.DotReader

/-!
# DOT reads back

What is written as DOT reads back as the nodes and the links that were written, whatever labels and
points there are: the backslashes that escaping puts in are those that reading takes out, so no text
ends its quotes early.
-/

namespace Wiring.GraphExport

open Dot

/-! ## Escapes -/

def replaceChar (c : Char) (new cs : List Char) : List Char :=
  cs.flatMap fun k => if k = c then new else [k]

/-- Escaping is two replacements, of backslashes and then of quotes. -/
theorem toList_dotEscaped (s : String) : (dotEscaped s).toList =
    replaceChar '"' ['\\', '"'] (replaceChar '\\' ['\\', '\\'] s.toList) := by
  rw [dotEscaped, String.toList_ofList, replaceChar, replaceChar, List.flatMap_assoc]
  refine List.flatMap_congr fun c _ => ?_
  unfold dotEscapedChar
  by_cases hbackslash : c = '\\'
  · subst hbackslash
    rfl
  · by_cases hquote : c = '"'
    · subst hquote
      rfl
    · simp [hbackslash, hquote]

theorem lex?_escaped (t cs : List Char) :
    lex? (.quoted t) (cs.flatMap dotEscapedChar) = some ([], .quoted (t ++ cs)) := by
  induction cs generalizing t with
  | nil => rw [List.flatMap_nil, List.append_nil]; rfl
  | cons c cs ih =>
    have hchar : lex? (.quoted t) (dotEscapedChar c) =
        some ([], .quoted (t ++ [c])) := by
      unfold dotEscapedChar
      split
      · rfl
      · rename_i hc
        rw [not_or] at hc
        simp [lex?, step?, hc.1, hc.2]
    rw [List.flatMap_cons, List.append_cons]
    exact lex?_append hchar (ih _)

theorem reads_dotEscaped (s : String) :
    Reads (.quoted []) (dotEscaped s) [] (.quoted s.toList) := by
  unfold Reads dotEscaped
  rw [String.toList_ofList]
  exact lex?_escaped [] s.toList

/-! ## Texts that need no escape -/

def Plain (s : String) : Prop := ∀ c ∈ s.toList, c ≠ '"' ∧ c ≠ '\\' ∧ c ≠ '\n'

theorem Plain.dotEscaped_eq {s : String} (h : Plain s) : dotEscaped s = s := by
  have hchars : s.toList.flatMap dotEscapedChar = s.toList.flatMap fun c => [c] := by
    refine List.flatMap_congr fun c hc => ?_
    obtain ⟨hquote, hbackslash, -⟩ := h c hc
    rw [dotEscapedChar, if_neg (not_or.mpr ⟨hbackslash, hquote⟩)]
  rw [dotEscaped, hchars, List.flatMap_singleton', String.ofList_toList]

theorem Plain.reads {s : String} (h : Plain s) : Reads (.quoted []) s [] (.quoted s.toList) := by
  have hreads := reads_dotEscaped s
  rwa [h.dotEscaped_eq] at hreads

structure PlainIds (x : GraphExport) : Prop where
  nodes : ∀ n ∈ x.nodes, Plain n.id
  links : ∀ l ∈ x.links, Plain l.source ∧ Plain l.target

/-! ## The text of a graph -/

theorem reads_margin : Reads .between "  \"" [] (.quoted []) := rfl

theorem reads_labelled (id : List Char) : Reads (.quoted id) "\" [label=\""
    [.quoted (String.ofList id), .openBracket, .word "label", .equals] (.quoted []) := rfl

def dotShape (n : ExportNode) : String := if n.id = "root" then "circle" else "box"

theorem reads_dotShape (n : ExportNode) :
    Reads .between (dotShape n) [] (.word (dotShape n).toList) := by
  unfold dotShape
  split <;> rfl

theorem reads_dotColour (cachePolicy : String) :
    Reads .between (dotColour cachePolicy) [] (.word (dotColour cachePolicy).toList) := by
  unfold dotColour
  split
  · rfl
  · split <;> rfl

def nodeTokens (n : ExportNode) : List Token :=
  [.quoted n.id, .openBracket, .word "label", .equals, .quoted n.label, .comma,
    .word "shape", .equals, .word (dotShape n), .comma,
    .word "fillcolor", .equals, .word (dotColour n.cachePolicy), .comma,
    .word "style", .equals, .word "filled", .closeBracket, .semicolon]

theorem reads_dotNode {n : ExportNode} (h : Plain n.id) :
    Reads .between (dotNode n) (nodeTokens n) .between := by
  have hshape : ∀ t, Reads (.quoted t) "\", shape="
      [.quoted (String.ofList t), .comma, .word "shape", .equals] .between := fun _ => rfl
  have hfill : ∀ w, Reads (.word w) ", fillcolor="
      [.word (String.ofList w), .comma, .word "fillcolor", .equals] .between := fun _ => rfl
  have hend : ∀ w, Reads (.word w) ", style=filled];\n" [.word (String.ofList w), .comma,
      .word "style", .equals, .word "filled", .closeBracket, .semicolon] .between := fun _ => rfl
  have hreads := (((((((reads_margin.append h.reads).append (reads_labelled _)).append
    (reads_dotEscaped n.label)).append (hshape _)).append (reads_dotShape n)).append
    (hfill _)).append (reads_dotColour n.cachePolicy)).append (hend _)
  simp only [String.ofList_toList] at hreads
  exact hreads

def linkStyle (l : ExportLink) : String := if l.backEdge then "dashed" else "solid"

theorem reads_linkStyle (l : ExportLink) :
    Reads .between (linkStyle l) [] (.word (linkStyle l).toList) := by
  unfold linkStyle
  split <;> rfl

def linkTokens (l : ExportLink) : List Token :=
  [.quoted l.source, .arrow, .quoted l.target, .openBracket, .word "label", .equals,
    .quoted l.injectionPoint, .comma, .word "style", .equals, .word (linkStyle l), .closeBracket,
    .semicolon]

theorem reads_dotLink {l : ExportLink} (hsource : Plain l.source) (htarget : Plain l.target) :
    Reads .between (dotLink l) (linkTokens l) .between := by
  have harrow : ∀ t, Reads (.quoted t) "\" -> \"" [.quoted (String.ofList t), .arrow]
      (.quoted []) := fun _ => rfl
  have hstyle : ∀ t, Reads (.quoted t) "\", style="
      [.quoted (String.ofList t), .comma, .word "style", .equals] .between := fun _ => rfl
  have hend : ∀ w, Reads (.word w) "];\n" [.word (String.ofList w), .closeBracket, .semicolon]
      .between := fun _ => rfl
  have hreads := (((((((reads_margin.append hsource.reads).append (harrow _)).append
    htarget.reads).append (reads_labelled _)).append (reads_dotEscaped l.injectionPoint)).append
    (hstyle _)).append (reads_linkStyle l)).append (hend _)
  simp only [String.ofList_toList] at hreads
  exact hreads

def dotTokens (x : GraphExport) : List Token :=
  [.word "digraph", .word "DependencyGraph", .openBrace, .word "rankdir", .equals, .word "TB",
    .semicolon, .word "node", .openBracket, .word "shape", .equals, .word "box", .closeBracket,
    .semicolon] ++ x.nodes.flatMap nodeTokens ++ x.links.flatMap linkTokens ++ [.closeBrace]

theorem tokens?_dot {x : GraphExport} (h : x.PlainIds) : tokens? x.dot = some x.dotTokens := by
  have hhead : Reads .between
      "digraph DependencyGraph \x7b\n  rankdir=TB;\n  node [shape=box];\n\n"
      [.word "digraph", .word "DependencyGraph", .openBrace, .word "rankdir", .equals, .word "TB",
        .semicolon, .word "node", .openBracket, .word "shape", .equals, .word "box", .closeBracket,
        .semicolon] .between := rfl
  have hnodes := reads_join fun n hn => reads_dotNode (h.nodes n hn)
  have hbreak : Reads .between "\n" [] .between := rfl
  have hlinks := reads_join fun l hl => reads_dotLink (h.links l hl).1 (h.links l hl).2
  have hend : Reads .between "\x7d\n" [.closeBrace] .between := rfl
  have hreads : lex? .between x.dot.toList = _ :=
    (((hhead.append hnodes).append hbreak).append hlinks).append hend
  rw [tokens?, hreads, List.append_nil]
  rfl

/-! ## The statements of a graph -/

def nodeStatement (n : ExportNode) : Statement :=
  .node n.id [("label", n.label), ("shape", dotShape n), ("fillcolor", dotColour n.cachePolicy),
    ("style", "filled")]

def linkStatement (l : ExportLink) : Statement :=
  .link l.source l.target [("label", l.injectionPoint), ("style", linkStyle l)]

theorem statements?_flatMap {α : Type} {f : α → List Token} {g : α → Statement} {rest : List Token}
    {ss : List Statement} (h : ∀ a rest, statements? [] (f a ++ rest) =
      (statements? [] rest).bind fun ss => some (g a :: ss)) (as : List α)
    (hrest : statements? [] rest = some ss) :
    statements? [] (as.flatMap f ++ rest) = some (as.map g ++ ss) := by
  induction as with
  | nil => exact hrest
  | cons a as ih =>
    rw [List.flatMap_cons, List.append_assoc, h, ih, Option.bind_some]
    rfl

theorem statements?_nodeTokens (n : ExportNode) (rest : List Token) :
    statements? [] (nodeTokens n ++ rest) =
      (statements? [] rest).bind fun ss => some (nodeStatement n :: ss) := by
  simp only [nodeTokens, List.cons_append, List.nil_append, statements?]
  rfl

theorem statements?_linkTokens (l : ExportLink) (rest : List Token) :
    statements? [] (linkTokens l ++ rest) =
      (statements? [] rest).bind fun ss => some (linkStatement l :: ss) := by
  simp only [linkTokens, List.cons_append, List.nil_append, statements?]
  rfl

theorem document?_dotTokens (x : GraphExport) : document? x.dotTokens =
    some (.setting "rankdir" "TB" :: .defaults "node" [("shape", "box")] ::
      (x.nodes.map nodeStatement ++ x.links.map linkStatement)) := by
  have hlinks : statements? [] (x.links.flatMap linkTokens ++ [.closeBrace]) =
      some (x.links.map linkStatement ++ []) :=
    statements?_flatMap statements?_linkTokens x.links rfl
  have hnodes := statements?_flatMap statements?_nodeTokens x.nodes hlinks
  rw [List.append_nil] at hnodes
  rw [dotTokens, List.append_assoc, List.append_assoc]
  simp only [List.cons_append, List.nil_append, document?, statements?, hnodes]
  rfl

theorem filterMap_node? (ns : List ExportNode) (ls : List ExportLink) :
    (ns.map nodeStatement ++ ls.map linkStatement).filterMap (·.node?) =
      ns.map fun n => (n.id, n.label) := by
  have hnode : (·.node?) ∘ nodeStatement = some ∘ fun n => (n.id, n.label) := rfl
  have hlink : (·.node?) ∘ linkStatement = fun _ => none := rfl
  rw [List.filterMap_append, List.filterMap_map, List.filterMap_map, hnode, hlink,
    List.filterMap_eq_map, List.filterMap_none, List.append_nil]

theorem filterMap_link? (ns : List ExportNode) (ls : List ExportLink) :
    (ns.map nodeStatement ++ ls.map linkStatement).filterMap (·.link?) =
      ls.map fun l => (l.source, l.target, l.injectionPoint, l.backEdge) := by
  have hdashed : ∀ l, (some (linkStyle l) == some "dashed") = l.backEdge := by
    intro l
    unfold linkStyle
    cases l.backEdge <;> rfl
  have hnode : (·.link?) ∘ nodeStatement = fun _ => none := rfl
  have hlink : (·.link?) ∘ linkStatement =
      some ∘ fun l => (l.source, l.target, l.injectionPoint, l.backEdge) := by
    funext l
    show _ = some (l.source, l.target, l.injectionPoint, l.backEdge)
    rw [← hdashed l]
    rfl
  rw [List.filterMap_append, List.filterMap_map, List.filterMap_map, hnode, hlink,
    List.filterMap_eq_map, List.filterMap_none, List.nil_append]

/-! ## The ids of the exporter -/

theorem plain_exportId (c : Component) (before : Nat) : Plain (exportId c before) := by
  have hdigit : ∀ k ∈ (toString before).toList, k ≠ '"' ∧ k ≠ '\\' ∧ k ≠ '\n' := by
    intro k hk
    rw [Nat.toString_eq_repr, Nat.repr_eq_ofList_toDigits, String.toList_ofList] at hk
    have hk := Nat.isDigit_of_mem_toDigits (by decide) (by decide) hk
    refine ⟨?_, ?_, ?_⟩ <;>
    · rintro rfl
      cases hk
  unfold exportId
  split
  · simp [Plain]
  · intro k hk
    rw [String.toList_append, List.mem_append] at hk
    rcases hk with hk | hk
    · obtain rfl : k = 'n' := by simpa using hk
      simp
    · exact hdigit k hk

theorem plain_of_mem_withIds {nodes : List Graph} {i : Graph × String} (h : i ∈ withIds nodes) :
    Plain i.2 := by
  obtain ⟨n, -, rfl⟩ := List.mem_map.mp h
  exact plain_exportId _ _

theorem plainIds_exportGraph (g : Graph) (b : BackEdges) (includeRoot : Bool) :
    (exportGraph g b includeRoot).PlainIds := by
  refine ⟨fun n hn => ?_, fun l hl => ?_⟩
  · obtain ⟨i, hi, rfl⟩ := List.mem_map.mp hn
    exact plain_of_mem_withIds hi
  · obtain ⟨i, hi, hl⟩ := List.mem_flatMap.mp hl
    rw [exportLinks_eq] at hl
    obtain ⟨a, -, hl⟩ := List.mem_filterMap.mp hl
    obtain ⟨target, htarget, rfl⟩ := Option.map_eq_some_iff.mp hl
    obtain ⟨n, hn, -⟩ := exists_of_idOf? htarget
    exact ⟨plain_of_mem_withIds hi, plain_of_mem_withIds hn⟩

/-! ## Reading back -/

/-- An export whose ids can stand between quotes as they are reads back as its nodes with their
labels and its links with their ends, points and whether they close a cycle, in order. The ids of an
exported graph are such. -/
theorem read?_dot :
    (∀ x : GraphExport, x.PlainIds → read? x.dot =
      some (x.nodes.map fun n => (n.id, n.label),
        x.links.map fun l => (l.source, l.target, l.injectionPoint, l.backEdge))) ∧
    ∀ g b includeRoot, (exportGraph g b includeRoot).PlainIds := by
  refine ⟨fun x h => ?_, plainIds_exportGraph⟩
  have hread : read? x.dot = (document? x.dotTokens).bind fun ss =>
      some (ss.filterMap (·.node?), ss.filterMap (·.link?)) := by
    rw [read?, tokens?_dot h]
    rfl
  rw [hread, document?_dotTokens, Option.bind_some, ← filterMap_node? x.nodes x.links,
    ← filterMap_link? x.nodes x.links]
  rfl

/-- A label and a point that would end their quotes, the statement and the graph. -/
theorem read?_dot_of_quotes :
    let x : GraphExport :=
      ⟨[⟨"n0", "", "", "", "\\\"];\n\x7d", []⟩, ⟨"root", "", "", "", "\\", []⟩],
        [⟨"root", "n0", "\" -> \"n0\"];", none, false, true⟩], 1⟩
    x.PlainIds ∧ read? x.dot = some ([("n0", "\\\"];\n\x7d"), ("root", "\\")],
      [("root", "n0", "\" -> \"n0\"];", true)]) := by
  intro x
  have h : x.PlainIds := by
    constructor <;> simp [x, Plain]
  exact ⟨h, read?_dot.1 x h⟩

end Wiring.GraphExport
