import Wiring.Catalog.Hierarchy
import Wiring.Context
import Wiring.Context.Match
import Wiring.Qualifier.Matcher

/-!
# Context patterns

A pattern is a list of elements that take consecutive frames of a context. It may start anywhere
below the root, and unless it is anchored it may end anywhere too. `ContextPattern.match?` gives
the best of all its alignments.
-/

namespace Wiring

structure ElementMatcher where
  type : Option TypeKey
  qualifier : QualifierMatcher
deriving DecidableEq

namespace ElementMatcher

/-- Frames of `t`, with no qualifier or one that allows bindings without. -/
def ofType (t : TypeKey) : ElementMatcher := ⟨some t, .default⟩

def qualified (t : TypeKey) (q : Qualifier) : ElementMatcher := ⟨some t, .exactly q⟩

def any : ElementMatcher := ⟨none, .any⟩

/-- An element that accepts every frame leaves no mark in a match. -/
def isUniversal (m : ElementMatcher) : Bool := m.type.isNone && m.qualifier == .any

def distance? (m : ElementMatcher) (c : Catalog) (f : Frame) : Option Nat :=
  if m.qualifier.accepts f.qualifier then
    match m.type with
    | some t => c.typeDistance? f.type t
    | none => some 0
  else none

/-- What accepting the frame at `index` leaves in a match: nothing, or the frame. -/
def mark? (m : ElementMatcher) (c : Catalog) (index : Nat) (f : Frame) :
    Option (List MatchedFrame) :=
  (m.distance? c f).map fun d => if m.isUniversal then [] else [⟨index, d, m.qualifier.priority⟩]

def text (m : ElementMatcher) : String :=
  if m.isUniversal then "*"
  else m.qualifier.lead ++ ((m.type.map (·.text)).getD "_")

end ElementMatcher

inductive Multiplicity where
  | one
  | zeroOrMore
deriving DecidableEq

def Multiplicity.text : Multiplicity → String
  | .one => "One"
  | .zeroOrMore => "ZeroOrMore"

structure PatternElement where
  matcher : ElementMatcher
  multiplicity : Multiplicity
deriving DecidableEq

def PatternElement.text (e : PatternElement) : String :=
  e.matcher.text ++ if e.multiplicity = .zeroOrMore ∧ ¬ e.matcher.isUniversal then "*" else ""

/-- What some frames, taken one after the other, leave in a match, with the frames left over: first
for no frame, then for one more each time, as long as the matcher accepts them. -/
def ElementMatcher.runs (c : Catalog) (m : ElementMatcher) :
    List (Nat × Frame) → List (List MatchedFrame × List (Nat × Frame))
  | [] => [([], [])]
  | f :: fs =>
    ([], f :: fs) ::
      match m.mark? c f.1 f.2 with
      | some marks => (m.runs c fs).map fun r => (marks ++ r.1, r.2)
      | none => []

def PatternElement.takes (c : Catalog) (e : PatternElement) (frames : List (Nat × Frame)) :
    List (List MatchedFrame × List (Nat × Frame)) :=
  match e.multiplicity, frames with
  | .zeroOrMore, frames => e.matcher.runs c frames
  | .one, [] => []
  | .one, f :: fs => ((e.matcher.mark? c f.1 f.2).map (·, fs)).toList

structure ContextPattern where
  elements : List PatternElement
  /-- Whether the last element takes the innermost frame. -/
  anchored : Bool
deriving DecidableEq

namespace ContextPattern

def any : ContextPattern := ⟨[], false⟩

/-- Adds an element, with any frames between it and the element before. -/
def within (p : ContextPattern) (m : ElementMatcher) : ContextPattern :=
  ⟨p.elements ++ (if p.elements.isEmpty then [] else [⟨.any, .zeroOrMore⟩]) ++ [⟨m, .one⟩], false⟩

/-- Adds an element directly after the one before and anchors it. -/
def directly (p : ContextPattern) (m : ElementMatcher) : ContextPattern :=
  ⟨p.elements ++ [⟨m, .one⟩], true⟩

def push (p : ContextPattern) (m : ElementMatcher) (n : Multiplicity) : ContextPattern :=
  ⟨p.elements ++ [⟨m, n⟩], p.anchored⟩

def setAnchored (p : ContextPattern) (anchored : Bool) : ContextPattern := ⟨p.elements, anchored⟩

def text (p : ContextPattern) : String :=
  Text.listOutline (p.elements.map (·.text)) ++ if p.anchored then "$" else ""

/-! ## Matching

Elements and frames are both read from the innermost inwards, so the frames are numbered and
turned round first. -/

def inwards (frames : List Frame) : List (Nat × Frame) :=
  (frames.zipIdx.map fun f => (f.2, f.1)).reverse

/-- Lets `elements` take frames from the first on in every way they can, after the marks made so
far, and keeps the best match. -/
def walk (c : Catalog) (depth : Nat) : List PatternElement → List (Nat × Frame) →
    List MatchedFrame → Option ContextMatch → Option ContextMatch
  | [], _, marks, best => ContextMatch.keep best ⟨marks, depth⟩
  | e :: es, frames, marks, best =>
    (e.takes c frames).foldl (fun best t => walk c depth es t.2 (marks ++ t.1) best) best

/-- What is left of a list after dropping from its front, the shortest first. -/
def suffixes {α : Type} : List α → List (List α)
  | [] => [[]]
  | a :: as => suffixes as ++ [a :: as]

/-- Where an alignment may begin: at the innermost frame, or unless it is anchored at any, those
nearest the root first. -/
def starts (p : ContextPattern) (frames : List Frame) : List (List (Nat × Frame)) :=
  if p.anchored then [inwards frames] else suffixes (inwards frames)

def match? (p : ContextPattern) (c : Catalog) (frames : List Frame) : Option ContextMatch :=
  (p.starts frames).foldl (fun best fs => walk c frames.length p.elements.reverse fs [] best) none

end ContextPattern

end Wiring
