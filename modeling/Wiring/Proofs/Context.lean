import Wiring.Binding
import Mathlib.Tactic.Common

/-!
# What patterns see of a context

A pattern reads the types and the qualifiers of frames and nothing else. So contexts of one shape
have the same matches, and the same rules apply in them.
-/

namespace Wiring

/-- The frame with nothing left of it but what patterns see. -/
def Frame.shape (f : Frame) : Frame := ⟨.construct f.type, f.qualifier⟩

def Context.shape (c : Context) : Context := ⟨c.frames.map Frame.shape⟩

namespace Context

theorem depth_shape (c : Context) : c.shape.depth = c.depth := List.length_map _

theorem depth_of_shape {c k : Context} (h : c.shape = k.shape) : c.depth = k.depth := by
  rw [← depth_shape c, h, depth_shape]

theorem shape_extend (c : Context) (s : Satisfaction) (q : Option Qualifier) :
    (c.extend s q).shape = c.shape.extend (.construct s.type) q := by
  unfold shape extend
  rw [List.map_append]
  rfl

theorem shape_extend_congr {c k : Context} {s t : Satisfaction} (q : Option Qualifier)
    (h : c.shape = k.shape) (hs : s.type = t.type) :
    (c.extend s q).shape = (k.extend t q).shape := by
  rw [shape_extend, shape_extend, h, hs]

end Context

/-! ## Matching -/

def shapes (frames : List (Nat × Frame)) : List (Nat × Frame) :=
  frames.map fun f => (f.1, f.2.shape)

variable {c : Catalog} {m : ElementMatcher} {e : PatternElement} {p : ContextPattern}

theorem ElementMatcher.runs_shapes : ∀ frames : List (Nat × Frame),
    m.runs c (shapes frames) = (m.runs c frames).map fun r => (r.1, shapes r.2)
  | [] => rfl
  | f :: fs => by
    have ih := runs_shapes fs
    have hmark : m.mark? c f.1 f.2.shape = m.mark? c f.1 f.2 := rfl
    unfold shapes at ih ⊢
    rw [List.map_cons, runs, runs, hmark]
    cases m.mark? c f.1 f.2 with
    | none => rfl
    | some marks =>
      dsimp only
      rw [ih, List.map_cons, List.map_map, List.map_map]
      rfl

theorem PatternElement.takes_shapes (frames : List (Nat × Frame)) :
    e.takes c (shapes frames) = (e.takes c frames).map fun r => (r.1, shapes r.2) := by
  unfold takes
  cases e.multiplicity with
  | zeroOrMore => exact e.matcher.runs_shapes frames
  | one =>
    cases frames with
    | nil => rfl
    | cons f fs =>
      have hmark : e.matcher.mark? c f.1 f.2.shape = e.matcher.mark? c f.1 f.2 := rfl
      show ((e.matcher.mark? c f.1 f.2.shape).map (·, shapes fs)).toList =
        (((e.matcher.mark? c f.1 f.2).map (·, fs)).toList).map fun r => (r.1, shapes r.2)
      rw [hmark]
      cases e.matcher.mark? c f.1 f.2 <;> rfl

namespace ContextPattern

theorem walk_shapes {depth : Nat} : ∀ (es : List PatternElement) (frames : List (Nat × Frame))
    (marks : List MatchedFrame) (best : Option ContextMatch),
    walk c depth es (shapes frames) marks best = walk c depth es frames marks best
  | [], _, _, _ => rfl
  | e :: es, frames, marks, best => by
    unfold walk
    rw [e.takes_shapes, List.foldl_map]
    simp only [walk_shapes es]

theorem suffixes_map {α β : Type} (f : α → β) :
    ∀ as : List α, suffixes (as.map f) = (suffixes as).map (List.map f)
  | [] => rfl
  | a :: as => by
    rw [List.map_cons, suffixes, suffixes, suffixes_map f as, List.map_append]
    rfl

theorem inwards_shape (frames : List Frame) :
    inwards (frames.map Frame.shape) = shapes (inwards frames) := by
  unfold inwards shapes
  rw [List.zipIdx_map, List.map_map, List.map_reverse, List.map_map]
  rfl

theorem match?_shape (frames : List Frame) :
    p.match? c (frames.map Frame.shape) = p.match? c frames := by
  have hstarts : p.starts (frames.map Frame.shape) = (p.starts frames).map shapes := by
    unfold starts
    rw [inwards_shape]
    split
    · rfl
    · exact suffixes_map _ _
  unfold match?
  rw [hstarts, List.foldl_map, List.length_map]
  simp only [walk_shapes]

end ContextPattern

theorem candidates_of_shape {context k : Context} (h : context.shape = k.shape)
    (groups : List RuleGroup) (d : Desire) (applied : List Rule) :
    candidates groups c context d applied = candidates groups c k d applied := by
  have hframes : context.frames.map Frame.shape = k.frames.map Frame.shape :=
    congrArg Context.frames h
  unfold candidates
  refine congrArg (fun f => groups.flatMap f) (funext fun g => ?_)
  rw [← g.pattern.match?_shape, hframes, g.pattern.match?_shape]

end Wiring
