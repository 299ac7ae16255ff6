/-!
# Context matches

Which frames of a context a pattern took, and how good that is. Matches of one context are ordered
best first.
-/

namespace Wiring

structure MatchedFrame where
  /-- The place of the frame, counted from the root. -/
  index : Nat
  typeDistance : Nat
  qualifierPriority : Nat
deriving DecidableEq

/-- The frames taken, innermost first. -/
structure ContextMatch where
  frames : List MatchedFrame
  contextDepth : Nat
deriving DecidableEq

namespace ContextMatch

def distanceToEnd (m : ContextMatch) (f : MatchedFrame) : Nat := m.contextDepth - 1 - f.index

/-- The first difference of two lists decides; a list that ends early does not. -/
def pairwiseOrder : List Nat → List Nat → Ordering
  | a :: as, b :: bs => (compare a b).then (pairwiseOrder as bs)
  | _, _ => .eq

/-- Matches that take frames further in come first, then those that take more frames, then those
with smaller type distances, then those with more specific qualifier matchers. -/
def order (a b : ContextMatch) : Ordering :=
  (pairwiseOrder (a.frames.map a.distanceToEnd) (b.frames.map b.distanceToEnd)).then <|
  (compare b.frames.length a.frames.length).then <|
  (pairwiseOrder (a.frames.map (·.typeDistance)) (b.frames.map (·.typeDistance))).then <|
  pairwiseOrder (a.frames.map (·.qualifierPriority)) (b.frames.map (·.qualifierPriority))

instance : Ord ContextMatch := ⟨order⟩

/-- The best match so far, when `m` has been seen too. Of matches that are equally good the first
stays. -/
def keep (best : Option ContextMatch) (m : ContextMatch) : Option ContextMatch :=
  match best with
  | none => some m
  | some found => if (order m found).isLT then some m else some found

end ContextMatch

end Wiring
