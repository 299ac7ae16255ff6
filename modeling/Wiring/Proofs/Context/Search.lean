import Wiring.Context.Pattern
import Wiring.Proofs.Context.Order
import Mathlib.Data.Set.Lattice

/-!
# The search for a match

The elements of a pattern take blocks of frames, one element after the other. The search comes to
the match of every way to do so and to no other match, and of these it keeps the best.
-/

namespace Wiring

variable {c : Catalog} {e : PatternElement}

/-! ## One element -/

namespace ElementMatcher

variable {m : ElementMatcher}

def Accepts (m : ElementMatcher) (c : Catalog) (f : Frame) : Prop := (m.distance? c f).isSome

def record (m : ElementMatcher) (c : Catalog) (f : Nat × Frame) : List MatchedFrame :=
  if m.isUniversal then []
  else (m.distance? c f.2).toList.map fun d => ⟨f.1, d, m.qualifier.priority⟩

theorem mark?_of_accepts {f : Nat × Frame} (h : m.Accepts c f.2) :
    m.mark? c f.1 f.2 = some (m.record c f) := by
  obtain ⟨d, hd⟩ := Option.isSome_iff_exists.mp h
  simp [mark?, record, hd]

theorem mark?_of_not_accepts {f : Nat × Frame} (h : ¬ m.Accepts c f.2) :
    m.mark? c f.1 f.2 = none := by
  simpa [mark?, Accepts] using h

theorem mem_runs {fs rest : List (Nat × Frame)} {marks : List MatchedFrame} :
    (marks, rest) ∈ m.runs c fs ↔ ∃ block, block ++ rest = fs ∧ (∀ f ∈ block, m.Accepts c f.2) ∧
      block.flatMap (m.record c) = marks := by
  induction fs generalizing marks with
  | nil =>
    unfold runs
    constructor
    · rintro h
      obtain ⟨rfl, rfl⟩ := by simpa using h
      exact ⟨[], by simp⟩
    · rintro ⟨block, hfs, -, rfl⟩
      obtain ⟨rfl, rfl⟩ := by simpa using hfs
      simp
  | cons f fs ih =>
    unfold runs
    by_cases hf : m.Accepts c f.2
    · rw [mark?_of_accepts hf]
      simp only [List.mem_cons, List.mem_map, Prod.mk.injEq, Prod.exists]
      constructor
      · rintro (⟨rfl, rfl⟩ | ⟨marks, rest, h, rfl, rfl⟩)
        · exact ⟨[], by simp⟩
        · obtain ⟨block, rfl, haccepts, rfl⟩ := ih.mp h
          exact ⟨f :: block, rfl, List.forall_mem_cons.mpr ⟨hf, haccepts⟩, by simp⟩
      · rintro ⟨block, hfs, haccepts, rfl⟩
        cases block with
        | nil => exact .inl ⟨rfl, hfs⟩
        | cons g block =>
          obtain ⟨rfl, rfl⟩ := by simpa using hfs
          exact .inr ⟨_, rest, ih.mpr ⟨block, rfl, fun f h => haccepts f (.tail _ h), rfl⟩, by simp⟩
    · rw [mark?_of_not_accepts hf, List.mem_singleton, Prod.mk.injEq]
      constructor
      · rintro ⟨rfl, rfl⟩
        exact ⟨[], by simp⟩
      · rintro ⟨block, hfs, haccepts, rfl⟩
        cases block with
        | nil => exact ⟨rfl, hfs⟩
        | cons g block =>
          obtain ⟨rfl, -⟩ := by simpa using hfs
          exact absurd (haccepts g (.head _)) hf

end ElementMatcher

structure PatternElement.Fits (e : PatternElement) (c : Catalog) (block : List (Nat × Frame)) :
    Prop where
  accepted : ∀ f ∈ block, e.matcher.Accepts c f.2
  single : e.multiplicity = .one → block.length = 1

theorem PatternElement.mem_takes {fs rest : List (Nat × Frame)} {marks : List MatchedFrame} :
    (marks, rest) ∈ e.takes c fs ↔ ∃ block, block ++ rest = fs ∧ e.Fits c block ∧
      block.flatMap (e.matcher.record c) = marks := by
  unfold takes
  cases hm : e.multiplicity with
  | zeroOrMore =>
    rw [ElementMatcher.mem_runs]
    constructor
    · rintro ⟨block, hfs, haccepts, hmarks⟩
      exact ⟨block, hfs, ⟨haccepts, by simp [hm]⟩, hmarks⟩
    · rintro ⟨block, hfs, hfits, hmarks⟩
      exact ⟨block, hfs, hfits.accepted, hmarks⟩
  | one =>
    constructor
    · intro h
      cases fs with
      | nil => simp at h
      | cons f fs =>
        dsimp only at h
        by_cases hf : e.matcher.Accepts c f.2
        · rw [ElementMatcher.mark?_of_accepts hf] at h
          obtain ⟨rfl, rfl⟩ := by simpa using h
          exact ⟨[f], rfl, ⟨by simpa using hf, fun _ => rfl⟩, by simp⟩
        · rw [ElementMatcher.mark?_of_not_accepts hf] at h
          simp at h
    · rintro ⟨block, rfl, hfits, rfl⟩
      obtain ⟨f, rfl⟩ := List.length_eq_one_iff.mp (hfits.single hm)
      have hf := hfits.accepted f (.head _)
      simp [ElementMatcher.mark?_of_accepts hf]

/-! ## The search -/

namespace ContextPattern

/-- `es` may take frames from the first on and leave `marks`. -/
inductive Lays (c : Catalog) :
    List PatternElement → List (Nat × Frame) → List MatchedFrame → Prop
  | nil (frames : List (Nat × Frame)) : Lays c [] frames []
  | cons {e : PatternElement} {es : List PatternElement} {block rest : List (Nat × Frame)}
      {marks : List MatchedFrame} : e.Fits c block → Lays c es rest marks →
      Lays c (e :: es) (block ++ rest) (block.flatMap (e.matcher.record c) ++ marks)

end ContextPattern

namespace ContextMatch

def IsBest (found : Set ContextMatch) : Option ContextMatch → Prop
  | none => found = ∅
  | some m => m ∈ found ∧ ∀ k ∈ found, (order m k).isLE

variable {found : Set ContextMatch} {best : Option ContextMatch}

theorem IsBest.keep (h : IsBest found best) (m : ContextMatch) :
    IsBest (found ∪ {m}) (ContextMatch.keep best m) := by
  have hself : (order m m).isLE := Std.ReflCmp.isLE_rfl
  unfold ContextMatch.keep
  cases best with
  | none =>
    have hfound : found = ∅ := h
    subst hfound
    exact ⟨by simp, by simpa using hself⟩
  | some n =>
    obtain ⟨hn, hleast⟩ := h
    dsimp only
    split
    · next hlt =>
      have hle : (order m n).isLE := Ordering.isLE_of_eq_lt (Ordering.isLT_iff_eq_lt.mp hlt)
      refine ⟨.inr rfl, ?_⟩
      rintro k (hk | rfl)
      · exact Std.TransCmp.isLE_trans hle (hleast k hk)
      · exact hself
    · next hge =>
      have hle : (order n m).isLE :=
        isLE_of_ne_lt fun hlt => hge (Ordering.isLT_iff_eq_lt.mpr hlt)
      refine ⟨.inl hn, ?_⟩
      rintro k (hk | rfl)
      · exact hleast k hk
      · exact hle

theorem IsBest.foldl {α : Type} {f : Option ContextMatch → α → Option ContextMatch}
    {added : α → Set ContextMatch}
    (hf : ∀ {found best} (a : α), IsBest found best → IsBest (found ∪ added a) (f best a))
    (h : IsBest found best) (as : List α) :
    IsBest (found ∪ {m | ∃ a ∈ as, m ∈ added a}) (as.foldl f best) := by
  induction as generalizing found best with
  | nil => simpa using h
  | cons a as ih =>
    have hrounds : found ∪ {m | ∃ b ∈ a :: as, m ∈ added b} =
        found ∪ added a ∪ {m | ∃ b ∈ as, m ∈ added b} := by
      ext m
      simp [or_assoc]
    rw [hrounds]
    exact ih (hf a h)

end ContextMatch

namespace ContextPattern

theorem isBest_walk {depth : Nat} (es : List PatternElement) {fs : List (Nat × Frame)}
    {marks : List MatchedFrame} {found : Set ContextMatch} {best : Option ContextMatch}
    (h : ContextMatch.IsBest found best) :
    ContextMatch.IsBest (found ∪ {m | ∃ more, Lays c es fs more ∧ m = ⟨marks ++ more, depth⟩})
      (walk c depth es fs marks best) := by
  induction es generalizing fs marks found best with
  | nil =>
    unfold walk
    convert h.keep _ using 2
    ext m
    constructor
    · rintro ⟨more, h, rfl⟩
      cases h
      simp
    · rintro rfl
      exact ⟨[], .nil _, by simp⟩
  | cons e es ih =>
    unfold walk
    convert ContextMatch.IsBest.foldl
      (fun (t : List MatchedFrame × List (Nat × Frame)) => ih) h (e.takes c fs) using 2
    ext m
    constructor
    · rintro ⟨more, h, rfl⟩
      cases h with
      | @cons _ _ block rest marks hfits h =>
        refine ⟨(_, rest), PatternElement.mem_takes.mpr ⟨block, rfl, hfits, rfl⟩, marks, h, ?_⟩
        simp
    · rintro ⟨⟨taken, rest⟩, ht, more, h, rfl⟩
      obtain ⟨block, rfl, hfits, rfl⟩ := PatternElement.mem_takes.mp ht
      exact ⟨_, .cons hfits h, by simp⟩

theorem mem_suffixes {α : Type} {as s : List α} : s ∈ suffixes as ↔ s <:+ as := by
  induction as with
  | nil => simp [suffixes]
  | cons a as ih =>
    unfold suffixes
    rw [List.mem_append, ih, List.mem_singleton, List.suffix_cons_iff, or_comm]

/-- The matches of all the ways in which the elements of `p` may take frames. -/
def found (p : ContextPattern) (c : Catalog) (frames : List Frame) : Set ContextMatch :=
  {m | ∃ fs ∈ p.starts frames, ∃ marks, Lays c p.elements.reverse fs marks ∧
    m = ⟨marks, frames.length⟩}

theorem isBest_match? (p : ContextPattern) (c : Catalog) (frames : List Frame) :
    ContextMatch.IsBest (p.found c frames) (p.match? c frames) := by
  have hnone : ContextMatch.IsBest ∅ none := rfl
  unfold match?
  convert ContextMatch.IsBest.foldl (fun (fs : List (Nat × Frame)) =>
    isBest_walk p.elements.reverse) hnone (p.starts frames) using 2
  simp [found]

end ContextPattern

end Wiring
