import Wiring.Proofs.Context.Search
import Mathlib.Data.List.Induction

/-!
# Nested patterns

A pattern of matchers one within the other takes the innermost frames it can: the last matcher the
innermost frame it accepts, the one before it the next such frame further out. So to ask for one
more frame around does not move the frames inside, and makes the match better.
-/

namespace Wiring.ContextPattern

/-- Any context with a frame for each of the matchers, each below the one before. -/
def nested (ms : List ElementMatcher) : ContextPattern := ms.foldl within any

def spaced : List ElementMatcher → List PatternElement
  | [] => []
  | m :: ms => ⟨m, .one⟩ :: (if ms.isEmpty then [] else [⟨.any, .zeroOrMore⟩]) ++ spaced ms

/-- Each matcher takes a frame, innermost first, with any frames left out. -/
inductive Picks (c : Catalog) :
    List ElementMatcher → List (Nat × Frame) → List MatchedFrame → Prop
  | nil (frames : List (Nat × Frame)) : Picks c [] frames []
  | take {m : ElementMatcher} {ms : List ElementMatcher} {f : Nat × Frame}
      {fs : List (Nat × Frame)} {marks : List MatchedFrame} : m.Accepts c f.2 →
      Picks c ms fs marks → Picks c (m :: ms) (f :: fs) (m.record c f ++ marks)
  | skip {ms : List ElementMatcher} {fs : List (Nat × Frame)} {marks : List MatchedFrame}
      (f : Nat × Frame) : Picks c ms fs marks → Picks c ms (f :: fs) marks

/-- Each matcher takes the first frame that it accepts after the ones taken already. -/
inductive Nearest (c : Catalog) :
    List ElementMatcher → List (Nat × Frame) → List MatchedFrame → Prop
  | nil (frames : List (Nat × Frame)) : Nearest c [] frames []
  | hit {m : ElementMatcher} {ms : List ElementMatcher} {f : Nat × Frame}
      {fs : List (Nat × Frame)} {marks : List MatchedFrame} : m.Accepts c f.2 →
      Nearest c ms fs marks → Nearest c (m :: ms) (f :: fs) (m.record c f ++ marks)
  | miss {m : ElementMatcher} {ms : List ElementMatcher} {f : Nat × Frame}
      {fs : List (Nat × Frame)} {marks : List MatchedFrame} : ¬ m.Accepts c f.2 →
      Nearest c (m :: ms) fs marks → Nearest c (m :: ms) (f :: fs) marks

variable {c : Catalog} {m : ElementMatcher} {ms : List ElementMatcher} {fs : List (Nat × Frame)}
  {marks : List MatchedFrame}

/-! ## The matches of a nested pattern -/

theorem nested_append_singleton : nested (ms ++ [m]) = (nested ms).within m := by
  unfold nested
  rw [List.foldl_append]
  rfl

theorem anchored_nested (ms : List ElementMatcher) : (nested ms).anchored = false := by
  induction ms using List.reverseRecOn with
  | nil => rfl
  | append_singleton ms m _ =>
    rw [nested_append_singleton]
    rfl

theorem elements_nested (ms : List ElementMatcher) :
    (nested ms).elements.reverse = spaced ms.reverse := by
  induction ms using List.reverseRecOn with
  | nil => rfl
  | append_singleton ms m ih =>
    have hempty : (nested ms).elements.isEmpty = ms.reverse.isEmpty := by
      rw [← List.isEmpty_reverse, ih]
      cases ms.reverse <;> rfl
    have hspaced : spaced (ms ++ [m]).reverse =
        ⟨m, .one⟩ :: (if ms.reverse.isEmpty then [] else [⟨.any, .zeroOrMore⟩]) ++
          spaced ms.reverse := by
      rw [List.reverse_append]
      rfl
    rw [nested_append_singleton, hspaced, ← ih, ← hempty]
    unfold within
    cases (nested ms).elements.isEmpty <;> simp

theorem Picks.of_suffix {gs : List (Nat × Frame)} (h : Picks c ms fs marks) (hfs : fs <:+ gs) :
    Picks c ms gs marks := by
  obtain ⟨skipped, rfl⟩ := hfs
  induction skipped with
  | nil => exact h
  | cons f skipped ih => exact ih.skip f

theorem picks_nil_iff : Picks c [] fs marks ↔ marks = [] := by
  constructor
  · intro h
    generalize hms : ([] : List ElementMatcher) = ms at h
    induction h with
    | nil => rfl
    | take => cases hms
    | skip _ _ ih => exact ih hms
  · rintro rfl
    exact .nil _

theorem picks_cons_iff : Picks c (m :: ms) fs marks ↔ ∃ f rest more, f :: rest <:+ fs ∧
    m.Accepts c f.2 ∧ Picks c ms rest more ∧ m.record c f ++ more = marks := by
  constructor
  · intro h
    generalize hns : m :: ms = ns at h
    induction h with
    | nil => cases hns
    | @take _ _ f fs marks haccepts h =>
      cases hns
      exact ⟨f, fs, marks, List.suffix_refl _, haccepts, h, rfl⟩
    | skip g _ ih =>
      obtain ⟨f, rest, more, hsuffix, h⟩ := ih hns
      exact ⟨f, rest, more, hsuffix.trans (List.suffix_cons g _), h⟩
  · rintro ⟨f, rest, more, hsuffix, haccepts, h, rfl⟩
    exact (Picks.take haccepts h).of_suffix hsuffix

theorem flatMap_record_any (block : List (Nat × Frame)) :
    block.flatMap (ElementMatcher.any.record c) = [] :=
  List.flatMap_eq_nil_iff.mpr fun _ _ => rfl

theorem lays_nil_iff : Lays c [] fs marks ↔ marks = [] := by
  constructor
  · rintro ⟨⟩
    rfl
  · rintro rfl
    exact .nil fs

theorem lays_gap_iff {es : List PatternElement} :
    Lays c (⟨.any, .zeroOrMore⟩ :: es) fs marks ↔ ∃ rest, rest <:+ fs ∧ Lays c es rest marks := by
  constructor
  · intro h
    cases h with
    | @cons _ _ block rest marks _ h =>
      refine ⟨rest, List.suffix_append block rest, ?_⟩
      rwa [flatMap_record_any]
  · rintro ⟨rest, ⟨block, rfl⟩, h⟩
    have hfits : PatternElement.Fits ⟨.any, .zeroOrMore⟩ c block := ⟨fun _ _ => rfl, by simp⟩
    have hlays := Lays.cons hfits h
    rwa [flatMap_record_any] at hlays

theorem lays_one_iff {es : List PatternElement} :
    Lays c (⟨m, .one⟩ :: es) fs marks ↔ ∃ f rest more, f :: rest = fs ∧ m.Accepts c f.2 ∧
      Lays c es rest more ∧ m.record c f ++ more = marks := by
  constructor
  · intro h
    cases h with
    | @cons _ _ block rest marks hfits h =>
      obtain ⟨f, rfl⟩ := List.length_eq_one_iff.mp (hfits.single rfl)
      exact ⟨f, rest, marks, rfl, hfits.accepted f (.head _), h, by simp⟩
  · rintro ⟨f, rest, more, rfl, haccepts, h, rfl⟩
    have hfits : PatternElement.Fits ⟨m, .one⟩ c [f] := ⟨by simpa using haccepts, fun _ => rfl⟩
    simpa using Lays.cons hfits h

theorem lays_spaced_iff :
    (∃ rest, rest <:+ fs ∧ Lays c (spaced ms) rest marks) ↔ Picks c ms fs marks := by
  induction ms generalizing fs marks with
  | nil =>
    unfold spaced
    simp only [lays_nil_iff, picks_nil_iff]
    exact ⟨fun ⟨_, _, h⟩ => h, fun h => ⟨fs, List.suffix_refl fs, h⟩⟩
  | cons m ms ih =>
    have hgap : ∀ rest more,
        Lays c ((if ms.isEmpty then [] else [⟨.any, .zeroOrMore⟩]) ++ spaced ms) rest more ↔
          Picks c ms rest more := by
      intro rest more
      cases ms with
      | nil => exact lays_nil_iff.trans picks_nil_iff.symm
      | cons => exact lays_gap_iff.trans ih
    unfold spaced
    simp only [List.cons_append, lays_one_iff, hgap, picks_cons_iff]
    constructor
    · rintro ⟨_, hrest, f, rest, more, rfl, h⟩
      exact ⟨f, rest, more, hrest, h⟩
    · rintro ⟨f, rest, more, hrest, h⟩
      exact ⟨f :: rest, hrest, f, rest, more, rfl, h⟩

theorem found_nested (ms : List ElementMatcher) (c : Catalog) (frames : List Frame) :
    (nested ms).found c frames =
      {m | ∃ marks, Picks c ms.reverse (inwards frames) marks ∧ m = ⟨marks, frames.length⟩} := by
  have hstarts : (nested ms).starts frames = suffixes (inwards frames) := by
    unfold starts
    rw [anchored_nested]
    rfl
  unfold found
  rw [hstarts, elements_nested]
  ext m
  simp only [mem_suffixes, ← lays_spaced_iff, Set.mem_ofPred_eq]
  constructor
  · rintro ⟨fs, hfs, marks, h, rfl⟩
    exact ⟨marks, ⟨fs, hfs, h⟩, rfl⟩
  · rintro ⟨marks, ⟨fs, hfs, h⟩, rfl⟩
    exact ⟨fs, hfs, marks, h, rfl⟩

/-! ## The nearest frames -/

theorem Nearest.picks (h : Nearest c ms fs marks) : Picks c ms fs marks := by
  induction h with
  | nil => exact .nil _
  | hit haccepts _ ih => exact .take haccepts ih
  | miss _ _ ih => exact .skip _ ih

theorem Picks.nearest (h : Picks c ms fs marks) : ∃ nearest, Nearest c ms fs nearest := by
  induction fs generalizing ms marks with
  | nil =>
    cases h
    exact ⟨[], .nil _⟩
  | cons f fs ih =>
    cases ms with
    | nil => exact ⟨[], .nil _⟩
    | cons m ms =>
      obtain ⟨g, rest, more, hrest, haccepts, hmore, -⟩ := picks_cons_iff.mp h
      -- whichever frame `m` took, the others are all taken after the first
      have htail : rest <:+ fs := by
        rcases List.suffix_cons_iff.mp hrest with heq | hrest
        · cases heq
          exact List.suffix_refl _
        · exact (List.suffix_cons g rest).trans hrest
      by_cases hf : m.Accepts c f.2
      · obtain ⟨nearest, hnearest⟩ := ih (hmore.of_suffix htail)
        exact ⟨_, .hit hf hnearest⟩
      · cases h with
        | take hm => exact absurd hm hf
        | skip _ h =>
          obtain ⟨nearest, hnearest⟩ := ih h
          exact ⟨nearest, .miss hf hnearest⟩

theorem Nearest.of_append (h : Nearest c (ms ++ [m]) fs marks) :
    ∃ inner g, m.Accepts c g.2 ∧ Nearest c ms fs inner ∧ marks = inner ++ m.record c g := by
  generalize hns : ms ++ [m] = ns at h
  induction h generalizing ms with
  | nil => simp at hns
  | @hit n _ f _ _ haccepts h ih =>
    cases ms with
    | nil =>
      cases hns
      cases h
      exact ⟨[], f, haccepts, .nil _, by simp⟩
    | cons =>
      cases hns
      obtain ⟨inner, g, hg, hinner, rfl⟩ := ih rfl
      exact ⟨_, g, hg, .hit haccepts hinner, by simp⟩
  | miss hf _ ih =>
    cases ms with
    | nil =>
      obtain ⟨inner, g, hg, hinner, rfl⟩ := ih hns
      cases hinner
      exact ⟨[], g, hg, .nil _, rfl⟩
    | cons =>
      obtain ⟨inner, g, hg, hinner, rfl⟩ := ih hns
      cases hns
      exact ⟨inner, g, hg, .miss hf hinner, rfl⟩

theorem record_of_accepts {f : Nat × Frame} (hm : m.isUniversal = false) (h : m.Accepts c f.2) :
    ∃ d, m.record c f = [⟨f.1, d, m.qualifier.priority⟩] := by
  obtain ⟨d, hd⟩ := Option.isSome_iff_exists.mp h
  exact ⟨d, by simp [ElementMatcher.record, hm, hd]⟩

open ContextMatch in
theorem Nearest.closest {nearest : List MatchedFrame} {depth : Nat} (h : Nearest c ms fs nearest)
    (hpicks : Picks c ms fs marks) (hms : ∀ m ∈ ms, m.isUniversal = false)
    (hfs : fs.Pairwise fun f g => g.1 < f.1) (hdepth : ∀ f ∈ fs, f.1 < depth) :
    (closer (distances ⟨nearest, depth⟩) (distances ⟨marks, depth⟩)).isLE := by
  induction h generalizing marks with
  | nil =>
    rw [picks_nil_iff.mp hpicks]
    rfl
  | @hit m ms f fs nearest haccepts _ ih =>
    obtain ⟨hm, hms⟩ := List.forall_mem_cons.mp hms
    obtain ⟨hbelow, hfs⟩ := List.pairwise_cons.mp hfs
    obtain ⟨hf, hdepth⟩ := List.forall_mem_cons.mp hdepth
    obtain ⟨g, rest, more, hrest, hg, hmore, rfl⟩ := picks_cons_iff.mp hpicks
    obtain ⟨d, hd⟩ := record_of_accepts hm haccepts
    obtain ⟨k, hk⟩ := record_of_accepts hm hg
    have hfirst : closer (distances ⟨m.record c f ++ nearest, depth⟩)
        (distances ⟨m.record c g ++ more, depth⟩) =
          (compare (depth - 1 - f.1) (depth - 1 - g.1)).then
            (closer (distances ⟨nearest, depth⟩) (distances ⟨more, depth⟩)) := by
      rw [hd, hk]
      exact closer_cons _ _ _ _
    rw [hfirst]
    rcases List.suffix_cons_iff.mp hrest with heq | hrest
    · cases heq
      rw [Nat.compare_eq_eq.mpr rfl]
      exact ih hmore hms hfs hdepth
    · have hlt : depth - 1 - f.1 < depth - 1 - g.1 := by
        have := hbelow g (hrest.subset (.head _))
        omega
      rw [Nat.compare_eq_lt.mpr hlt]
      rfl
  | miss hf _ ih =>
    cases hpicks with
    | take haccepts => exact absurd haccepts hf
    | skip _ hpicks =>
      exact ih hpicks hms (List.pairwise_cons.mp hfs).2 (List.forall_mem_cons.mp hdepth).2

theorem map_fst_inwards (frames : List Frame) :
    (inwards frames).map (·.1) = (List.range frames.length).reverse := by
  unfold inwards
  rw [List.map_reverse, List.map_map, List.range_eq_range']
  exact congrArg List.reverse (List.zipIdx_map_snd 0 frames)

theorem pairwise_inwards (frames : List Frame) :
    (inwards frames).Pairwise fun f g => g.1 < f.1 := by
  have h : ((inwards frames).map (·.1)).Pairwise fun i j => j < i := by
    rw [map_fst_inwards, List.pairwise_reverse]
    exact List.pairwise_lt_range
  exact List.pairwise_map.mp h

theorem lt_of_mem_inwards {frames : List Frame} {f : Nat × Frame} (h : f ∈ inwards frames) :
    f.1 < frames.length := by
  have hmem := List.mem_map_of_mem (f := (·.1)) h
  rw [map_fst_inwards] at hmem
  simpa using hmem

/-! ## One matcher more -/

open ContextMatch in
/-- A nested pattern that asks for one more frame around is the better one where it matches. -/
theorem order_nested {frames : List Frame} (hms : ∀ n ∈ m :: ms, n.isUniversal = false)
    {a : ContextMatch} (ha : (nested (m :: ms)).match? c frames = some a) :
    ∃ b, (nested ms).match? c frames = some b ∧ order a b = .lt := by
  obtain ⟨hm, hms⟩ := List.forall_mem_cons.mp hms
  have hbest := isBest_match? (nested (m :: ms)) c frames
  rw [ha, found_nested, List.reverse_cons] at hbest
  obtain ⟨⟨marks, hmarks, rfl⟩, hleast⟩ := hbest
  obtain ⟨outer, houter⟩ := hmarks.nearest
  obtain ⟨inner, g, hg, hinner, rfl⟩ := houter.of_append
  obtain ⟨d, hd⟩ := record_of_accepts hm hg
  have hshorter := isBest_match? (nested ms) c frames
  rw [found_nested] at hshorter
  cases hb : (nested ms).match? c frames with
  | none =>
    rw [hb] at hshorter
    exact absurd ⟨inner, hinner.picks, rfl⟩ (Set.eq_empty_iff_forall_notMem.mp hshorter _)
  | some b =>
    rw [hb] at hshorter
    obtain ⟨⟨others, hothers, rfl⟩, -⟩ := hshorter
    refine ⟨_, rfl, order_eq_lt ?_⟩
    have hfirst := isLE_closer (hleast _ ⟨_, houter.picks, rfl⟩)
    have hlonger : closer (distances ⟨inner ++ m.record c g, frames.length⟩)
        (distances ⟨inner, frames.length⟩) = .lt := by
      rw [hd]
      unfold distances
      rw [List.map_append]
      exact closer_append_singleton _ _
    have hlast := hinner.closest hothers (by simpa using hms) (pairwise_inwards frames)
      fun f => lt_of_mem_inwards
    exact Std.TransCmp.lt_of_isLE_of_lt hfirst (Std.TransCmp.lt_of_lt_of_isLE hlonger hlast)

/-- Of two frames of one type the inner one is taken, whether the outer one is asked for or not. -/
theorem order_nested_repeated :
    let ms : List ElementMatcher := [.ofType (.named "A")]
    let frames := ["A", "C", "A", "B"].map fun n => (⟨.construct (.named n), none⟩ : Frame)
    ∃ b, (nested ms).match? ⟨[], []⟩ frames = some b ∧
      ContextMatch.order ⟨[⟨2, 0, 3⟩, ⟨0, 0, 3⟩], 4⟩ b = .lt := by
  exact order_nested (m := .ofType (.named "A")) (by decide) (by decide +kernel)

end Wiring.ContextPattern
