import Wiring.Proofs.Context.Search

/-!
# Alignments

An alignment gives every element of a pattern a block of frames, next to one another and in order.
A pattern matches where it can be aligned, and its match is that of a best alignment.
-/

namespace Wiring.ContextPattern

variable {c : Catalog} {es : List PatternElement} {p : ContextPattern}

def recorded (c : Catalog) (taken : List (PatternElement × List (Nat × Frame))) :
    List MatchedFrame :=
  taken.flatMap fun t => t.2.flatMap (t.1.matcher.record c)

/-- The elements of `p` along a block of the frames, everything from the root inwards. -/
structure Alignment (p : ContextPattern) (c : Catalog) (frames : List Frame) where
  before : List (Nat × Frame)
  taken : List (PatternElement × List (Nat × Frame))
  after : List (Nat × Frame)
  elements : taken.map (·.1) = p.elements
  contiguous : before ++ taken.flatMap (·.2) ++ after = frames.zipIdx.map fun f => (f.2, f.1)
  fits : ∀ t ∈ taken, t.1.Fits c t.2
  anchored : p.anchored → after = []

def Alignment.toMatch {frames : List Frame} (a : Alignment p c frames) : ContextMatch :=
  ⟨(recorded c a.taken).reverse, frames.length⟩

theorem lays_iff {fs : List (Nat × Frame)} {marks : List MatchedFrame} :
    Lays c es fs marks ↔ ∃ taken : List (PatternElement × List (Nat × Frame)),
      taken.map (·.1) = es ∧ taken.flatMap (·.2) <+: fs ∧ (∀ t ∈ taken, t.1.Fits c t.2) ∧
        recorded c taken = marks := by
  constructor
  · intro h
    induction h with
    | nil => exact ⟨[], by simp [recorded]⟩
    | @cons e _ block _ _ hfits _ ih =>
      obtain ⟨taken, rfl, hprefix, hall, rfl⟩ := ih
      refine ⟨(e, block) :: taken, rfl, ?_, List.forall_mem_cons.mpr ⟨hfits, hall⟩, rfl⟩
      exact (List.prefix_append_right_inj block).mpr hprefix
  · rintro ⟨taken, rfl, ⟨rest, rfl⟩, hall, rfl⟩
    induction taken with
    | nil => exact .nil _
    | cons t taken ih =>
      obtain ⟨hfits, hall⟩ := List.forall_mem_cons.mp hall
      have h := Lays.cons hfits (ih hall)
      rwa [← List.append_assoc] at h

/-- The same elements with the same frames, read the other way round. -/
def turned : List (PatternElement × List (Nat × Frame)) →
    List (PatternElement × List (Nat × Frame))
  | [] => []
  | t :: taken => turned taken ++ [(t.1, t.2.reverse)]

variable {taken : List (PatternElement × List (Nat × Frame))}

theorem map_fst_turned : (turned taken).map (·.1) = (taken.map (·.1)).reverse := by
  induction taken with
  | nil => rfl
  | cons t taken ih => simp [turned, ih]

theorem flatMap_snd_turned : (turned taken).flatMap (·.2) = (taken.flatMap (·.2)).reverse := by
  induction taken with
  | nil => rfl
  | cons t taken ih => simp [turned, ih]

theorem fits_turned (h : ∀ t ∈ taken, t.1.Fits c t.2) : ∀ t ∈ turned taken, t.1.Fits c t.2 := by
  induction taken with
  | nil => simp [turned]
  | cons t taken ih =>
    obtain ⟨ht, hall⟩ := List.forall_mem_cons.mp h
    have hturned : t.1.Fits c t.2.reverse :=
      ⟨by simpa using ht.accepted, by simpa using ht.single⟩
    intro u hu
    rcases List.mem_append.mp hu with hu | hu
    · exact ih hall u hu
    · rwa [List.mem_singleton.mp hu]

theorem reverse_record {m : ElementMatcher} {f : Nat × Frame} :
    (m.record c f).reverse = m.record c f := by
  unfold ElementMatcher.record
  split
  · rfl
  · cases m.distance? c f.2 <;> rfl

theorem recorded_turned : recorded c (turned taken) = (recorded c taken).reverse := by
  unfold recorded
  induction taken with
  | nil => rfl
  | cons t taken ih =>
    simp [turned, ih, List.reverse_flatMap, Function.comp_def, reverse_record]

theorem found_eq (p : ContextPattern) (c : Catalog) (frames : List Frame) :
    p.found c frames = Set.range (Alignment.toMatch : Alignment p c frames → ContextMatch) := by
  ext m
  constructor
  · rintro ⟨fs, hfs, marks, h, rfl⟩
    obtain ⟨taken, helements, ⟨rest, rfl⟩, hall, rfl⟩ := lays_iff.mp h
    have hstart : ∃ skipped, skipped ++ (taken.flatMap (·.2) ++ rest) = inwards frames ∧
        (p.anchored → skipped = []) := by
      unfold starts at hfs
      split at hfs
      · exact ⟨[], List.mem_singleton.mp hfs, fun _ => rfl⟩
      · obtain ⟨skipped, h⟩ := mem_suffixes.mp hfs
        exact ⟨skipped, h, by simp [*]⟩
    obtain ⟨skipped, hframes, hanchored⟩ := hstart
    refine ⟨⟨rest.reverse, turned taken, skipped.reverse, ?_, ?_, fits_turned hall, ?_⟩, ?_⟩
    · rw [map_fst_turned, helements, List.reverse_reverse]
    · rw [flatMap_snd_turned]
      apply List.reverse_inj.mp
      simpa [inwards] using hframes
    · simpa using hanchored
    · simp [Alignment.toMatch, recorded_turned]
  · rintro ⟨a, rfl⟩
    refine ⟨(turned a.taken).flatMap (·.2) ++ a.before.reverse, ?_, _, ?_, rfl⟩
    · have hframes : a.after.reverse ++ ((turned a.taken).flatMap (·.2) ++ a.before.reverse) =
          inwards frames := by
        unfold inwards
        rw [← a.contiguous, flatMap_snd_turned]
        simp
      unfold starts
      split
      · next hanchored => simpa [a.anchored hanchored] using hframes
      · exact mem_suffixes.mpr ⟨_, hframes⟩
    · rw [lays_iff]
      refine ⟨turned a.taken, ?_, List.prefix_append _ _, fits_turned a.fits, recorded_turned⟩
      rw [map_fst_turned, a.elements]

/-- A pattern matches if it can be aligned with the context, and its match is that of one of the
best alignments. -/
theorem match?_spec (p : ContextPattern) (c : Catalog) (frames : List Frame) :
    ((p.match? c frames).isSome ↔ Nonempty (Alignment p c frames)) ∧
      ∀ m, p.match? c frames = some m → (∃ a : Alignment p c frames, a.toMatch = m) ∧
        ∀ a : Alignment p c frames, (ContextMatch.order m a.toMatch).isLE := by
  have hbest := isBest_match? p c frames
  rw [found_eq] at hbest
  cases hm : p.match? c frames with
  | none =>
    rw [hm] at hbest
    have hempty : IsEmpty (Alignment p c frames) := Set.range_eq_empty_iff.mp hbest
    simp [hempty]
  | some m =>
    rw [hm] at hbest
    obtain ⟨⟨a, ha⟩, hleast⟩ := hbest
    refine ⟨by simpa using ⟨a⟩, ?_⟩
    rintro _ ⟨⟩
    exact ⟨⟨a, ha⟩, fun a => hleast _ ⟨a, rfl⟩⟩

/-- Of a repeated frame the innermost is taken, here as one of its supertype. -/
theorem match?_spec_repeated :
    let c : Catalog :=
      ⟨[⟨.named "A", [.named "Service"], true, [], {}, .noPreference, none, none⟩], []⟩
    let p := (any.within (.ofType (.named "Service"))).within (.ofType (.named "B"))
    let frames := ["A", "C", "A", "B"].map fun n => (⟨.construct (.named n), none⟩ : Frame)
    ∃ a : Alignment p c frames, a.toMatch = ⟨[⟨3, 0, 3⟩, ⟨2, 1, 3⟩], 4⟩ :=
  ((match?_spec _ _ _).2 _ (by decide +kernel)).1

end Wiring.ContextPattern
