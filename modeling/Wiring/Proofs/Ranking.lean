import Wiring.Proofs.Context.Alignment
import Wiring.Proofs.Selection
import Mathlib.Data.Nat.PSub

/-!
# The ranking of candidates

The matches that arise in one context are linearly ordered, and only matches of the same frames are
equally good. So candidates can be sorted, and those at the front of the list that are as good as
the first are all the candidates that none beats.
-/

namespace Wiring

attribute [ext] MatchedFrame ContextMatch

variable {frames : List Frame}

/-! ## Matches of one context -/

namespace ContextPattern

variable {p : ContextPattern} {c : Catalog} {k : MatchedFrame}

theorem index_of_mem_record {m : ElementMatcher} {f : Nat × Frame} (h : k ∈ m.record c f) :
    k.index = f.1 := by
  unfold ElementMatcher.record at h
  split at h
  · cases h
  · obtain ⟨_, -, rfl⟩ := List.mem_map.mp h
    rfl

theorem Alignment.index_lt (a : Alignment p c frames) (h : k ∈ a.toMatch.frames) :
    k.index < frames.length := by
  obtain ⟨t, ht, hk⟩ := List.mem_flatMap.mp (List.mem_reverse.mp h)
  obtain ⟨f, hf, hk⟩ := List.mem_flatMap.mp hk
  have hmem : f ∈ frames.zipIdx.map fun f => (f.2, f.1) := by
    rw [← a.contiguous]
    exact List.mem_append_left _ (List.mem_append_right _ (List.mem_flatMap.mpr ⟨t, ht, hf⟩))
  obtain ⟨⟨g, i⟩, hi, rfl⟩ := List.mem_map.mp hmem
  rw [index_of_mem_record hk]
  exact List.snd_lt_of_mem_zipIdx hi

end ContextPattern

namespace ContextMatch

/-- The matches of all ways in which patterns align with the frames. -/
def arising (frames : List Frame) : Set ContextMatch :=
  {m | ∃ (p : ContextPattern) (c : Catalog) (a : ContextPattern.Alignment p c frames),
    a.toMatch = m}

variable {a b m : ContextMatch} {f : MatchedFrame}

theorem arising_of_match? {p : ContextPattern} {c : Catalog} (h : p.match? c frames = some m) :
    m ∈ arising frames := by
  have hbest := p.isBest_match? c frames
  rw [h, ContextPattern.found_eq] at hbest
  obtain ⟨⟨a, ha⟩, -⟩ := hbest
  exact ⟨p, c, a, ha⟩

theorem depth_of_arising (h : m ∈ arising frames) : m.contextDepth = frames.length := by
  obtain ⟨p, c, a, rfl⟩ := h
  rfl

theorem index_lt_of_arising (h : m ∈ arising frames) (hf : f ∈ m.frames) :
    f.index < m.contextDepth := by
  obtain ⟨p, c, a, rfl⟩ := h
  exact a.index_lt hf

theorem psub_of_arising (h : m ∈ arising frames) (hf : f ∈ m.frames) :
    (m.contextDepth.psub 1).bind (Nat.psub · f.index) = some (m.distanceToEnd f) := by
  have hindex := index_lt_of_arising h hf
  have hlast : m.contextDepth.psub 1 = some (m.contextDepth - 1) := Nat.psub_eq_sub (by omega)
  rw [hlast, Option.bind_some]
  exact Nat.psub_eq_sub (by omega)

theorem order_eq_eq_iff_of_arising (ha : a ∈ arising frames) (hb : b ∈ arising frames) :
    order a b = .eq ↔ a.frames = b.frames := by
  have hdepth : a.contextDepth = b.contextDepth :=
    (depth_of_arising ha).trans (depth_of_arising hb).symm
  rw [order_eq_eq_iff]
  constructor
  · rintro ⟨hdistances, htypes, hpriorities⟩
    have hlength : a.frames.length = b.frames.length := by
      simpa [distances] using congrArg List.length hdistances
    refine List.ext_getElem hlength fun i hi hi' => ?_
    have hdistance : a.distanceToEnd a.frames[i] = b.distanceToEnd b.frames[i] := by
      simpa [distances] using List.getElem_of_eq hdistances (by simpa [distances] using hi)
    have htype : a.frames[i].typeDistance = b.frames[i].typeDistance := by
      simpa [typeDistances] using List.getElem_of_eq htypes (by simpa [typeDistances] using hi)
    have hpriority : a.frames[i].qualifierPriority = b.frames[i].qualifierPriority := by
      simpa [priorities] using List.getElem_of_eq hpriorities (by simpa [priorities] using hi)
    -- a distance tells the place only because it did not stop at zero
    have hindex : a.frames[i].index = b.frames[i].index := by
      have := index_lt_of_arising ha (List.getElem_mem hi)
      have := index_lt_of_arising hb (List.getElem_mem hi')
      unfold distanceToEnd at hdistance
      omega
    exact MatchedFrame.ext hindex htype hpriority
  · intro h
    unfold distances typeDistances priorities distanceToEnd
    rw [h, hdepth]
    exact ⟨rfl, rfl, rfl⟩

theorem eq_of_order_eq (ha : a ∈ arising frames) (hb : b ∈ arising frames)
    (h : order a b = .eq) : a = b :=
  ContextMatch.ext ((order_eq_eq_iff_of_arising ha hb).mp h)
    ((depth_of_arising ha).trans (depth_of_arising hb).symm)

instance : IsLinearOrder (arising frames) (fun a b => (order a b).isLE) where
  refl _ := Std.ReflCmp.isLE_rfl
  trans _ _ _ := Std.TransCmp.isLE_trans
  antisymm a b hab hba :=
    Subtype.ext (eq_of_order_eq a.2 b.2 (Std.OrientedCmp.isLE_antisymm hab hba))
  total _ _ := isLE_or_isLE _ _

end ContextMatch

/-! ## Sorted candidates -/

namespace Candidate

variable {cs : List Candidate} {best j k : Candidate}

/-- The candidates, the best first. Of those that are equally good none overtakes another. -/
def ranked (cs : List Candidate) : List Candidate := cs.mergeSort fun j k => (j.order k).isLE

def front : List Candidate → List Candidate
  | [] => []
  | best :: others => best :: others.takeWhile fun k => k.order best == .eq

theorem leading_of_perm {ds : List Candidate} (h : ds.Perm cs) :
    leading ds = ds.filter (unbeaten cs) :=
  List.filter_congr fun _ _ => h.all_eq

theorem isLE_trans (i j k : Candidate) (hij : (i.order j).isLE) (hjk : (j.order k).isLE) :
    (i.order k).isLE := Std.TransCmp.isLE_trans hij hjk

theorem isLE_total (j k : Candidate) : (j.order k).isLE ∨ (k.order j).isLE :=
  isLE_or_isLE j k

theorem perm_ranked (cs : List Candidate) : (ranked cs).Perm cs := List.mergeSort_perm _ _

theorem pairwise_ranked (cs : List Candidate) :
    (ranked cs).Pairwise fun j k => (j.order k).isLE :=
  List.pairwise_mergeSort isLE_trans (by simpa using isLE_total) cs

theorem leading_ranked (cs : List Candidate) : leading (ranked cs) = leading cs := by
  have hsame : (leading cs).Pairwise fun j k => (j.order k).isLE := by
    refine List.pairwise_of_forall_mem_list fun j hj k hk => ?_
    rw [order_eq_of_leading hj hk]
    rfl
  have hsublist : (leading cs).Sublist (ranked cs) :=
    List.sublist_mergeSort isLE_trans (by simpa using isLE_total) hsame List.filter_sublist
  have hself : (leading cs).filter (unbeaten cs) = leading cs :=
    List.filter_eq_self.mpr fun k hk => (List.mem_filter.mp hk).2
  rw [leading_of_perm (perm_ranked cs)]
  symm
  apply List.Sublist.eq_of_length
  · rw [← hself]
    exact hsublist.filter _
  · exact ((perm_ranked cs).filter _).length_eq.symm

theorem takeWhile_eq_filter {others : List Candidate}
    (h : (best :: others).Pairwise fun j k => (j.order k).isLE) :
    (others.takeWhile fun k => k.order best == .eq) =
      others.filter fun k => k.order best == .eq := by
  induction others with
  | nil => rfl
  | cons k others ih =>
    obtain ⟨hbest, hsorted⟩ := List.pairwise_cons.mp h
    obtain ⟨hk, hothers⟩ := List.pairwise_cons.mp hsorted
    cases heq : k.order best == .eq with
    | true =>
      have hrest := ih (List.pairwise_cons.mpr ⟨fun j hj => hbest j (.tail _ hj), hothers⟩)
      simp only [List.takeWhile_cons, List.filter_cons, heq, hrest, if_true]
    | false =>
      have hnone : ∀ j ∈ others, ¬ (j.order best == .eq) = true := by
        intro j hj hjbest
        have hkbest : (k.order best).isLE := by
          refine isLE_trans k j best (hk j hj) ?_
          rw [eq_of_beq hjbest]
          rfl
        rw [Std.OrientedCmp.isLE_antisymm hkbest (hbest k (.head _))] at heq
        cases heq
      simp only [List.takeWhile_cons, List.filter_cons, heq, Bool.false_eq_true, if_false]
      exact (List.filter_eq_nil_iff.mpr hnone).symm

/-- Where `best` comes no later than any, what none beats is what is as good as `best`. -/
theorem unbeaten_iff_of_least (hbest : best ∈ cs) (hleast : ∀ k ∈ cs, (best.order k).isLE)
    (hk : k ∈ cs) : unbeaten cs k = true ↔ k.order best = .eq := by
  rw [unbeaten_iff]
  constructor
  · intro h
    exact Std.OrientedCmp.isLE_antisymm (isLE_of_ne_lt (h best hbest)) (hleast k hk)
  · intro heq j hj hjk
    exact Std.OrientedCmp.not_lt_of_isLE (hleast j hj) (Std.TransCmp.lt_of_lt_of_eq hjk heq)

theorem front_of_pairwise (h : cs.Pairwise fun j k => (j.order k).isLE) :
    front cs = leading cs := by
  cases cs with
  | nil => rfl
  | cons best others =>
    have hleast : ∀ k ∈ best :: others, (best.order k).isLE :=
      List.forall_mem_cons.mpr ⟨Std.ReflCmp.isLE_rfl, (List.pairwise_cons.mp h).1⟩
    calc front (best :: others)
        = best :: others.filter fun k => k.order best == .eq :=
          congrArg (best :: ·) (takeWhile_eq_filter h)
      _ = (best :: others).filter fun k => k.order best == .eq :=
          (List.filter_cons_of_pos (by simp [Std.ReflCmp.compare_self])).symm
      _ = (best :: others).filter (unbeaten (best :: others)) :=
          List.filter_congr fun k hk => by
            rw [Bool.eq_iff_iff, beq_iff_eq, unbeaten_iff_of_least (.head _) hleast hk]
      _ = leading (best :: others) := rfl

theorem front_ranked (cs : List Candidate) : front (ranked cs) = leading cs := by
  rw [front_of_pairwise (pairwise_ranked cs), leading_ranked]

instance : IsPreorder Candidate (fun j k => (j.order k).isLE) where
  refl _ := Std.ReflCmp.isLE_rfl
  trans := isLE_trans

instance : Std.Total (fun j k : Candidate => ((j.order k).isLE : Prop)) := ⟨isLE_total⟩

theorem order_eq_eq_iff : j.order k = .eq ↔ j.matched.order k.matched = .eq ∧
    j.rule.matcher.priority = k.rule.matcher.priority := by
  unfold order
  rw [Ordering.then_eq_eq, Nat.compare_eq_eq]

open ContextMatch (arising) in
/-- What a pattern is said to match with is one of the matches that arise in the context. In their
distances nothing is subtracted from less. They are linearly ordered, and equally good only with the
same frames. Candidates are totally preordered, those of one context equally good only with the same
frames and equally specific rules; and the front of the sorted list, which ties are looked for in,
is all that no candidate beats. -/
theorem ranking_total (frames : List Frame) :
    (∀ (p : ContextPattern) (c : Catalog) (m : ContextMatch),
      p.match? c frames = some m → m ∈ arising frames) ∧
    (∀ m ∈ arising frames, ∀ f ∈ m.frames,
      (m.contextDepth.psub 1).bind (Nat.psub · f.index) = some (m.distanceToEnd f)) ∧
    IsLinearOrder (arising frames) (fun a b => (a.1.order b).isLE) ∧
    (∀ a ∈ arising frames, ∀ b ∈ arising frames,
      a.order b = (b.order a).swap ∧ (a.order b = .eq ↔ a.frames = b.frames)) ∧
    IsPreorder Candidate (fun j k => (j.order k).isLE) ∧
    Std.Total (fun j k : Candidate => ((j.order k).isLE : Prop)) ∧
    (∀ j k : Candidate, j.matched ∈ arising frames → k.matched ∈ arising frames →
      j.order k = (k.order j).swap ∧
      (j.order k = .eq ↔ j.matched.frames = k.matched.frames ∧
        j.rule.matcher.priority = k.rule.matcher.priority)) ∧
    ∀ cs : List Candidate, front (ranked cs) = leading cs := by
  refine ⟨fun _ _ _ => ContextMatch.arising_of_match?,
    fun _ hm _ => ContextMatch.psub_of_arising hm, inferInstance,
    fun a ha b hb => ⟨Std.OrientedCmp.eq_swap, ?_⟩, inferInstance, inferInstance,
    fun j k hj hk => ⟨Std.OrientedCmp.eq_swap, ?_⟩, front_ranked⟩
  · exact ContextMatch.order_eq_eq_iff_of_arising ha hb
  · rw [order_eq_eq_iff, ContextMatch.order_eq_eq_iff_of_arising hj hk]

open ContextMatch (arising) in
/-- Matches of two frames, of one and of none, and a tie that sorting brings to the front. -/
theorem ranking_total_nested :
    let frames := ["A", "C", "A", "B"].map fun n => (⟨.construct (.named n), none⟩ : Frame)
    let inner : ContextMatch := ⟨[⟨3, 0, 3⟩], 4⟩
    let nested : ContextMatch := ⟨[⟨3, 0, 3⟩, ⟨2, 0, 3⟩], 4⟩
    let rule (target : String) : Rule :=
      ⟨.named "X", .default, .type (.named target), .noPreference, {}⟩
    (nested ∈ arising frames ∧ inner ∈ arising frames ∧ ⟨[], 4⟩ ∈ arising frames) ∧
      (Nat.psub 4 1).bind (Nat.psub · 2) = some (nested.distanceToEnd ⟨2, 0, 3⟩) ∧
      (nested.order ⟨[], 4⟩).isLE ∧ nested.order inner ≠ .eq ∧
      order ⟨inner, rule "Y"⟩ ⟨inner, rule "Z"⟩ = .eq ∧
      front (ranked [⟨⟨[], 4⟩, rule "X"⟩, ⟨inner, rule "Y"⟩, ⟨inner, rule "Z"⟩]) =
        [⟨inner, rule "Y"⟩, ⟨inner, rule "Z"⟩] := by
  intro frames inner nested rule
  obtain ⟨hgiven, hplaces, hlinear, hmatches, -, -, hcandidates, hfront⟩ := ranking_total frames
  have hany : ⟨[], 4⟩ ∈ arising frames := hgiven .any ⟨[], []⟩ _ (by decide +kernel)
  have hinner : inner ∈ arising frames :=
    hgiven (.within .any (.ofType (.named "B"))) ⟨[], []⟩ _ (by decide +kernel)
  have hnested : nested ∈ arising frames :=
    hgiven (.within (.within .any (.ofType (.named "A"))) (.ofType (.named "B"))) ⟨[], []⟩ _
      (by decide +kernel)
  refine ⟨⟨hnested, hinner, hany⟩, hplaces _ hnested ⟨2, 0, 3⟩ (by decide), ?_, ?_, ?_, ?_⟩
  · exact hlinear.trans ⟨nested, hnested⟩ ⟨inner, hinner⟩ ⟨_, hany⟩ rfl rfl
  · rw [Ne, (hmatches _ hnested _ hinner).2]
    decide
  · exact (hcandidates _ _ hinner hinner).2.mpr ⟨rfl, rfl⟩
  · exact (hfront _).trans rfl

end Candidate

end Wiring
