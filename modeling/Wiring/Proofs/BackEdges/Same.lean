import Wiring.Proofs.BackEdges
import Wiring.Proofs.Dag.Same
import Mathlib.Data.Multiset.Bind

/-!
# Back-edges that cannot be told apart

Two collections of back-edges hold the same if under equal heads both have equal edges, in whatever
order. Operations on them give collections that hold the same, also if entries come in one order in
the one and in another order in the other. One of them may have further entries: under their heads
even the order of the edges stays as long as no operation is about one of these heads.
-/

namespace Wiring.BackEdges

structure SameBackEdge (e f : GraphEdge) : Prop where
  head : Dag.SameNode e.head f.head
  tail : Dag.SameNode e.tail f.tail
  label : (e.label == f.label) = true

def SameEdges (es fs : List GraphEdge) : Prop :=
  Multiset.Rel SameBackEdge (es : Multiset GraphEdge) (fs : Multiset GraphEdge)

/-- Equal heads with equal edges, in any order. -/
structure SameEntry (e f : Graph × List GraphEdge) : Prop where
  head : Dag.SameNode e.1 f.1
  edges : SameEdges e.2 f.2

/-- Equal heads with equal edges under each of them; heads and edges in any order. -/
def Same (b b' : BackEdges) : Prop :=
  Multiset.Rel SameEntry (b.entries : Multiset (Graph × List GraphEdge)) b'.entries

structure SameInOrder (e f : Graph × List GraphEdge) : Prop where
  head : Dag.SameNode e.1 f.1
  edges : List.Forall₂ SameBackEdge e.2 f.2

def NoHead (entries : List (Graph × List GraphEdge)) (head : Graph) : Prop :=
  ∀ entry ∈ entries, (entry.1 == head) = false

def Distinct (entries : List (Graph × List GraphEdge)) : Prop :=
  entries.Pairwise fun e f => (e.1 == f.1) = false

/-- Entries as a hash map has them. -/
structure Keyed (entries : List (Graph × List GraphEdge)) : Prop where
  built : ∀ entry ∈ entries, entry.1.WellBuilt
  distinct : Distinct entries

variable {b b' b'' : BackEdges} {front entries entries' : List (Graph × List GraphEdge)}
  {entry entry' : Graph × List GraphEdge} {head head' : Graph} {e f g : GraphEdge}
  {es fs gs es' fs' : List GraphEdge} {change change' : List GraphEdge → List GraphEdge}
  {m m' : Dag.Memo Component Dependency} {order order' : Order}

/-! ## Members in any order -/

theorem rel_of_forall₂ {α β : Type} {R : α → β → Prop} {as : List α} {bs : List β}
    (h : List.Forall₂ R as bs) : Multiset.Rel R as bs := by
  induction h with
  | nil => exact .zero
  | cons hab _ ih => exact .cons hab ih

theorem exists_append_of_forall₂ {α β : Type} {R : α → β → Prop} {as bs : List α} :
    ∀ {cs : List β}, List.Forall₂ R (as ++ bs) cs →
      ∃ xs ys, cs = xs ++ ys ∧ List.Forall₂ R as xs ∧ List.Forall₂ R bs ys := by
  induction as with
  | nil => exact fun h => ⟨[], _, rfl, .nil, h⟩
  | cons a as ih =>
    intro cs h
    obtain ⟨x, rest, hax, hrest, rfl⟩ := List.forall₂_cons_left_iff.1 h
    obtain ⟨xs, ys, rfl, hxs, hys⟩ := ih hrest
    exact ⟨x :: xs, ys, rfl, .cons hax hxs, hys⟩

theorem SameBackEdge.trans (h : SameBackEdge e f) (h' : SameBackEdge f g) : SameBackEdge e g :=
  ⟨h.head.trans h'.head, h.tail.trans h'.tail, BEq.trans h.label h'.label⟩

theorem SameBackEdge.symm (h : SameBackEdge e f) : SameBackEdge f e :=
  ⟨h.head.symm, h.tail.symm, BEq.symm h.label⟩

instance : IsTrans GraphEdge SameBackEdge := ⟨fun _ _ _ => .trans⟩

theorem SameEdges.of_forall₂ (h : List.Forall₂ SameBackEdge es fs) : SameEdges es fs :=
  rel_of_forall₂ h

theorem SameEdges.of_perm (h : SameEdges es fs) (hes : es.Perm es') (hfs : fs.Perm fs') :
    SameEdges es' fs' := by
  unfold SameEdges
  rwa [← Multiset.coe_eq_coe.2 hes, ← Multiset.coe_eq_coe.2 hfs]

theorem SameEdges.append (h : SameEdges es fs) (h' : SameEdges es' fs') :
    SameEdges (es ++ es') (fs ++ fs') := by
  unfold SameEdges
  rw [← Multiset.coe_add, ← Multiset.coe_add]
  exact .add h h'

theorem SameEdges.trans (h : SameEdges es fs) (h' : SameEdges fs gs) : SameEdges es gs :=
  Multiset.Rel.trans _ h h'

theorem SameEdges.exists_left (h : SameEdges es fs) (he : e ∈ es) : ∃ f ∈ fs, SameBackEdge e f := by
  obtain ⟨f, hf, hef⟩ := Multiset.exists_mem_of_rel_of_mem h (Multiset.mem_coe.2 he)
  exact ⟨f, Multiset.mem_coe.1 hf, hef⟩

theorem SameEdges.symm (h : SameEdges es fs) : SameEdges fs es :=
  Multiset.Rel.mono (Multiset.rel_flip.2 h) fun _ _ _ _ => .symm

theorem SameEdges.refl_left (h : SameEdges es fs) (he : e ∈ es) : SameBackEdge e e := by
  obtain ⟨f, -, hef⟩ := h.exists_left he
  exact hef.trans hef.symm

theorem SameEdges.exists_right (h : SameEdges es fs) (hf : f ∈ fs) :
    ∃ e ∈ es, SameBackEdge e f := by
  obtain ⟨e, he, hef⟩ := Multiset.exists_mem_of_rel_of_mem (Multiset.rel_flip.2 h)
    (Multiset.mem_coe.2 hf)
  exact ⟨e, Multiset.mem_coe.1 he, hef⟩

theorem SameInOrder.same (h : SameInOrder entry entry') : SameEntry entry entry' :=
  ⟨h.head, .of_forall₂ h.edges⟩

/-! ## Keys -/

theorem noHead_iff : NoHead entries head ↔ (⟨entries⟩ : BackEdges).contains head = false := by
  unfold NoHead contains
  simp

theorem Keyed.left (h : Keyed (entries ++ entries')) : Keyed entries :=
  ⟨fun entry hentry => h.built entry (List.mem_append_left _ hentry),
    (List.pairwise_append.1 h.distinct).1⟩

theorem Keyed.append (h : Keyed front) (h' : Keyed entries)
    (hno : ∀ entry ∈ entries, NoHead front entry.1) : Keyed (front ++ entries) where
  built entry hentry := (List.mem_append.1 hentry).elim (h.built entry) (h'.built entry)
  distinct := List.pairwise_append.2 ⟨h.distinct, h'.distinct, fun e he f hf => hno f hf e he⟩

theorem NoHead.filter_eq (h : NoHead entries head) :
    (entries.filter fun e => e.1 == head) = [] :=
  List.filter_eq_nil_iff.2 fun entry hentry => by simp [h entry hentry]

theorem Keyed.filter_eq (h : Keyed entries) (hentry : entry ∈ entries)
    (hhead : (entry.1 == head) = true) : (entries.filter fun e => e.1 == head) = [entry] := by
  obtain ⟨before, after, rfl⟩ := List.append_of_mem hentry
  obtain ⟨-, hrest, hcross⟩ := List.pairwise_append.1 h.distinct
  have hback := Dag.beq_symm (h.built entry hentry) hhead
  have hbefore : NoHead before head := fun e he => Bool.eq_false_iff.2 fun hbeq => by
    have hapart := hcross e he entry List.mem_cons_self
    simp [Dag.beq_trans hbeq hback] at hapart
  have hafter : NoHead after head := fun e he => Bool.eq_false_iff.2 fun hbeq => by
    have hbuilt := h.built e (List.mem_append_right _ (List.mem_cons_of_mem _ he))
    have hapart := (List.pairwise_cons.1 hrest).1 e he
    simp [Dag.beq_trans hhead (Dag.beq_symm hbuilt hbeq)] at hapart
  rw [List.filter_append, hbefore.filter_eq, List.filter_cons, if_pos hhead, hafter.filter_eq]
  rfl

theorem edgesOf_eq_filter (entries : List (Graph × List GraphEdge)) (head : Graph) :
    (⟨entries⟩ : BackEdges).edgesOf head =
      ((entries.filter fun e => e.1 == head).head?.map (·.2)).getD [] := by
  rw [List.head?_filter]
  rfl

theorem Keyed.edgesOf (h : Keyed entries) (hentry : entry ∈ entries)
    (hhead : (entry.1 == head) = true) : (⟨entries⟩ : BackEdges).edgesOf head = entry.2 := by
  rw [edgesOf_eq_filter, h.filter_eq hentry hhead]
  rfl

theorem NoHead.edgesOf (h : NoHead entries head) : (⟨entries⟩ : BackEdges).edgesOf head = [] := by
  rw [edgesOf_eq_filter, h.filter_eq]
  rfl

def under (entries : List (Graph × List GraphEdge)) (head : Graph) : List GraphEdge :=
  (entries.filter fun e => e.1 == head).flatMap (·.2)

theorem under_append (entries entries' : List (Graph × List GraphEdge)) (head : Graph) :
    under (entries ++ entries') head = under entries head ++ under entries' head := by
  unfold under
  rw [List.filter_append, List.flatMap_append]

theorem under_perm (h : entries.Perm entries') (head : Graph) :
    (under entries head).Perm (under entries' head) :=
  (h.filter _).flatMap_right _

theorem Keyed.edgesOf_eq_under (h : Keyed entries) (head : Graph) :
    (⟨entries⟩ : BackEdges).edgesOf head = under entries head := by
  unfold under
  by_cases hno : NoHead entries head
  · rw [hno.edgesOf, hno.filter_eq]
    rfl
  · unfold NoHead at hno
    push Not at hno
    obtain ⟨entry, hentry, hhead⟩ := hno
    rw [h.edgesOf hentry (by simpa using hhead), h.filter_eq hentry (by simpa using hhead)]
    exact (List.append_nil _).symm

/-! ## Keys after an operation -/

theorem updateEntries_append (hno : NoHead front head) :
    updateEntries head change (front ++ entries) = front ++ updateEntries head change entries := by
  induction front with
  | nil => rfl
  | cons first rest ih =>
    have hfirst := hno first List.mem_cons_self
    rw [List.cons_append, updateEntries, if_neg (by simp [hfirst]),
      ih fun entry hentry => hno entry (List.mem_cons_of_mem _ hentry)]
    rfl

theorem updateEntries_new (hno : NoHead entries head) :
    updateEntries head change entries = entries ++ [(head, change [])] := by
  have h : updateEntries head change (entries ++ []) = _ := updateEntries_append hno
  rwa [List.append_nil] at h

theorem distinct_iff :
    Distinct entries ↔ (entries.map (·.1)).Pairwise fun h k => (h == k) = false := by
  rw [List.pairwise_map]
  exact Iff.rfl

theorem heads_updateEntries (head : Graph) (change : List GraphEdge → List GraphEdge)
    (entries : List (Graph × List GraphEdge)) :
    (updateEntries head change entries).map (·.1) = entries.map (·.1) ∨ NoHead entries head := by
  induction entries with
  | nil => exact .inr (by simp [NoHead])
  | cons first rest ih =>
    rw [updateEntries]
    split
    · exact .inl rfl
    · rename_i hfirst
      rcases ih with ih | ih
      · exact .inl (by rw [List.map_cons, List.map_cons, ih])
      · exact .inr (List.forall_mem_cons.2 ⟨by simpa using hfirst, ih⟩)

theorem Distinct.update (h : Distinct entries) (head : Graph)
    (change : List GraphEdge → List GraphEdge) : Distinct (updateEntries head change entries) := by
  rcases heads_updateEntries head change entries with hheads | hno
  · rw [distinct_iff] at h ⊢
    rwa [hheads]
  · rw [updateEntries_new hno]
    refine List.pairwise_append.2 ⟨h, List.pairwise_singleton .., fun e he f hf => ?_⟩
    rw [List.mem_singleton.1 hf]
    exact hno e he

theorem Keyed.update (h : Keyed entries) (hhead : head.WellBuilt)
    (change : List GraphEdge → List GraphEdge) : Keyed (updateEntries head change entries) where
  built := AllHeads.update (b := ⟨entries⟩) h.built hhead
  distinct := h.distinct.update head change

theorem contains_append (entries entries' : List (Graph × List GraphEdge)) (head : Graph) :
    (⟨entries ++ entries'⟩ : BackEdges).contains head =
      ((⟨entries⟩ : BackEdges).contains head || (⟨entries'⟩ : BackEdges).contains head) :=
  List.any_append

theorem contains_perm (h : entries.Perm entries') (head : Graph) :
    (⟨entries⟩ : BackEdges).contains head = (⟨entries'⟩ : BackEdges).contains head := by
  rw [Bool.eq_iff_iff, contains_iff, contains_iff]
  simp only [h.mem_iff]

theorem contains_same (h : List.Forall₂ SameEntry entries entries')
    (hhead : Dag.SameNode head head') :
    (⟨entries⟩ : BackEdges).contains head = (⟨entries'⟩ : BackEdges).contains head' := by
  unfold contains
  induction h with
  | nil => rfl
  | cons he _ ih => rw [List.any_cons, List.any_cons, ih, he.head.beq_congr hhead]

theorem contains_updateEntries (head k : Graph) (change : List GraphEdge → List GraphEdge)
    (entries : List (Graph × List GraphEdge)) :
    (⟨updateEntries head change entries⟩ : BackEdges).contains k =
      ((⟨entries⟩ : BackEdges).contains k || head == k) := by
  unfold contains
  induction entries with
  | nil => simp [updateEntries]
  | cons first rest ih =>
    rw [updateEntries]
    split
    · rename_i hfirst
      cases hk : head == k with
      | false => simp
      | true => simp [Dag.beq_trans hfirst hk]
    · simp only [List.any_cons] at ih ⊢
      rw [ih, Bool.or_assoc]

theorem distinct_rekey (b : BackEdges) (order : Order) (m : Dag.Memo Component Dependency) :
    Distinct (b.rekey order m).entries := by
  rw [rekey_eq]
  have hempty : Distinct empty.entries := .nil
  refine List.foldlRecOn (motive := fun found : BackEdges => Distinct found.entries) _ _ hempty ?_
  exact fun found hfound entry _ => hfound.update _ _

theorem keyed_rekey (himages : ∀ entry ∈ b.entries, (m.imageOf entry.1).WellBuilt) :
    Keyed (b.rekey order m).entries :=
  ⟨AllHeads.rekey himages, distinct_rekey b order m⟩

def movedEntry (m : Dag.Memo Component Dependency) (entry : Graph × List GraphEdge) :
    Graph × List GraphEdge :=
  (m.imageOf entry.1, entry.2.map (moved m entry.1))

theorem contains_rekey (b : BackEdges) (order : Order) (m : Dag.Memo Component Dependency)
    (k : Graph) :
    (b.rekey order m).contains k = (⟨b.entries.map (movedEntry m)⟩ : BackEdges).contains k := by
  have hfold : ∀ (entries : List (Graph × List GraphEdge)) (found : BackEdges),
      (entries.foldl (fun found entry =>
        found.append (m.imageOf entry.1) (entry.2.map (moved m entry.1))) found).contains k =
      (found.contains k || entries.any fun entry => m.imageOf entry.1 == k) := by
    intro entries
    induction entries with
    | nil => simp
    | cons entry rest ih =>
      intro found
      rw [List.foldl_cons, ih, List.any_cons, ← Bool.or_assoc]
      exact congrArg (· || _) (contains_updateEntries _ _ _ _)
  rw [rekey_eq, hfold, Bool.eq_iff_iff]
  simp [contains, empty, movedEntry]

theorem edgesOf_rekey_eq_under (himages : ∀ entry ∈ b.entries, (m.imageOf entry.1).WellBuilt)
    (k : Graph) : (b.rekey order m).edgesOf k =
      under ((order.arrange b.entries).map (movedEntry m)) k := by
  rw [edgesOf_rekey himages]
  unfold under
  generalize order.arrange b.entries = entries
  induction entries with
  | nil => rfl
  | cons entry rest ih =>
    rw [List.flatMap_cons, ih, List.map_cons, List.filter_cons]
    unfold movedEntry
    split <;> rfl

/-! ## The same answers -/

/-- In both the same heads are found, and under each of them the same edges. -/
structure SameAnswers (b b' : BackEdges) : Prop where
  left : Keyed b.entries
  right : Keyed b'.entries
  contains : ∀ k k', Dag.SameNode k k' → b.contains k = b'.contains k'
  edges : ∀ k k', Dag.SameNode k k' → SameEdges (b.edgesOf k) (b'.edgesOf k')

theorem SameAnswers.trans (h : SameAnswers b b') (h' : SameAnswers b' b'') :
    SameAnswers b b'' where
  left := h.left
  right := h'.right
  contains k _ hk := (h.contains k k (.refl hk.left)).trans (h'.contains k _ hk)
  edges k _ hk := (h.edges k k (.refl hk.left)).trans (h'.edges k _ hk)

theorem SameAnswers.symm (h : SameAnswers b b') : SameAnswers b' b where
  left := h.right
  right := h.left
  contains k k' hk := (h.contains k' k hk.symm).symm
  edges k k' hk := (h.edges k' k hk.symm).symm

theorem SameAnswers.of_front {rest : List (Graph × List GraphEdge)}
    (h : SameAnswers ⟨entries⟩ ⟨entries'⟩) (hkeyed : Keyed (entries ++ rest))
    (hrest : SameAnswers ⟨entries' ++ rest⟩ b) : SameAnswers ⟨entries ++ rest⟩ b := by
  refine ⟨hkeyed, hrest.right, fun k k' hk => ?_, fun k k' hk => ?_⟩
  · rw [← hrest.contains k k' hk, contains_append, contains_append,
      h.contains k k (.refl hk.left)]
  · have hfront := h.edges k k (.refl hk.left)
    have hall := hrest.edges k k' hk
    rw [h.left.edgesOf_eq_under, h.right.edgesOf_eq_under] at hfront
    rw [hrest.left.edgesOf_eq_under, under_append] at hall
    rw [hkeyed.edgesOf_eq_under, under_append]
    have hself : SameEdges (under rest k) (under rest k) :=
      Multiset.rel_refl_of_refl_on fun e he =>
        hall.refl_left (List.mem_append_right _ (Multiset.mem_coe.1 he))
    exact (hfront.append hself).trans hall

theorem SameAnswers.exists_right (h : SameAnswers b b') (hentry : entry ∈ b.entries) :
    ∃ entry' ∈ b'.entries, SameEntry entry entry' := by
  have hbuilt := h.left.built entry hentry
  have hcontains : b'.contains entry.1 = true := by
    rw [← h.contains _ _ (.refl hbuilt)]
    exact contains_iff.2 ⟨entry, hentry, Dag.same_refl _⟩
  obtain ⟨entry', hentry', hbeq⟩ := contains_iff.1 hcontains
  have hbuilt' := h.right.built entry' hentry'
  have hsame : Dag.SameNode entry.1 entry'.1 := ⟨Dag.beq_symm hbuilt' hbeq, hbuilt, hbuilt'⟩
  have hedges := h.edges _ _ hsame
  have hleft : b.edgesOf entry.1 = entry.2 := h.left.edgesOf hentry (Dag.same_refl _)
  have hright : b'.edgesOf entry'.1 = entry'.2 := h.right.edgesOf hentry' (Dag.same_refl _)
  rw [hleft, hright] at hedges
  exact ⟨entry', hentry', hsame, hedges⟩

theorem SameAnswers.exists_left (h : SameAnswers b b') (hentry' : entry' ∈ b'.entries) :
    ∃ entry ∈ b.entries, SameEntry entry entry' := by
  have hbuilt' := h.right.built entry' hentry'
  have hcontains : b.contains entry'.1 = true := by
    rw [h.contains _ _ (.refl hbuilt')]
    exact contains_iff.2 ⟨entry', hentry', Dag.same_refl _⟩
  obtain ⟨entry, hentry, hbeq⟩ := contains_iff.1 hcontains
  have hsame : Dag.SameNode entry.1 entry'.1 := ⟨hbeq, h.left.built entry hentry, hbuilt'⟩
  have hedges := h.edges _ _ hsame
  have hleft : b.edgesOf entry.1 = entry.2 := h.left.edgesOf hentry (Dag.same_refl _)
  have hright : b'.edgesOf entry'.1 = entry'.2 := h.right.edgesOf hentry' (Dag.same_refl _)
  rw [hleft, hright] at hedges
  exact ⟨entry, hentry, hsame, hedges⟩

theorem SameAnswers.exists_perm (h : SameAnswers b b') :
    ∃ entries, entries.Perm b'.entries ∧ List.Forall₂ SameEntry b.entries entries := by
  refine Dag.exists_perm_of_covers (h.left.distinct.imp_of_mem ?_)
    (h.right.distinct.imp_of_mem ?_) (fun _ => h.exists_right) fun _ => h.exists_left
  · intro e f _ _ hapart x he hf
    simp [(he.head.trans hf.head.symm).beq] at hapart
  · intro e f _ _ hapart x he hf
    simp [(he.head.symm.trans hf.head).beq] at hapart

theorem SameAnswers.same (h : SameAnswers b b') : b.Same b' := by
  obtain ⟨entries, hperm, hsame⟩ := h.exists_perm
  unfold Same
  rw [← Multiset.coe_eq_coe.2 hperm]
  exact rel_of_forall₂ hsame

/-! ## Further entries -/

/-- The second answers as the first with some entries in front. Under the heads of these the edges
have the order that they have there. -/
structure Joined (front : List (Graph × List GraphEdge)) (b b' : BackEdges) : Prop
    extends SameAnswers ⟨front ++ b.entries⟩ b' where
  inOrder : ∀ entry ∈ front, ∀ k, Dag.SameNode entry.1 k →
    List.Forall₂ SameBackEdge entry.2 (b'.edgesOf k)

theorem Joined.contains_eq (h : Joined front b b') (hhead : Dag.SameNode head head')
    (hno : NoHead front head) : b.contains head = b'.contains head' := by
  rw [← h.contains head head' hhead]
  unfold BackEdges.contains
  rw [List.any_append]
  show b.contains head = ((⟨front⟩ : BackEdges).contains head || b.contains head)
  rw [noHead_iff.1 hno, Bool.false_or]

theorem Joined.update (h : Joined front b b') (hhead : Dag.SameNode head head')
    (hno : NoHead front head)
    (hchange : ∀ es fs, SameEdges es fs → SameEdges (change es) (change' fs)) :
    Joined front ⟨updateEntries head change b.entries⟩
      ⟨updateEntries head' change' b'.entries⟩ := by
  have hleft : ∀ k, edgesOf ⟨front ++ updateEntries head change b.entries⟩ k =
      if head == k then change (edgesOf ⟨front ++ b.entries⟩ head)
      else edgesOf ⟨front ++ b.entries⟩ k := by
    intro k
    rw [← updateEntries_append hno]
    exact find?_updateEntries hhead.left h.left.built
  have hright : ∀ k, edgesOf ⟨updateEntries head' change' b'.entries⟩ k =
      if head' == k then change' (b'.edgesOf head') else b'.edgesOf k :=
    fun k => find?_updateEntries hhead.right h.right.built
  refine ⟨⟨?_, h.right.update hhead.right change', fun k k' hk => ?_, fun k k' hk => ?_⟩,
    fun entry hentry k hk => ?_⟩
  · rw [← updateEntries_append hno]
    exact h.left.update hhead.left change
  · rw [← updateEntries_append hno, contains_updateEntries, contains_updateEntries,
      hhead.beq_congr hk]
    exact congrArg (· || _) (h.contains k k' hk)
  · rw [hleft, hright, hhead.beq_congr hk]
    split
    · exact hchange _ _ (h.edges head head' hhead)
    · exact h.edges k k' hk
  · have hne : (head' == k) = false := by
      rw [← hhead.beq_congr hk, Bool.eq_false_iff]
      intro hbeq
      have hapart := hno entry hentry
      simp [Dag.beq_symm hhead.left hbeq] at hapart
    rw [hright, hne]
    exact h.inOrder entry hentry k hk

theorem Joined.append (h : Joined front b b') (hhead : Dag.SameNode head head')
    (hno : NoHead front head) (hes : SameEdges es fs) :
    Joined front (b.append head es) (b'.append head' fs) :=
  h.update hhead hno fun _ _ h => h.append hes

theorem Joined.set (h : Joined front b b') (hhead : Dag.SameNode head head')
    (hno : NoHead front head) (hes : SameEdges es fs) :
    Joined front (b.set head es) (b'.set head' fs) :=
  h.update hhead hno fun _ _ _ => hes

theorem joined_self (h : SameAnswers b b) : Joined b.entries empty b where
  toSameAnswers := by
    have hb : (⟨b.entries ++ empty.entries⟩ : BackEdges) = b :=
      congrArg BackEdges.mk (List.append_nil _)
    rwa [hb]
  inOrder entry hentry k hk := by
    have hedges : b.edgesOf k = entry.2 := h.left.edgesOf hentry hk.beq
    have hsame := h.edges k k (.refl hk.right)
    rw [hedges] at hsame ⊢
    exact List.forall₂_same.2 fun e he => hsame.refl_left he

theorem joined_empty : Joined [] empty empty := by
  refine joined_self ⟨⟨nofun, .nil⟩, ⟨nofun, .nil⟩, fun _ _ _ => rfl, fun _ _ _ => .zero⟩

/-! ## New keys -/

structure ImagesSame (m m' : Dag.Memo Component Dependency)
    (entries : List (Graph × List GraphEdge)) : Prop where
  head : ∀ entry ∈ entries, ∀ k, Dag.SameNode entry.1 k →
    Dag.SameNode (m.imageOf entry.1) (m'.imageOf k)
  tail : ∀ entry ∈ entries, ∀ e ∈ entry.2, ∀ t, Dag.SameNode e.tail t →
    Dag.SameNode (m.imageOf e.tail) (m'.imageOf t)

structure Kept (m' : Dag.Memo Component Dependency) (front : List (Graph × List GraphEdge)) :
    Prop where
  images : ImagesSame .empty m' front
  fits : ∀ entry ∈ front, ∀ e ∈ entry.2, Dag.SameNode e.head entry.1

theorem SameEntry.moved (h : SameEntry entry entry') (himages : ImagesSame m m' entries)
    (hmem : entry ∈ entries) : SameEntry (movedEntry m entry) (movedEntry m' entry') := by
  have hhead := himages.head entry hmem _ h.head
  refine ⟨hhead, ?_⟩
  unfold movedEntry SameEdges
  rw [← Multiset.map_coe, ← Multiset.map_coe, Multiset.rel_map]
  refine h.edges.mono fun e he f _ hef => ⟨hhead, ?_, hef.label⟩
  exact himages.tail entry hmem e (Multiset.mem_coe.1 he) _ hef.tail

theorem SameInOrder.moved (h : SameInOrder entry entry') (hfront : Kept m' front)
    (hmem : entry ∈ front) : SameInOrder entry (movedEntry m' entry') := by
  have hhead : Dag.SameNode entry.1 (m'.imageOf entry'.1) :=
    hfront.images.head entry hmem _ h.head
  refine ⟨hhead, ?_⟩
  unfold movedEntry
  rw [List.forall₂_map_right_iff]
  refine ((List.forall₂_and_left _ _).2 ⟨fun _ he => he, h.edges⟩).imp fun e f ⟨he, hef⟩ => ?_
  exact ⟨(hfront.fits entry hmem e he).trans hhead, hfront.images.tail entry hmem e he _ hef.tail,
    hef.label⟩

theorem under_same (h : List.Forall₂ SameEntry entries entries')
    (hhead : Dag.SameNode head head') : SameEdges (under entries head) (under entries' head') := by
  unfold under
  induction h with
  | nil => exact .zero
  | @cons entry entry' _ _ hentry _ ih =>
    rw [List.filter_cons, List.filter_cons, hentry.head.beq_congr hhead]
    split
    · exact hentry.edges.append ih
    · exact ih

theorem Joined.exists_split (h : Joined front b b') :
    ∃ xs ys, (xs ++ ys).Perm b'.entries ∧ List.Forall₂ SameInOrder front xs ∧
      List.Forall₂ SameEntry b.entries ys := by
  obtain ⟨entries, hperm, hsame⟩ := h.exists_perm
  obtain ⟨xs, ys, rfl, hxs, hys⟩ := exists_append_of_forall₂ hsame
  have hmem : ∀ x ∈ xs, x ∈ b'.entries := fun x hx => hperm.subset (List.mem_append_left ys hx)
  refine ⟨xs, ys, hperm, ?_, hys⟩
  have hmembers : List.Forall₂ (fun e x => e ∈ front ∧ x ∈ b'.entries ∧ SameEntry e x) front xs :=
    (List.forall₂_and_left _ _).2
      ⟨fun _ he => he, ((List.forall₂_and_left _ _).2 ⟨hmem, hxs.flip⟩).flip⟩
  refine hmembers.imp fun e x ⟨he, hx, hex⟩ => ⟨hex.head, ?_⟩
  have hedges : b'.edgesOf x.1 = x.2 := h.right.edgesOf hx (Dag.same_refl _)
  rw [← hedges]
  exact h.inOrder e he x.1 hex.head

theorem under_front {xs ys : List (Graph × List GraphEdge)} (hfront : Keyed front)
    (hentry : entry ∈ front) (hhead : Dag.SameNode entry.1 head)
    (hxs : List.Forall₂ SameInOrder front xs) (hno : NoHead ys head)
    (hperm : entries.Perm (xs ++ ys)) :
    List.Forall₂ SameBackEdge entry.2 (under entries head) := by
  have hfilter : List.Forall₂ SameInOrder (front.filter fun e => e.1 == entry.1)
      (xs.filter fun e => e.1 == head) :=
    List.rel_filter (fun _ _ hef => by simp only [hef.head.beq_congr hhead]) hxs
  rw [hfront.filter_eq hentry (Dag.same_refl _)] at hfilter
  obtain ⟨x, rest, hx, hrest, hone⟩ := List.forall₂_cons_left_iff.1 hfilter
  cases hrest
  have hsingle : (entries.filter fun e => e.1 == head).Perm [x] := by
    have hfiltered := hperm.filter fun e => e.1 == head
    rwa [List.filter_append, hno.filter_eq, hone, List.append_nil] at hfiltered
  unfold under
  rw [List.perm_singleton.1 hsingle, List.flatMap_singleton]
  exact hx.edges

theorem Joined.exists_moved (h : Joined front b b') (hfront : Kept m' front)
    (himages : ImagesSame m m' b.entries) :
    ∃ xs ys, (xs ++ ys).Perm (b'.entries.map (movedEntry m')) ∧
      List.Forall₂ SameInOrder front xs ∧
      List.Forall₂ SameEntry (b.entries.map (movedEntry m)) ys := by
  obtain ⟨xs, ys, hperm, hxs, hys⟩ := h.exists_split
  refine ⟨xs.map (movedEntry m'), ys.map (movedEntry m'), ?_, ?_, ?_⟩
  · rw [← List.map_append]
    exact hperm.map _
  · rw [List.forall₂_map_right_iff]
    exact ((List.forall₂_and_left _ _).2 ⟨fun _ he => he, hxs⟩).imp
      fun _ _ ⟨he, hsame⟩ => hsame.moved hfront he
  · rw [List.forall₂_map_left_iff, List.forall₂_map_right_iff]
    exact ((List.forall₂_and_left _ _).2 ⟨fun _ he => he, hys⟩).imp
      fun _ _ ⟨he, hsame⟩ => hsame.moved himages he

theorem Joined.rekey (h : Joined front b b') (hfront : Kept m' front)
    (himages : ImagesSame m m' b.entries)
    (hno : ∀ entry ∈ b.entries, NoHead front (m.imageOf entry.1)) :
    Joined front (b.rekey order m) (b'.rekey order' m') := by
  obtain ⟨xs, ys, hperm, hxs, hys⟩ := h.exists_moved hfront himages
  have hall : List.Forall₂ SameEntry (front ++ b.entries.map (movedEntry m)) (xs ++ ys) :=
    List.rel_append (hxs.imp fun _ _ h => h.same) hys
  have hleft : ∀ entry ∈ b.entries, (m.imageOf entry.1).WellBuilt := fun entry he =>
    (himages.head entry he _ (.refl (h.left.built entry (List.mem_append_right _ he)))).left
  have hright : ∀ entry ∈ b'.entries, (m'.imageOf entry.1).WellBuilt := by
    intro entry he
    obtain ⟨_, -, hsame⟩ := Dag.exists_of_forall₂ hall.flip _
      (hperm.symm.subset (List.mem_map_of_mem he))
    exact hsame.head.right
  have hmoved : ∀ k, (b'.rekey order' m').edgesOf k =
      under ((order'.arrange b'.entries).map (movedEntry m')) k := edgesOf_rekey_eq_under hright
  have hsplit : ((order'.arrange b'.entries).map (movedEntry m')).Perm (xs ++ ys) :=
    ((order'.perm _).map _).trans hperm.symm
  have hkeyed : Keyed (front ++ (b.rekey order m).entries) :=
    h.left.left.append (keyed_rekey hleft) (AllHeads.rekey hno)
  refine ⟨⟨hkeyed, keyed_rekey hright, fun k k' hk => ?_, fun k k' hk => ?_⟩,
    fun entry hentry k hk => ?_⟩
  · calc (⟨front ++ (b.rekey order m).entries⟩ : BackEdges).contains k
      _ = (⟨front ++ b.entries.map (movedEntry m)⟩ : BackEdges).contains k := by
        rw [contains_append, contains_append]
        exact congrArg _ (contains_rekey b order m k)
      _ = (⟨xs ++ ys⟩ : BackEdges).contains k' := contains_same hall hk
      _ = (⟨b'.entries.map (movedEntry m')⟩ : BackEdges).contains k' := contains_perm hperm k'
      _ = (b'.rekey order' m').contains k' := (contains_rekey b' order' m' k').symm
  · -- Either side has its edges in an order of its own, so they are compared as those of all entries.
    rw [hkeyed.edgesOf_eq_under, under_append, ← (keyed_rekey hleft).edgesOf_eq_under,
      hmoved]
    refine (under_same hall hk).of_perm ?_ (under_perm hsplit.symm k')
    rw [under_append]
    refine .append_left _ ?_
    show List.Perm _ ((b.rekey order m).edgesOf k)
    rw [edgesOf_rekey_eq_under hleft]
    exact under_perm ((order.perm _).symm.map _) k
  · -- No other entry comes under a head of `front`, so the order there cannot change.
    have hapart : NoHead ys k := fun y hy => by
      obtain ⟨_, hmoved, hsame⟩ := Dag.exists_of_forall₂ hys.flip y hy
      obtain ⟨e, he, rfl⟩ := List.mem_map.1 hmoved
      rw [← hsame.head.beq_congr hk, Bool.eq_false_iff]
      intro hbeq
      have hapart : (entry.1 == (movedEntry m e).1) = false := hno e he entry hentry
      simp [Dag.beq_symm hsame.head.left hbeq] at hapart
    rw [hmoved]
    exact under_front h.left.left hentry hk hxs hapart hsplit

end Wiring.BackEdges
