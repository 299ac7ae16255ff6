import Wiring.Proofs.Injector.Bookkeeping

/-!
# Makings side by side

A making is compared with a plain one: where the plain one ends, so does the other, and the outcomes
agree. What the two have in common before and after is up to the comparison, which says it for the
few things that a recipe does to an injector; there is one lemma for each function that recipes are
run by.
-/

namespace Wiring

open Making

variable {M : Type → Type} [Monad M] {S : Type} [Watchable M S] {α β γ δ : Type}

/-- Two injectors side by side, and what is seen besides on the left. -/
structure Sides (S : Type) where
  left : Injector
  besides : S
  right : Injector

namespace Sides

def withBooks (x : Sides S) (b : Books) : Sides S :=
  ⟨x.left.withBooks b, x.besides, x.right.withBooks b⟩

def asked (x : Sides S) (p q : Graph × BackEdges) : Sides S :=
  ⟨{ x.left with container := (x.left.container.makerFor p.1 p.2).2 }, x.besides,
    { x.right with container := (x.right.container.makerFor q.1 q.2).2 }⟩

end Sides

structure Comparison (S : Type) where
  Tied : Sides S → Prop
  /-- What may lie between two moments. -/
  Later : Sides S → Sides S → Prop
  Makers : Instantiator → Instantiator → Sides S → Prop
  /-- Nodes with the back-edges that are given with them. -/
  Nodes : Graph × BackEdges → Graph × BackEdges → Prop
  refl : ∀ x, Later x x
  trans : ∀ {x y z}, Later x y → Later y z → Later x z
  makers_later : ∀ {m m' x y}, Makers m m' x → Later x y → Makers m m' y
  type : ∀ {m m' x}, Makers m m' x → m.type = m'.type
  label : ∀ {p q}, Nodes p q → p.1.label = q.1.label
  catalog : ∀ {x}, Tied x → x.left.solver.settings.catalog = x.right.solver.settings.catalog
  dropped : ∀ {x}, Tied x → x.left.container.dropped = x.right.container.dropped
  books : ∀ {x}, Tied x → x.left.books = x.right.books
  withBooks : ∀ {x} (b : Books), Tied x → x.right.books.made ≤ b.made →
    Tied (x.withBooks b) ∧ Later x (x.withBooks b)
  asked : ∀ {x p q}, Tied x → Nodes p q → Tied (x.asked p q) ∧ Later x (x.asked p q) ∧
    Makers (x.left.container.makerFor p.1 p.2).1 (x.right.container.makerFor q.1 q.2).1
      (x.asked p q)

inductive Agree (R : α → β → Prop) : Attempt α → Attempt β → Prop
  | ok {a : α} {b : β} : R a b → Agree R (.ok a) (.ok b)
  | error (e : WiringError) : Agree R (.error e) (.error e)

namespace Comparison

variable {C : Comparison S} {x y : Sides S} {P : α → β → Sides S → Prop}
  {Q : γ → δ → Sides S → Prop} {t : MakingOver M α} {u : Making β} {f : α → MakingOver M γ}
  {g : β → Making δ}

/-- Where the plain making ends, so does the other, and the outcomes agree. -/
def Relates (C : Comparison S) (x : Sides S) (t : MakingOver M α) (u : Making β)
    (P : α → β → Sides S → Prop) : Prop :=
  C.Tied x → ∀ r j, RunsTo u x.right r j → ∃ r' i w, Ends t x.left x.besides r' i w ∧
    C.Tied ⟨i, w, j⟩ ∧ C.Later x ⟨i, w, j⟩ ∧ Agree (P · · ⟨i, w, j⟩) r' r

/-! ## Rules -/

theorem Relates.bind (h : C.Relates x t u P)
    (hf : ∀ a b y, C.Later x y → P a b y → C.Relates y (f a) (g b) Q) :
    C.Relates x (t >>= f) (u >>= g) Q := by
  intro htied r j hr
  rcases runsTo_bind.1 hr with ⟨b, j1, hb, hr⟩ | ⟨e, rfl, he⟩
  · obtain ⟨r', i1, w1, hends, htied1, hlater, hagree⟩ := h htied _ _ hb
    cases hagree with
    | @ok a _ hP =>
      obtain ⟨r', i, w, hends', htied', hlater', hagree'⟩ :=
        hf a b ⟨i1, w1, j1⟩ hlater hP htied1 _ _ hr
      exact ⟨r', i, w, ends_bind hends hends', htied', C.trans hlater hlater', hagree'⟩
  · obtain ⟨r', i, w, hends, htied', hlater, hagree⟩ := h htied _ _ he
    cases hagree
    exact ⟨_, i, w, ends_bind_error hends, htied', hlater, .error e⟩

theorem Relates.of_tied (h : C.Tied x → C.Relates x t u P) : C.Relates x t u P :=
  fun htied => h htied htied

theorem relates_pure {a : α} {b : β} (hP : P a b x) :
    C.Relates x (pure a : MakingOver M α) (pure b) P := by
  intro htied r j hr
  cases hr
  exact ⟨_, _, _, ends_pure a x.left x.besides, htied, C.refl x, .ok hP⟩

theorem relates_throw (e : WiringError) :
    C.Relates x (throw e : MakingOver M α) (throw e) P := by
  intro htied r j hr
  cases hr
  exact ⟨_, _, _, ends_throw e x.left x.besides, htied, C.refl x, .error e⟩

theorem relates_throw_bind (e : WiringError) :
    C.Relates x ((throw e : MakingOver M α) >>= f) (throw e >>= g) Q :=
  Relates.bind (P := fun _ _ _ => False) (relates_throw e) fun _ _ _ _ h => h.elim

theorem relates_of_agree {r : Attempt α} {r' : Attempt β} (h : Agree (P · · x) r r') :
    C.Relates x (liftM r : MakingOver M α) (liftM r') P := by
  cases h with
  | ok h => exact relates_pure h
  | error e => exact relates_throw e

theorem Relates.attempt (h : C.Relates x t u P) :
    C.Relates x (Making.attempt t) (Making.attempt u) fun a b y => Agree (P · · y) a b := by
  intro htied r j hr
  obtain ⟨o, rfl, ho⟩ := runsTo_attempt.1 hr
  obtain ⟨r', i, w, hends, htied', hlater, hagree⟩ := h htied _ _ ho
  exact ⟨_, i, w, ends_attempt hends, htied', hlater, .ok hagree⟩

theorem Relates.mono {Q : α → β → Sides S → Prop} (h : C.Relates x t u P)
    (hPQ : ∀ a b y, P a b y → Q a b y) : C.Relates x t u Q := by
  intro htied r j hr
  obtain ⟨r', i, w, hends, htied', hlater, hagree⟩ := h htied r j hr
  refine ⟨r', i, w, hends, htied', hlater, ?_⟩
  cases hagree with
  | ok h => exact .ok (hPQ _ _ _ h)
  | error e => exact .error e

theorem relates_modifyGet (f : Injector → α × Injector) (g : Injector → β × Injector)
    (h : C.Tied x → C.Tied ⟨(f x.left).2, x.besides, (g x.right).2⟩ ∧
      C.Later x ⟨(f x.left).2, x.besides, (g x.right).2⟩ ∧
      P (f x.left).1 (g x.right).1 ⟨(f x.left).2, x.besides, (g x.right).2⟩) :
    C.Relates x (modifyGet f : MakingOver M α) (modifyGet g) P := by
  intro htied r j hr
  obtain ⟨htied', hlater, hP⟩ := h htied
  cases hr
  exact ⟨_, _, _, ends_modifyGet f x.left x.besides, htied', hlater, .ok hP⟩

theorem relates_get : C.Relates x (get : MakingOver M Injector) get
    fun i j y => y = x ∧ i = x.left ∧ j = x.right :=
  relates_modifyGet (fun i => (i, i)) (fun i => (i, i)) fun htied =>
    ⟨htied, C.refl x, rfl, rfl, rfl⟩

theorem relates_bookwork {u : Making α} (h : Bookwork t u) :
    C.Relates x t u fun a b _ => a = b := by
  obtain ⟨k, hmade, ht, hu⟩ := h
  intro htied r j hr
  obtain ⟨hr, hj⟩ := Prod.mk.inj (Option.some.inj ((hu x.right).symm.trans hr))
  subst hr hj
  have hends := ht x.left x.besides
  rw [C.books htied] at hends
  obtain ⟨htied', hlater⟩ := C.withBooks (k x.right.books).2 htied (hmade _)
  refine ⟨_, _, _, hends, htied', hlater, ?_⟩
  cases (k x.right.books).1 with
  | ok a => exact .ok rfl
  | error e => exact .error e

/-! ## Dependencies -/

def Deps (C : Comparison S) (deps deps' : Dependencies) : Prop :=
  List.Forall₂ (fun e f => (e.1.initial == f.1.initial) = true ∧
    C.Nodes (e.2, deps.backEdges) (f.2, deps'.backEdges)) deps.edges deps'.edges

/-- What makers give: null, the same value, or related makers that are the same instance. -/
inductive Gives (C : Comparison S) : Option Product → Option Product → Sides S → Prop
  | null {x : Sides S} : Gives C none none x
  | value {x : Sides S} (v : Value) : Gives C (some (.value v)) (some (.value v)) x
  | maker {x : Sides S} {m m' : Instantiator} (n : Identity) : C.Makers m m' x →
      Gives C (some (.maker n m)) (some (.maker n m')) x

/-- A call of a maker, by another way to run it. -/
def Calls (C : Comparison S) (run : Instantiator → MakingOver M (Option Product))
    (run' : Instantiator → Making (Option Product)) : Prop :=
  ∀ {m m' x}, C.Makers m m' x → C.Relates x (run m) (run' m') C.Gives

variable {run : Instantiator → MakingOver M (Option Product)}
  {run' : Instantiator → Making (Option Product)} {deps deps' : Dependencies}
  {m m' : Instantiator}

theorem Gives.isSome {p p' : Option Product} (h : C.Gives p p' x) : p.isSome = p'.isSome := by
  cases h <;> rfl

theorem Gives.summary {p p' : Option Product} (h : C.Gives p p' x) :
    productSummary p = productSummary p' := by
  cases h with
  | null => rfl
  | value v => rfl
  | maker n h => simp [productSummary, Product.summary, C.type h]

theorem Gives.inForm {p p' : Product} (h : C.Gives (some p) (some p') x) (type : TypeKey)
    (form : Form) : Agree (fun q q' => C.Gives (some q) (some q') x) (p.inForm type form)
      (p'.inForm type form) := by
  have hform : p.hasForm form = p'.hasForm form := by
    cases h with
    | value v => rfl
    | maker n h => cases form <;> rfl
  unfold Product.inForm
  rw [hform]
  split
  · exact .ok h
  · exact .error _

theorem Deps.find? (h : C.Deps deps deps') {p q : Desire → Bool}
    (hpq : ∀ d d', (d == d') = true → p d = q d') :
    deps.find? p = none ∧ deps'.find? q = none ∨
      ∃ e f, deps.find? p = some e ∧ deps'.find? q = some f ∧
        (e.1.initial == f.1.initial) = true ∧
        C.Nodes (e.2, deps.backEdges) (f.2, deps'.backEdges) := by
  unfold Deps at h
  unfold Dependencies.find?
  generalize deps.edges = es at h ⊢
  generalize deps'.edges = fs at h ⊢
  induction h with
  | nil => exact .inl ⟨rfl, rfl⟩
  | @cons e f es fs hef _ ih =>
    rw [List.find?_cons, List.find?_cons, hpq _ _ hef.1]
    cases q f.1.initial with
    | true => exact .inr ⟨e, f, rfl, rfl, hef⟩
    | false => exact ih

theorem Deps.names (h : C.Deps deps deps') : deps.names = deps'.names := by
  unfold Deps at h
  unfold Dependencies.names
  generalize deps.edges = es at h ⊢
  generalize deps'.edges = fs at h ⊢
  induction h with
  | nil => rfl
  | cons hef _ ih =>
    rw [List.map_cons, List.map_cons, ih, Desire.point_of_beq hef.1]

theorem relates_maker (type : TypeKey) {node node' : Graph}
    (hnode : C.Nodes (node, deps.backEdges) (node', deps'.backEdges)) :
    C.Relates x (deps.maker type node : MakingOver M _) (deps'.maker type node') C.Makers := by
  unfold Dependencies.maker
  refine .of_tied fun htied => relates_get.bind fun _ _ y _ h => ?_
  obtain ⟨rfl, rfl, rfl⟩ := h
  rw [C.dropped htied]
  split
  · exact relates_throw_bind _
  · exact relates_modifyGet _ _ fun htied => C.asked htied hnode

theorem relates_serve (hdeps : C.Deps deps deps') (d : Desire) :
    C.Relates x (deps.serve d : MakingOver M _) (deps'.serve d) C.Makers := by
  have hbeq : ∀ a b : Desire, (a == b) = true → (a == d) = (b == d) := by
    intro a b hab
    exact Bool.eq_iff_iff.2 ⟨fun h => BEq.trans (BEq.symm hab) h, fun h => BEq.trans hab h⟩
  unfold Dependencies.serve
  rcases hdeps.find? hbeq with ⟨hnone, hnone'⟩ | ⟨e, f, he, hf, -, hnodes⟩
  · rw [hnone, hnone']
    exact relates_throw _
  · rw [he, hf]
    exact relates_maker _ hnodes

section

variable (hcalls : C.Calls run run') (hdeps : C.Deps deps deps')
include hcalls

theorem relates_runAs (hm : C.Makers m m' x) (form : Option Form) :
    C.Relates x (runAs run m form) (runAs run' m' form) C.Gives := by
  cases form with
  | none => exact hcalls hm
  | some form =>
    refine (hcalls hm).bind fun p p' y _ hp => ?_
    cases p with
    | none =>
      cases hp
      rw [C.type hm]
      exact relates_throw _
    | some p =>
      obtain ⟨p', rfl⟩ := Option.isSome_iff_exists.1 hp.isSome.symm
      rw [C.type hm]
      exact (relates_of_agree (hp.inForm _ _)).bind fun q q' z hyz hq => relates_pure hq

include hdeps

theorem relates_getDependency (name : String) (form : Form) :
    C.Relates x (deps.get run name form) (deps'.get run' name form) C.Gives := by
  unfold Dependencies.get
  rcases hdeps.find? (p := (·.point.name == name)) (q := (·.point.name == name))
      (fun d d' h => by rw [Desire.point_of_beq h]) with
    ⟨hnone, hnone'⟩ | ⟨e, f, he, hf, hef, hnodes⟩
  · rw [hnone, hnone']
    exact relates_throw _
  · rw [he, hf]
    dsimp only
    rw [Desire.point_of_beq hef]
    refine (relates_maker _ hnodes).bind fun m m' y _ hm => ?_
    refine (hcalls hm).bind fun p p' z _ hp => ?_
    cases hp with
    | null =>
      dsimp only
      split
      · exact relates_pure .null
      · exact relates_throw _
    | value v =>
      rw [C.label hnodes]
      exact (relates_of_agree (Gives.inForm (.value v) _ _)).bind fun q q' _ _ hq => relates_pure hq
    | maker n h =>
      rw [C.label hnodes]
      exact (relates_of_agree (Gives.inForm (.maker n h) _ _)).bind fun q q' _ _ hq =>
        relates_pure hq

theorem relates_require (name : String) (form : Form) :
    C.Relates x (deps.require run name form) (deps'.require run' name form)
      fun p p' => C.Gives (some p) (some p') := by
  refine (relates_getDependency hcalls hdeps name form).bind fun p p' y _ hp => ?_
  cases hp with
  | null =>
    dsimp only
    rcases hdeps.find? (p := (·.point.name == name)) (q := (·.point.name == name))
        (fun d d' h => by rw [Desire.point_of_beq h]) with
      ⟨hnone, hnone'⟩ | ⟨e, f, he, hf, hef, -⟩
    · rw [hnone, hnone']
      exact relates_throw _
    · rw [he, hf]
      dsimp only
      rw [Desire.point_of_beq hef]
      exact relates_throw _
  | value v => exact relates_pure (.value v)
  | maker n h => exact relates_pure (.maker n h)

theorem relates_provider (name : String) :
    C.Relates x (deps.provider run name) (deps'.provider run' name) C.Makers := by
  refine (relates_require hcalls hdeps name .maker).bind fun p p' y _ hp => ?_
  cases hp with
  | value v => exact relates_throw _
  | maker n h => exact relates_pure h

end

end Comparison

end Wiring
