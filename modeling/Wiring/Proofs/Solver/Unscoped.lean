import Wiring.Proofs.Selection
import Wiring.Proofs.Solver.Determined
import Wiring.Proofs.Solver.Stems

/-!
# Rules for all contexts

Where all rules stand under the pattern of every context, what a desire is taken for is the same
wherever it comes up. The one part of a context that still matters is its depth, and it only
matters for whether there is an answer: a binding is undone because some dependency has no
satisfaction, and that is so in every context or in none.
-/

namespace Wiring

open Work Settings

variable {c : Catalog} {context k : Context} {turn turn' : Nat} {chain chain' : DesireChain}
  {gs : List RuleGroup} {given : List ScopedRule} {applied : List Rule} {d d' : Desire} {r : Rule}

/-! ## The choice among rules -/

theorem ContextMatch.order_self (m : ContextMatch) : m.order m = .eq := Std.ReflCmp.compare_self

theorem ContextPattern.match?_any (frames : List Frame) :
    any.match? c frames = some ⟨[], frames.length⟩ := by
  have hkeep : ∀ (m : ContextMatch) (fss : List (List (Nat × Frame))),
      fss.foldl (fun best _ => ContextMatch.keep best m) (some m) = some m := by
    intro m fss
    induction fss with
    | nil => rfl
    | cons _ _ ih => simpa [ContextMatch.keep, m.order_self] using ih
  have hsuffixes : ∀ fs : List (Nat × Frame), ∃ first rest, suffixes fs = first :: rest := by
    intro fs
    induction fs with
    | nil => exact ⟨_, _, rfl⟩
    | cons f fs ih =>
      obtain ⟨first, rest, h⟩ := ih
      exact ⟨first, rest ++ [f :: fs], by rw [suffixes, h, List.cons_append]⟩
  obtain ⟨first, rest, h⟩ := hsuffixes (inwards frames)
  unfold match? starts
  show (suffixes (inwards frames)).foldl
    (fun best _ => ContextMatch.keep best ⟨[], frames.length⟩) none = _
  rw [h, List.foldl_cons]
  exact hkeep _ rest

def UnscopedGroups (gs : List RuleGroup) : Prop := ∀ p r, Grouped gs p r → p = .any

theorem candidates_of_unscoped (h : UnscopedGroups gs) :
    candidates gs c context d applied =
      (gs.flatMap fun g => g.rules.filter fun r => r.applies d && !applied.contains r).map
        (⟨⟨[], context.frames.length⟩, ·⟩) := by
  unfold candidates
  rw [List.map_flatMap]
  refine List.flatMap_congr fun g hg => ?_
  cases hrules : g.rules with
  | nil => split <;> rfl
  | cons r rs =>
    rw [h g.pattern r ⟨g, hg, rfl, hrules ▸ List.mem_cons_self⟩, ContextPattern.match?_any]

theorem Candidate.leading_map (m : ContextMatch) (rs : List Rule) :
    (leading (rs.map (⟨m, ·⟩))).map (·.rule) =
      rs.filter fun r => rs.all fun r' =>
        !(compare r'.matcher.priority r.matcher.priority).isLT := by
  unfold leading order
  rw [List.filter_map, List.map_map]
  simp [Function.comp_def, List.all_map, ContextMatch.order_self]

theorem Rule.applies_of_beq (h : (d == d') = true) : r.applies d = r.applies d' := by
  unfold applies Desire.qualifier
  rw [Desire.type_of_beq h, Desire.point_of_beq h]

theorem Desire.restrictType_of_beq (h : (d == d') = true) (t : TypeKey) :
    d.restrictType c t = d'.restrictType c t := by
  unfold restrictType
  rw [point_of_beq h]

theorem Desire.restrict_of_beq (h : (d == d') = true) (s : Satisfaction) :
    d.restrict s = d'.restrict s := by
  unfold restrict
  rw [point_of_beq h]

theorem Rule.apply_of_beq (h : (d == d') = true) : r.apply c d = r.apply c d' := by
  unfold apply
  split
  · exact Desire.restrictType_of_beq h _
  · exact Desire.restrict_of_beq h _

theorem offerByRules_of_unscoped (hgs : UnscopedGroups gs) (h : (chain == chain') = true) :
    Alike SameBlame Eq (offerByRules gs c context chain applied)
      (offerByRules gs c k chain' applied) := by
  have hcurrent := DesireChain.current_beq h
  unfold offerByRules
  dsimp only
  rw [candidates_of_unscoped hgs, candidates_of_unscoped hgs, Candidate.leading_map,
    Candidate.leading_map]
  simp only [Rule.applies_of_beq hcurrent, Rule.apply_of_beq hcurrent]
  split
  · exact rfl
  · exact rfl
  · exact fun d => rfl

/-! ## The other functions -/

theorem offerProvider_of_beq (h : (chain == chain') = true) :
    offerProvider c chain = offerProvider c chain' := by
  have hcurrent := DesireChain.current_beq h
  unfold offerProvider
  dsimp only
  rw [Desire.isInstantiable_of_beq hcurrent, Desire.type_of_beq hcurrent,
    Desire.point_of_beq hcurrent]
  simp only [Desire.restrict_of_beq hcurrent]

theorem Defaults.offer_of_beq (h : (d == d') = true) (x : Defaults) :
    x.offer c d = x.offer c d' := by
  unfold offer
  simp only [Desire.restrictType_of_beq h, Desire.restrict_of_beq h, Desire.type_of_beq h]

theorem offerDefault_of_beq (h : (chain == chain') = true) :
    offerDefault c chain = offerDefault c chain' := by
  have hcurrent := DesireChain.current_beq h
  unfold offerDefault offerQualifierDefault offerTypeDefault Desire.qualifier
  simp only [DesireChain.isEmpty_of_beq h, Desire.point_of_beq hcurrent,
    Desire.type_of_beq hcurrent, Defaults.offer_of_beq hcurrent]

/-- What the function offers depends on nothing but the chain. -/
def BindingFunction.Unscoped : BindingFunction → Prop
  | .rules gs => UnscopedGroups gs
  | .providers | .defaults => True
  | .scripted _ | .chosen _ _ => False

theorem BindingFunction.Unscoped.isScripted {f : BindingFunction} (h : f.Unscoped) :
    f.isScripted = false := by
  cases f with
  | rules | providers | defaults => rfl
  | scripted _ | chosen _ _ => exact h.elim

theorem unscoped_standard (c : Catalog) (h : ∀ a ∈ given, a.pattern = .any) :
    ∀ f ∈ BindingFunction.standard c given, f.Unscoped := by
  have hset : ∀ set : RuleSet, (BindingFunction.ofSet set c given).Unscoped := by
    intro set p r hr
    obtain ⟨a, ha, hr⟩ := List.mem_flatMap.mp (grouped_groupRules.mp hr)
    obtain ⟨t, -, heq⟩ := List.mem_map.mp hr
    cases heq
    exact h a ha
  exact BindingFunction.forall_standard hset trivial trivial

theorem askedAlike_of_unscoped :
    AskedAlike c turn turn' context k BindingFunction.Unscoped fun a b => (a == b) = true where
  beq _ _ h := h
  extend a b h d := by
    rw [DesireChain.beq_iff] at h ⊢
    refine ⟨h.1, ?_⟩
    unfold DesireChain.extend
    rw [desires_beq_iff, List.map_append, List.map_append, (desires_beq_iff _ _).1 h.2]
  offer f hf chain chain' h applied := by
    unfold BindingFunction.offer
    cases f with
    | rules gs => exact offerByRules_of_unscoped hf h
    | providers => exact offerProvider_of_beq h
    | defaults => exact offerDefault_of_beq h
    | scripted _ | chosen _ _ => exact hf.elim

/-! ## Bindings -/

theorem Satisfaction.policy_of_beq {a b : Satisfaction} (h : (a == b) = true) :
    a.policy c = b.policy c := by
  change a.same b = true at h
  cases a <;> cases b <;> simp_all [same, policy]

abbrev Resolution.Like (r p : Resolution) : Prop := r.Matched (fun a b => (a == b) = true) p

namespace Resolution.Like

variable {r p r' p' : Resolution}

theorem satisfaction (h : r.Like p) : (r.satisfaction == p.satisfaction) = true := by
  obtain ⟨a, ha, hra⟩ := Desire.satisfaction_of_beq (DesireChain.current_beq h.chain) h.left
  rw [h.right] at ha
  cases ha
  exact hra

theorem dependency (h : r.Like p) : (r.dependency == p.dependency) = true :=
  (Dependency.beq_iff _ _).2 ⟨h.chain, h.fixed⟩

theorem component (h : r.Like p) (c : Catalog) (policy : CachePolicy) :
    (r.component c policy == p.component c policy) = true := by
  refine (Component.beq_iff _ _).2 ⟨h.satisfaction, ?_⟩
  unfold Resolution.component
  rw [h.policy, Satisfaction.policy_of_beq h.satisfaction]

theorem backtrack (h : r.Like p) (hr : r.backtrack? = some r') (hp : p.backtrack? = some p') :
    r'.Like p' := by
  obtain ⟨-, l, hl, a, ha, rfl⟩ := backtrack?_eq_some.mp hr
  obtain ⟨-, l', hl', a', ha', rfl⟩ := backtrack?_eq_some.mp hp
  exact ⟨DesireChain.previous_of_beq h.chain hl hl', ha, ha', h.policy, h.fixed, h.deferred, rfl⟩

end Resolution.Like

namespace Settings

variable {s : Settings} {x y : Desire} {r p : Resolution} {w w' : Workspace} {e : WiringError}

def Unscoped (s : Settings) : Prop := ∀ f ∈ s.functions, f.Unscoped

theorem Unscoped.unscripted (hs : s.Unscoped) : s.Unscripted := fun f hf => (hs f hf).isScripted

theorem outcome_like (hs : s.Unscoped) (hd : (d == d') = true) (turn turn' : Nat)
    (context k : Context) :
    Alike SameBlame Resolution.Like (Wiring.settle s.catalog s.functions turn context d).outcome
      (Wiring.settle s.catalog s.functions turn' k d').outcome :=
  askedAlike_of_unscoped.settle hs.unscripted hs ((DesireChain.beq_iff _ _).2 ⟨hd, BEq.rfl⟩)

theorem Settles.like (hs : s.Unscoped) (hd : (d == d') = true) (h : s.Settles d context r)
    (h' : s.Settles d' k p) : r.Like p := by
  obtain ⟨turn, h⟩ := h
  obtain ⟨turn', h'⟩ := h'
  have hlike := outcome_like hs hd turn turn' context k
  rw [h, h'] at hlike
  exact hlike

def Satisfiable (s : Settings) (d : Desire) : Prop := ∃ k r, s.Settles d k r

theorem Satisfiable.settles (hs : s.Unscoped) (hd : (d == d') = true) (h : s.Satisfiable d)
    (turn : Nat) (k : Context) :
    ∃ r, (Wiring.settle s.catalog s.functions turn k d').outcome = .ok r := by
  obtain ⟨k', r, turn', h⟩ := h
  have hlike := outcome_like hs hd turn' turn k' k
  rw [h] at hlike
  cases h' : (Wiring.settle s.catalog s.functions turn k d').outcome with
  | error e =>
    rw [h'] at hlike
    exact hlike.elim
  | ok p => exact ⟨p, rfl⟩

/-! ### Undone bindings -/

theorem blames_of_offer {f : BindingFunction} (hf : f.isScripted = false)
    (h : f.offer c turn context chain applied = .error e) : e.blames x = false := by
  unfold BindingFunction.offer at h
  cases f with
  | rules gs =>
    dsimp only at h
    unfold offerByRules at h
    dsimp only at h
    split at h
    · cases h
    · cases h
    · cases h
      rfl
  | providers | defaults => cases h
  | scripted _ | chosen _ _ => cases hf

theorem blames_of_askBinders {bs : List Binder} (hbs : ∀ b ∈ bs, b.function.isScripted = false)
    (h : (askBinders c turn context chain bs).offer = .error e) : e.blames x = false := by
  induction bs with
  | nil => cases h
  | cons b bs ih =>
    obtain ⟨hb, hbs⟩ := List.forall_mem_cons.1 hbs
    rw [askBinders] at h
    split at h
    · rename_i he
      cases h
      exact blames_of_offer hb he
    · exact ih hbs h
    · split at h
      · exact ih hbs h
      · cases h

theorem initial_of_blames {r : Rounds} {y : Settled}
    (hbs : ∀ b ∈ r.binders, b.function.isScripted = false)
    (h : Rounds.Ends c turn context r y) (he : y.outcome = .error e) (hx : e.blames x = true) :
    (r.chain.initial == x) = true := by
  have hresolution : ∀ r : Rounds, r.resolution context = .error e →
      (r.chain.initial == x) = true := by
    intro r hr
    unfold Rounds.resolution at hr
    split at hr <;> cases hr
    exact hx
  induction h with
  | ended _ | stuck _ _ => exact hresolution _ he
  | failed _ h =>
    cases he
    rw [blames_of_askBinders hbs h] at hx
    cases hx
  | bound _ _ _ ih =>
    exact ih (functions_of_askBinders (P := (·.isScripted = false)) hbs) he

theorem not_satisfiable_of_blames (hs : s.Unscoped) (h : (s.settle d context).Runs w (.error e) w')
    (hx : e.blames x = true) : ¬ s.Satisfiable x := by
  intro hsatisfiable
  have houtcome := (runs_settle.1 h).1.symm
  have hends : Rounds.Ends s.catalog w.nextTag context (.start s.functions d) _ :=
    Rounds.ends_settle hs.unscripted
  have hbeq : (d == x) = true :=
    initial_of_blames (Rounds.functions_start hs.unscripted d) hends houtcome hx
  obtain ⟨r, hr⟩ := hsatisfiable.settles hs (BEq.symm hbeq) w.nextTag context
  rw [houtcome] at hr
  cases hr

mutual

theorem Resolves.not_satisfiable (hs : s.Unscoped) : ∀ {d k w w' o}, Resolves s d k w o w' →
    ∀ {e x}, o = .error e → e.blames x = true → ¬ s.Satisfiable x
  | _, _, _, _, _, .tooDeep _, _, _, he, hx => by
    cases he
    cases hx
  | _, _, _, _, _, .unsettled _ h, _, _, he, hx => by
    cases he
    exact not_satisfiable_of_blames hs h hx
  | _, _, _, _, _, .deferred _ _ _ hdefer, _, _, he, _ => by
    obtain ⟨_, _, _, rfl, _, _⟩ := runs_defer hdefer
    cases he
  | _, _, _, _, _, .expanded _ _ _ hexpand, _, _, he, hx => hexpand.not_satisfiable hs he hx

theorem Expands.not_satisfiable (hs : s.Unscoped) : ∀ {r k w w' o}, Expands s r k w o w' →
    ∀ {e x}, o = .error e → e.blames x = true → ¬ s.Satisfiable x
  | _, _, _, _, _, .grown _ hgrow, _, _, he, _ => by
    obtain ⟨_, rfl, _, _⟩ := runs_grow hgrow
    cases he
  | _, _, _, _, _, .failed hall _, _, _, he, hx => by
    cases he
    exact (hall.not_satisfiable hs _ _ rfl).2 hx
  | _, _, _, _, _, .restored _ _ _ hexpand, _, _, he, hx => hexpand.not_satisfiable hs he hx

theorem ResolvesAll.not_satisfiable (hs : s.Unscoped) : ∀ {k ds w w' a},
    ResolvesAll s k ds w a w' → ∀ e y, a = .error (e, y) →
      y ∈ ds ∧ ∀ {x}, e.blames x = true → ¬ s.Satisfiable x
  | _, _, _, _, _, .nil, _, _, he => by cases he
  | _, _, _, _, _, .failed h, _, _, he => by
    cases he
    exact ⟨List.mem_cons_self, h.not_satisfiable hs rfl⟩
  | _, _, _, _, _, .cons (o := a) _ hrest, _, _, he => by
    have ih := hrest.not_satisfiable hs
    cases a with
    | error _ =>
      cases he
      obtain ⟨hy, hx⟩ := ih _ _ rfl
      exact ⟨List.mem_cons_of_mem _ hy, hx⟩
    | ok _ => cases he

end

theorem Grown.satisfiable {q : List Deferral} {ds : List Desire} {es : List Resolved}
    (h : Grown s q k ds es) : ∀ d ∈ ds, s.Satisfiable d := by
  have hbinds : ∀ {d k r}, s.Binds d k r → s.Satisfiable d := by
    intro d k r h
    cases h with
    | settled h | restored h _ _ _ _ => exact ⟨k, _, h⟩
  induction h with
  | nil => exact List.forall_mem_nil _
  | deferred h _ _ _ _ _ _ ih => exact List.forall_mem_cons.2 ⟨⟨_, _, h⟩, ih⟩
  | expanded h _ _ _ _ _ ih => exact List.forall_mem_cons.2 ⟨hbinds h, ih⟩

/-- What a desire is taken for is what it settles on, or what was there before the last binding if
some dependency of that settles on nothing. -/
inductive SettlesOn (s : Settings) (d : Desire) (k : Context) : Resolution → Prop
  | kept {r : Resolution} : s.Settles d k r →
      (r.deferred = false → ∀ x ∈ r.satisfaction.dependencies s.catalog, s.Satisfiable x) →
      SettlesOn s d k r
  | undone {r p : Resolution} {x : Desire} : s.Settles d k r → r.deferred = false →
      x ∈ r.satisfaction.dependencies s.catalog → ¬ s.Satisfiable x → r.backtrack? = some p →
      SettlesOn s d k p

theorem Takes.settlesOn (hs : s.Unscoped) (h : s.Takes d context r) : s.SettlesOn d context r := by
  cases h with
  | deferred h hr => exact .kept h fun hr' => by simp [hr] at hr'
  | grown h hr hall =>
    cases h with
    | settled h => exact .kept h fun _ => (hall.trees_grown _ rfl).satisfiable
    | restored h hr hfails hblames hp =>
      obtain ⟨hx, hnot⟩ := hfails.not_satisfiable hs _ _ rfl
      exact .undone h hr hx (hnot hblames) hp

theorem exists_unsatisfiable (hs : s.Unscoped) (h : r.Like p)
    (hx : x ∈ r.satisfaction.dependencies s.catalog) (hnot : ¬ s.Satisfiable x) :
    ∃ y ∈ p.satisfaction.dependencies s.catalog, ¬ s.Satisfiable y := by
  obtain ⟨y, hy, hxy⟩ := Catalog.dependencies_of_beq h.satisfaction hx
  refine ⟨y, hy, fun hsatisfiable => hnot ?_⟩
  obtain ⟨q, hq⟩ := hsatisfiable.settles hs (BEq.symm hxy) 0 .initial
  exact ⟨_, q, _, hq⟩

theorem Takes.like (hs : s.Unscoped) (hd : (d == d') = true) (h : s.Takes d context r)
    (h' : s.Takes d' k p) : r.Like p := by
  cases h.settlesOn hs with
  | kept h hkept =>
    cases h'.settlesOn hs with
    | kept h' _ => exact h.like hs hd h'
    | undone h' hr hx hnot _ =>
      have hlike := h'.like hs (BEq.symm hd) h
      obtain ⟨y, hy, hnot⟩ := exists_unsatisfiable hs hlike hx hnot
      exact absurd (hkept (hlike.deferred ▸ hr) y hy) hnot
  | undone h hr hx hnot hp =>
    cases h'.settlesOn hs with
    | kept h' hkept =>
      have hlike := h.like hs hd h'
      obtain ⟨y, hy, hnot⟩ := exists_unsatisfiable hs hlike hx hnot
      exact absurd (hkept (hlike.deferred ▸ hr) y hy) hnot
    | undone h' _ _ _ hp' => exact (h.like hs hd h').backtrack hp hp'

end Settings

end Wiring
