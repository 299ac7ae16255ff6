import Wiring.Proofs.Solver.Narrowings
import Mathlib.Data.List.Induction

/-!
# The offers that rounds take

Rounds sum up the offers they take: the chain has their desires, the strongest policy holds, flags
add up. What they come to can therefore be said of the offers alone. To undo the last binding is to
go back to the offers before it in all that the chain tells, but the policy and the flags were
summed up and stay.
-/

namespace Wiring

variable {c : Catalog} {turn : Nat} {context : Context} {functions : List BindingFunction}
  {d : Desire} {o : Offer} {os : List Offer} {r first : Rounds} {x : Settled} {res p : Resolution}

/-! ## Taking offers -/

namespace Rounds

inductive Takes (c : Catalog) (turn : Nat) (context : Context) (first : Rounds) :
    List Offer → Rounds → Prop
  | nil : Takes c turn context first [] first
  | round {os : List Offer} {r : Rounds} {o : Offer} : Takes c turn context first os r →
      r.isOver = false → (askBinders c turn context r.chain r.binders).offer = .ok (some o) →
      Takes c turn context first (os ++ [o])
        (r.accept o (askBinders c turn context r.chain r.binders).binders)

/-- The rounds are not over, but no offer is acceptable. -/
structure Stuck (c : Catalog) (turn : Nat) (context : Context) (r : Rounds) : Prop where
  goesOn : r.isOver = false
  nothing : (askBinders c turn context r.chain r.binders).offer = .ok none

theorem Ends.takes (h : Ends c turn context r x) (hr : Takes c turn context first os r)
    (hx : x.outcome = .ok res) :
    ∃ os s, Takes c turn context first os s ∧ (s.isOver = true ∨ s.Stuck c turn context) ∧
      s.resolution context = .ok res := by
  induction h generalizing os with
  | ended hover => exact ⟨os, _, hr, .inl hover, hx⟩
  | failed _ _ => cases hx
  | stuck hover hnone => exact ⟨os, _, hr, .inr ⟨hover, hnone⟩, hx⟩
  | bound hover ho _ ih => exact ih (hr.round hover ho) hx

theorem Takes.ends (h : Takes c turn context first os r) (hr : Ends c turn context r x) :
    ∃ y, Ends c turn context first y ∧ y.outcome = x.outcome := by
  induction h generalizing x with
  | nil => exact ⟨x, hr, rfl⟩
  | round _ hover ho ih =>
    obtain ⟨y, hy, houtcome⟩ := ih (.bound hover ho hr)
    exact ⟨y, hy, houtcome⟩

theorem takes_of_settle (h : (settle c functions turn context d).outcome = .ok res) :
    ∃ os r, Takes c turn context (start functions d) os r ∧
      (r.isOver = true ∨ r.Stuck c turn context) ∧ r.resolution context = .ok res := by
  obtain ⟨x, hends, hx⟩ := ends_of_settle h
  exact hends.takes .nil hx

theorem Takes.settle_of_stuck (hf : ∀ f ∈ functions, f.isScripted = false)
    (h : Takes c turn context (start functions d) os r) (hr : r.Stuck c turn context) :
    (settle c functions turn context d).outcome = r.resolution context := by
  obtain ⟨y, hy, houtcome⟩ := h.ends (.stuck hr.goesOn hr.nothing)
  rw [(ends_settle hf).unique hy, houtcome]

end Rounds

/-! ## Offers summed up -/

/-- What offers alone come to, taken for a desire one after the other. -/
def Resolution.ofOffers (d : Desire) (os : List Offer) : Option Resolution :=
  let chain : DesireChain := ⟨d, os.map (·.desire)⟩
  chain.current.satisfaction?.map fun satisfaction =>
    { satisfaction, chain
      policy := os.foldl (fun p o => p.max o.policy) .noPreference
      fixed := os.any (·.flags.fixed)
      deferred := os.any (·.flags.deferred)
      skippable := os.getLast?.any (·.flags.skippable) }

/-- The rounds stand where these offers alone would have left them. -/
structure Rounds.SumsUp (d : Desire) (os : List Offer) (r : Rounds) : Prop where
  chain : r.chain = ⟨d, os.map (·.desire)⟩
  policy : r.policy = os.foldl (fun p o => p.max o.policy) .noPreference
  fixed : r.fixed = os.any (·.flags.fixed)
  deferred : r.deferred = os.any (·.flags.deferred)
  skippable : r.skippable = os.getLast?.any (·.flags.skippable)

namespace Rounds

theorem SumsUp.accept (h : r.SumsUp d os) (o : Offer) (binders : List Binder) :
    (r.accept o binders).SumsUp d (os ++ [o]) where
  chain := by
    show (⟨r.chain.initial, r.chain.bound ++ [o.desire]⟩ : DesireChain) = _
    rw [h.chain, List.map_append]
    rfl
  policy := by
    rw [List.foldl_append, ← h.policy]
    rfl
  fixed := by
    rw [List.any_append, ← h.fixed, List.any_cons, List.any_nil, Bool.or_false]
    rfl
  deferred := by
    rw [List.any_append, ← h.deferred, List.any_cons, List.any_nil, Bool.or_false]
    rfl
  skippable := by
    rw [List.getLast?_concat]
    rfl

theorem Takes.sumsUp (h : Takes c turn context (start functions d) os r) : r.SumsUp d os := by
  induction h with
  | nil => exact ⟨rfl, rfl, rfl, rfl, rfl⟩
  | round _ _ _ ih => exact ih.accept _ _

theorem SumsUp.ofOffers (h : r.SumsUp d os) (hr : r.resolution context = .ok res) :
    Resolution.ofOffers d os = some res := by
  obtain ⟨hchain, hpolicy, hfixed, hdeferred, hskippable⟩ := h
  unfold Rounds.resolution at hr
  unfold Resolution.ofOffers
  dsimp only
  rw [← hchain, ← hpolicy, ← hfixed, ← hdeferred, ← hskippable]
  split at hr
  · rename_i s hs
    rw [hs]
    cases hr
    rfl
  · cases hr

end Rounds

/-! ## Undoing a binding -/

theorem CachePolicy.max_eq_left_iff (a b : CachePolicy) :
    a.max b = a ↔ b.strength ≤ a.strength := by
  cases a <;> cases b <;> decide

namespace Resolution

/-- A resolution with what one more offer adds to its policy and flags, but not with the desire
that the offer made of it. -/
def tainted (q : Resolution) (b : Offer) : Resolution :=
  { q with
    policy := q.policy.max b.policy
    fixed := q.fixed || b.flags.fixed
    deferred := q.deferred || b.flags.deferred
    skippable := false }

theorem tainted_eq_iff (q : Resolution) (b : Offer) :
    q.tainted b = { q with skippable := false } ↔ b.policy.strength ≤ q.policy.strength ∧
      (b.flags.fixed = true → q.fixed = true) ∧ (b.flags.deferred = true → q.deferred = true) := by
  have hor : ∀ x y : Bool, (x || y) = x ↔ (y = true → x = true) := by decide
  simp only [tainted, mk.injEq, CachePolicy.max_eq_left_iff, hor, and_true, true_and]

theorem previous?_offers (d : Desire) (bs : List Offer) (b : Offer) :
    (⟨d, (bs ++ [b]).map (·.desire)⟩ : DesireChain).previous? = some ⟨d, bs.map (·.desire)⟩ := by
  rw [List.map_append]
  exact DesireChain.previous?_extend ⟨d, bs.map (·.desire)⟩ b.desire

theorem backtrack?_ofOffers (h : ofOffers d os = some res) (hp : res.backtrack? = some p) :
    ∃ bs b q, os = bs ++ [b] ∧ ofOffers d bs = some q ∧ p = q.tainted b := by
  obtain ⟨s, -, rfl⟩ := Option.map_eq_some_iff.1 h
  obtain ⟨hskippable, chain, hchain, s', hs', rfl⟩ := backtrack?_eq_some.1 hp
  cases os using List.reverseRecOn with
  | nil => cases hskippable
  | append_singleton bs b =>
    cases (previous?_offers d bs b).symm.trans hchain
    refine ⟨bs, b, _, rfl, Option.map_eq_some_iff.2 ⟨s', hs', rfl⟩, ?_⟩
    simp [tainted]

end Resolution

namespace Rounds

/-- If the binding rounds come to a resolution whose last binding can be undone, then undoing it
leads back to the chain and the satisfaction of the offers before the last. The policy and the flags
are those of all offers, so nothing of the last is left over just when its policy is not the
strongest and its flags were set before. -/
theorem backtrack_of_settle (h : (settle c functions turn context d).outcome = .ok res)
    (hp : res.backtrack? = some p) :
    ∃ bs b r q, Takes c turn context (start functions d) (bs ++ [b]) r ∧
      (r.isOver = true ∨ r.Stuck c turn context) ∧ r.resolution context = .ok res ∧
      Resolution.ofOffers d (bs ++ [b]) = some res ∧ Resolution.ofOffers d bs = some q ∧
      p = q.tainted b ∧
      (p = { q with skippable := false } ↔ b.policy.strength ≤ q.policy.strength ∧
        (b.flags.fixed = true → q.fixed = true) ∧
        (b.flags.deferred = true → q.deferred = true)) := by
  obtain ⟨os, r, hr, hend, hres⟩ := takes_of_settle h
  have hoffers : Resolution.ofOffers d os = some res := hr.sumsUp.ofOffers hres
  obtain ⟨bs, b, q, rfl, hq, rfl⟩ := Resolution.backtrack?_ofOffers hoffers hp
  exact ⟨bs, b, r, q, hr, hend, hres, hoffers, hq, rfl, q.tainted_eq_iff b⟩

/-- A class with a subclass that it may be bound to, so that the instances are shared. When the
binding is undone they still are. -/
theorem backtrack_of_settle_memoized :
    let logger : TypeKey := .named "Logger"
    let fileLogger : TypeKey := .named "FileLogger"
    let c : Catalog := .freeze [⟨logger, true, [], [], {}, .noPreference, none, none⟩,
      ⟨fileLogger, true, [logger], [], {}, .noPreference, none, none⟩] []
    let functions := BindingFunction.standard c
      [⟨.any, logger, .default, .type fileLogger, .memoize, { skippable := true }⟩]
    let d := c.rootDesire logger none
    ∃ res p bs b r q, (settle c functions 0 .initial d).outcome = .ok res ∧
      res.backtrack? = some p ∧ Takes c 0 .initial (start functions d) (bs ++ [b]) r ∧
      Resolution.ofOffers d bs = some q ∧ p = q.tainted b ∧ p.policy = .memoize := by
  intro logger fileLogger c functions d
  have hpolicy : ((settle c functions 0 .initial d).outcome.toOption.bind
      Resolution.backtrack?).map (·.policy) = some .memoize := by
    subst d functions c logger fileLogger
    decide +kernel
  obtain ⟨p, hp, hmemoize⟩ := Option.map_eq_some_iff.1 hpolicy
  obtain ⟨res, hres, hp⟩ := Option.bind_eq_some_iff.1 hp
  have hres := eq_ok_of_toOption hres
  obtain ⟨bs, b, r, q, hr, -, -, -, hq, htainted, -⟩ := backtrack_of_settle hres hp
  exact ⟨res, p, bs, b, r, q, hres, hp, hr, hq, htainted, hmemoize⟩

end Rounds

end Wiring
