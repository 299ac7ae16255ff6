import Wiring.Proofs.Firing
import Wiring.Proofs.Solver.Narrowings

/-!
# Histories of chains

The rounds of a desire make its chain longer, one desire at a time. Here the chain has its key, and
the functions remember the rules they offered in the memory of the context, under that key. With the
standard functions the rounds end, and on the way the chain never goes back to a desire it has left.
-/

namespace Wiring

variable {c : Catalog} {turn number n : Nat} {context : NumberedContext}
  {functions : List BindingFunction} {s : Scratch} {d : Desire} {key : Nat} {o : Offer}

/-! ## Asking with a key -/

/-- Asks functions with numbers from `number` on, up to the first acceptable offer or the first
error. -/
def Scratch.askFrom (c : Catalog) (turn : Nat) (context : NumberedContext) (chain : KeyedChain) :
    Scratch → (number : Nat) → List BindingFunction → Attempt (Option Offer) × Scratch
  | s, _, [] => (.ok none, s)
  | s, number, f :: fs =>
    match s.ask number f c turn context chain with
    | (.error e, s) => (.error e, s)
    | (.ok none, s) => askFrom c turn context chain s (number + 1) fs
    | (.ok (some o), s) =>
      if chain.chain.earlier.contains o.desire then
        askFrom c turn context chain s (number + 1) fs
      else (.ok (some o), s)

def Scratch.binders (s : Scratch) (context : NumberedContext) (chain : KeyedChain) :
    (number : Nat) → List BindingFunction → List Binder
  | _, [] => []
  | number, f :: fs =>
    ⟨f, s.applied (.ofChain context (.function number) chain)⟩ ::
      s.binders context chain (number + 1) fs

structure KeyedRounds where
  chain : KeyedChain
  scratch : Scratch
  policy : CachePolicy := .noPreference
  fixed : Bool := false
  deferred : Bool := false
  skippable : Bool := false
  terminal : Bool := false

namespace KeyedRounds

def start (s : Scratch) (key : Nat) (d : Desire) : KeyedRounds where
  chain := ⟨.singleton d, key⟩
  scratch := s

/-- The rounds where every function has what it remembers with it. -/
def plain (r : KeyedRounds) (context : NumberedContext) (functions : List BindingFunction) :
    Rounds where
  binders := r.scratch.binders context r.chain 0 functions
  chain := r.chain.chain
  policy := r.policy
  fixed := r.fixed
  deferred := r.deferred
  skippable := r.skippable
  terminal := r.terminal

def accept (r : KeyedRounds) (o : Offer) (scratch : Scratch) : KeyedRounds where
  chain := r.chain.extend o.desire
  scratch := scratch
  policy := r.policy.max o.policy
  fixed := r.fixed || o.flags.fixed
  deferred := r.deferred || o.flags.deferred
  skippable := o.flags.skippable
  terminal := o.flags.terminal

def next? (c : Catalog) (turn : Nat) (context : NumberedContext)
    (functions : List BindingFunction) (r : KeyedRounds) : Attempt (Option KeyedRounds) :=
  if r.terminal && r.chain.chain.current.isInstantiable then .ok none
  else
    let (offered, scratch) := r.scratch.askFrom c turn context r.chain 0 functions
    offered.map (·.map (r.accept · scratch))

inductive After (c : Catalog) (turn : Nat) (context : NumberedContext)
    (functions : List BindingFunction) (first : KeyedRounds) : Nat → KeyedRounds → Prop
  | nil : After c turn context functions first 0 first
  | round {n : Nat} {r r' : KeyedRounds} : After c turn context functions first n r →
      r.next? c turn context functions = .ok (some r') →
      After c turn context functions first (n + 1) r'

def Stops (c : Catalog) (turn : Nat) (context : NumberedContext)
    (functions : List BindingFunction) (r : KeyedRounds) (outcome : Attempt Resolution) : Prop :=
  (r.next? c turn context functions = .ok none ∧
    outcome = (r.plain context functions).resolution context.context) ∨
  ∃ e, r.next? c turn context functions = .error e ∧ outcome = .error e

end KeyedRounds

/-! ## The same rounds -/

namespace Scratch

variable {chain : KeyedChain} {s' : Scratch}

def Agrees (context : NumberedContext) (chain : KeyedChain) (P : Nat → Prop) (s s' : Scratch) :
    Prop :=
  ∀ m, P m → s'.applied (.ofChain context (.function m) chain) =
    s.applied (.ofChain context (.function m) chain)

theorem binders_congr (h : Agrees context chain (number ≤ ·) s s') (fs : List BindingFunction) :
    s'.binders context chain number fs = s.binders context chain number fs := by
  induction fs generalizing number with
  | nil => rfl
  | cons f fs ih =>
    rw [binders, binders, h number Nat.le.refl, ih fun m hm => h m (Nat.le_of_succ_le hm)]

theorem binders_extend (s : Scratch) (d : Desire) (fs : List BindingFunction) :
    s.binders context (chain.extend d) number fs = s.binders context chain number fs := by
  induction fs generalizing number with
  | nil => rfl
  | cons f fs ih =>
    rw [binders, binders, ih]
    rfl

theorem agrees_set (rules : List Rule) : Agrees context chain (· ≠ number) s
    (s.set (.ofChain context (.function number) chain) (.rules rules)) := by
  intro m hm
  refine applied_set_of_ne fun h => hm ?_
  injection h with _ howner _
  injection howner

theorem askFrom_spec (s : Scratch) (c : Catalog) (turn : Nat) (context : NumberedContext)
    (chain : KeyedChain) (number : Nat) (fs : List BindingFunction) :
    let asked := s.askFrom c turn context chain number fs
    let answer := askBinders c turn context.context chain.chain (s.binders context chain number fs)
    asked.1 = answer.offer ∧ asked.2.binders context chain number fs = answer.binders ∧
      Agrees context chain (· < number) s asked.2 := by
  dsimp only
  induction fs generalizing s number with
  | nil => exact ⟨rfl, rfl, fun _ _ => rfl⟩
  | cons f fs ih =>
    have hask : (∀ o, f.offer c turn context.context chain.chain
          (s.applied (.ofChain context (.function number) chain)) ≠ .ok (some o)) →
        s.ask number f c turn context chain = (f.offer c turn context.context chain.chain
          (s.applied (.ofChain context (.function number) chain)), s) := s.ask_of_no_offer
    rw [askFrom, binders, askBinders, Binder.offer]
    cases hoffer : f.offer c turn context.context chain.chain
        (s.applied (.ofChain context (.function number) chain)) with
    | error e =>
      rw [hask fun o => by simp [hoffer], hoffer]
      exact ⟨rfl, rfl, fun _ _ => rfl⟩
    | ok found =>
      cases found with
      | none =>
        rw [hask fun o => by simp [hoffer], hoffer]
        obtain ⟨hanswer, hbinders, hlower⟩ := ih s (number + 1)
        refine ⟨hanswer, ?_, fun m hm => hlower m (Nat.lt_succ_of_lt hm)⟩
        rw [binders, hbinders, hlower number (Nat.lt_succ_self _)]
        rfl
      | some o =>
        rw [ask_of_offer hoffer]
        dsimp only
        -- the memory once the offer is remembered
        generalize hset : s.set (.ofChain context (.function number) chain)
          (.rules (s.applied (.ofChain context (.function number) chain) ++ o.rule.toList)) = after
        have hown : after.applied (.ofChain context (.function number) chain) =
            s.applied (.ofChain context (.function number) chain) ++ o.rule.toList := by
          rw [← hset, applied_set_rules]
        have hothers : Agrees context chain (· ≠ number) s after := hset ▸ agrees_set _
        have hrest : after.binders context chain (number + 1) fs =
            s.binders context chain (number + 1) fs :=
          binders_congr (fun m hm => hothers m (Nat.ne_of_gt hm)) fs
        split
        · obtain ⟨hanswer, hbinders, hlower⟩ := ih after (number + 1)
          rw [hrest] at hanswer hbinders
          refine ⟨hanswer, ?_, fun m hm => ?_⟩
          · rw [binders, hbinders, hlower number (Nat.lt_succ_self _), hown]
            rfl
          · rw [hlower m (Nat.lt_succ_of_lt hm), hothers m (Nat.ne_of_lt hm)]
        · refine ⟨rfl, ?_, fun m hm => hothers m (Nat.ne_of_lt hm)⟩
          rw [binders, hown, hrest]
          rfl

end Scratch

namespace KeyedRounds

variable {first r r' : KeyedRounds} {x : Settled}

def answer (c : Catalog) (turn : Nat) (context : NumberedContext)
    (functions : List BindingFunction) (r : KeyedRounds) : Answer :=
  askBinders c turn context.context r.chain.chain (r.scratch.binders context r.chain 0 functions)

theorem next?_of_over (h : (r.plain context functions).isOver = true) :
    r.next? c turn context functions = .ok none := if_pos h

theorem next?_of_open (c : Catalog) (turn : Nat)
    (h : (r.plain context functions).isOver = false) :
    ∃ scratch, r.next? c turn context functions =
        (r.answer c turn context functions).offer.map (·.map (r.accept · scratch)) ∧
      ∀ o, (r.accept o scratch).plain context functions =
        (r.plain context functions).accept o (r.answer c turn context functions).binders := by
  obtain ⟨hoffer, hbinders, -⟩ := r.scratch.askFrom_spec c turn context r.chain 0 functions
  refine ⟨(r.scratch.askFrom c turn context r.chain 0 functions).2, ?_, fun o => ?_⟩
  · unfold answer
    rw [← hoffer]
    exact if_neg (Bool.eq_false_iff.1 h)
  · exact congrArg (Rounds.mk · _ _ _ _ _ _) ((Scratch.binders_extend _ _ _).trans hbinders)

/-- The rounds come to what the rounds without a key come to. -/
theorem exists_stops (h : Rounds.Ends c turn context.context (r.plain context functions) x)
    (hr : After c turn context functions first n r) :
    ∃ m r', After c turn context functions first m r' ∧
      r'.Stops c turn context functions x.outcome := by
  -- along the rounds without a key, which are known to end
  generalize hplain : r.plain context functions = p at h
  induction h generalizing r n with
  | ended hover => exact ⟨n, r, hr, .inl ⟨next?_of_over (hplain ▸ hover), hplain ▸ rfl⟩⟩
  | failed hover hoffer =>
    subst hplain
    obtain ⟨scratch, hnext, -⟩ := next?_of_open c turn hover
    exact ⟨n, r, hr, .inr ⟨_, hnext.trans (congrArg _ hoffer), rfl⟩⟩
  | stuck hover hoffer =>
    subst hplain
    obtain ⟨scratch, hnext, -⟩ := next?_of_open c turn hover
    exact ⟨n, r, hr, .inl ⟨hnext.trans (congrArg _ hoffer), rfl⟩⟩
  | bound hover hoffer _ ih =>
    subst hplain
    obtain ⟨scratch, hnext, haccept⟩ := next?_of_open c turn hover
    exact ih (hr.round (hnext.trans (congrArg _ hoffer))) (haccept _)

/-! ## What every round keeps -/

/-- The chain has come from the desire, and no desire in it was there before the one before. -/
structure History (c : Catalog) (functions : List BindingFunction) (d : Desire) (key n : Nat)
    (r : KeyedRounds) (context : NumberedContext) : Prop where
  key : r.chain.key = key
  initial : r.chain.chain.initial = d
  length : r.chain.chain.length = n + 1
  point : ∀ x ∈ r.chain.chain.desires, x.point = d.point
  apart : ∀ i j x y, i + 1 < j → r.chain.chain.desires[i]? = some x →
    r.chain.chain.desires[j]? = some y → (x == y) = false
  within : (r.plain context functions).Within c functions d
  left : n + roundsLeft (narrowings c functions d) r.chain.chain ≤
    2 * (narrowings c functions d).length + 1

theorem plain_start (hnew : ∀ m, s.applied ⟨context.number, .function m, key⟩ = []) (d : Desire) :
    (start s key d).plain context functions = Rounds.start functions d := by
  have hbinders : ∀ number fs,
      s.binders context ⟨.singleton d, key⟩ number fs = fs.map Binder.ofFunction := by
    intro number fs
    induction fs generalizing number with
    | nil => rfl
    | cons f fs ih =>
      rw [Scratch.binders, ih, List.map_cons]
      exact congrArg (Binder.mk f · :: _) (hnew number)
  exact congrArg (Rounds.mk · _ _ _ _ _ _) (hbinders 0 functions)

theorem history_start (hnew : ∀ m, s.applied ⟨context.number, .function m, key⟩ = [])
    (d : Desire) : History c functions d key 0 (start s key d) context := by
  refine ⟨rfl, rfl, rfl, fun x hx => ?_, fun i j x y hij hi hj => ?_, ?_, ?_⟩
  · rw [List.mem_singleton.1 hx]
    rfl
  · have hj : j < 1 := (List.getElem?_eq_some_iff.1 hj).1
    omega
  · rw [plain_start hnew]
    exact Rounds.within_start c functions d
  · have := List.length_filter_le (fun x => !(DesireChain.singleton d).desires.contains x)
      (narrowings c functions d)
    show 0 + roundsLeft _ (.singleton d) ≤ _
    unfold roundsLeft
    split <;> omega

theorem apart_extend {chain : DesireChain} {z : Desire} (hnew : chain.earlier.contains z = false)
    (h : ∀ i j x y, i + 1 < j → chain.desires[i]? = some x → chain.desires[j]? = some y →
      (x == y) = false) :
    ∀ i j x y, i + 1 < j → (chain.extend z).desires[i]? = some x →
      (chain.extend z).desires[j]? = some y → (x == y) = false := by
  intro i j x y hij hi hj
  rw [DesireChain.desires_extend] at hi hj
  have hlast : chain.desires.length = chain.earlier.length + 1 := by
    rw [chain.desires_eq]
    simp
  have hj' : j < chain.desires.length + 1 := by
    simpa using (List.getElem?_eq_some_iff.1 hj).1
  rw [List.getElem?_append_left (by omega)] at hi
  by_cases hend : j < chain.desires.length
  · rw [List.getElem?_append_left hend] at hj
    exact h i j x y hij hi hj
  · have hjlen : j = chain.desires.length := by omega
    subst hjlen
    -- the desire at the end was not there before the latest, so `x` does not equal it
    rw [List.getElem?_concat_length] at hj
    cases hj
    have hmem : x ∈ chain.earlier := by
      rw [chain.desires_eq, List.getElem?_append_left (by omega)] at hi
      exact List.mem_of_getElem? hi
    refine Bool.eq_false_iff.2 fun hbeq => ?_
    have hfound : chain.earlier.contains x = true :=
      List.contains_iff_exists_mem_beq.2 ⟨x, hmem, BEq.rfl⟩
    rw [List.contains_congr hbeq, hnew] at hfound
    cases hfound

theorem History.round (hscript : ∀ f ∈ functions, f.isScripted = false)
    (h : History c functions d key n r context)
    (hnext : r.next? c turn context functions = .ok (some r')) :
    History c functions d key (n + 1) r' context := by
  have hover : (r.plain context functions).isOver = false := by
    refine Bool.eq_false_iff.2 fun hover => ?_
    rw [next?_of_over hover] at hnext
    cases hnext
  obtain ⟨scratch, heq, haccept⟩ := next?_of_open c turn hover
  rw [heq] at hnext
  obtain ⟨found, hoffer, hfound⟩ : ∃ found, (r.answer c turn context functions).offer = .ok found ∧
      found.map (r.accept · scratch) = some r' := by
    revert hnext
    cases (r.answer c turn context functions).offer with
    | error => nofun
    | ok found => exact fun hnext => ⟨found, rfl, Except.ok.inj hnext⟩
  obtain ⟨o, rfl, rfl⟩ := Option.map_eq_some_iff.1 hfound
  obtain ⟨hnew, -⟩ := askBinders_offer hoffer
  have hwithin : ((r.accept o scratch).plain context functions).Within c functions d := by
    rw [haccept]
    exact h.within.accept hscript hoffer
  have hmem : o.desire ∈ narrowings c functions d := by
    have hcurrent := hwithin.current
    rw [haccept, Rounds.accept, DesireChain.current_extend] at hcurrent
    exact hcurrent
  refine ⟨h.key, h.initial, ?_, fun x hx => ?_, apart_extend hnew h.apart, hwithin, ?_⟩
  · show (r.chain.chain.desires ++ [o.desire]).length = _
    rw [List.length_append, List.length_singleton]
    exact congrArg (· + 1) h.length
  · rcases List.mem_append.1 (DesireChain.desires_extend _ _ ▸ hx) with hx | hx
    · exact h.point x hx
    · rw [List.mem_singleton.1 hx]
      exact (mem_narrowings hmem).1
  · -- a round uses up a narrowing the chain did not have, or the one repetition of its latest desire
    have hless := roundsLeft_extend hmem hnew
    have hleft := h.left
    show n + 1 + roundsLeft _ (r.chain.chain.extend o.desire) ≤ _
    omega

theorem After.history (hscript : ∀ f ∈ functions, f.isScripted = false)
    (hnew : ∀ m, s.applied ⟨context.number, .function m, key⟩ = [])
    (h : After c turn context functions (start s key d) n r) :
    History c functions d key n r context := by
  induction h with
  | nil => exact history_start hnew d
  | round _ hnext ih => exact ih.round hscript hnext

theorem countP_le_two {ds : List Desire}
    (h : ∀ i j x y, i + 1 < j → ds[i]? = some x → ds[j]? = some y → (x == y) = false)
    (z : Desire) : ds.countP (· == z) ≤ 2 := by
  induction ds with
  | nil => exact Nat.zero_le _
  | cons a ds ih =>
    have hrest := ih fun i j x y hij hi hj => h (i + 1) (j + 1) x y (by omega) hi hj
    by_cases ha : (a == z) = true
    · cases ds with
      | nil => exact Nat.le_trans List.countP_le_length (by simp)
      | cons b ds =>
        have hnone : ds.countP (· == z) = 0 := by
          refine List.countP_eq_zero.2 fun y hy hyz => ?_
          obtain ⟨j, hj⟩ := List.mem_iff_getElem?.1 hy
          have hne := h 0 (j + 2) a y (by omega) rfl hj
          rw [BEq.trans ha (BEq.symm hyz)] at hne
          cases hne
        rw [List.countP_cons, List.countP_cons, hnone, if_pos ha]
        split <;> omega
    · rw [List.countP_cons, if_neg ha]
      exact hrest

/-- With the standard functions the rounds of a desire end, whatever the rules and the defaults are,
and come to what is settled on. After every round the chain has the key and the first desire it had,
all its desires are at one point, none of them comes again but directly after itself, and there are
no more of them than the catalog and the rules allow for. -/
theorem chain_of_rounds (c : Catalog) (given : List ScopedRule) (turn : Nat)
    (context : NumberedContext) (d : Desire) (key : Nat) (s : Scratch)
    (hnew : ∀ m, s.applied ⟨context.number, .function m, key⟩ = []) :
    let functions := BindingFunction.standard c given
    let first := start s key d
    (∃ n r, After c turn context functions first n r ∧ r.Stops c turn context functions
      (settle c functions turn context.context d).outcome) ∧
    ∀ n r, After c turn context functions first n r →
      r.chain.key = key ∧ r.chain.chain.initial = d ∧
      (∀ x ∈ r.chain.chain.desires, x.point = d.point) ∧
      (∀ i j x y, i + 1 < j → r.chain.chain.desires[i]? = some x →
        r.chain.chain.desires[j]? = some y → (x == y) = false) ∧
      (∀ x, r.chain.chain.desires.countP (· == x) ≤ 2) ∧
      r.chain.chain.length = n + 1 ∧ r.chain.chain.length ≤ roundBound c functions := by
  intro functions first
  have hscript := BindingFunction.isScripted_standard c given
  constructor
  · have hends : Rounds.Ends c turn context.context (.start functions d) _ :=
      Rounds.ends_settle hscript
    rw [← plain_start hnew] at hends
    exact exists_stops hends .nil
  · intro n r hr
    have h : History c functions d key n r context := hr.history hscript hnew
    refine ⟨h.key, h.initial, h.point, h.apart, countP_le_two h.apart, h.length, ?_⟩
    have hleft := h.left
    have hbound := length_narrowings c functions d
    rw [h.length]
    omega

/-- Two interfaces that extend each other, each bound to the other, in a context that has remembered
something for another chain. -/
theorem chain_of_rounds_cyclic :
    let a : TypeKey := .named "A"
    let b : TypeKey := .named "B"
    let c : Catalog := .freeze [⟨a, false, [b], [], {}, .noPreference, none, none⟩,
      ⟨b, false, [a], [], { implementation := some b }, .noPreference, none, none⟩] []
    let given : List ScopedRule := [⟨.any, a, .default, .type b, .noPreference, {}⟩,
      ⟨.any, b, .default, .type a, .noPreference, {}⟩]
    let functions := BindingFunction.standard c given
    let context : NumberedContext := ⟨.initial, 0, []⟩
    let d := c.rootDesire a none
    let s := Scratch.empty.set ⟨0, .function 0, 7⟩ (.rules (given.map (·.rule)))
    (∀ m, s.applied ⟨0, .function m, 8⟩ = []) ∧
    ∃ n r, After c 0 context functions (start s 8 d) n r ∧
      r.Stops c 0 context functions (settle c functions 0 context.context d).outcome ∧
      r.chain.key = 8 ∧ ∀ x, r.chain.chain.desires.countP (· == x) ≤ 2 := by
  intro a b c given functions context d s
  have hnew : ∀ m, s.applied ⟨0, .function m, 8⟩ = [] :=
    fun m => Scratch.applied_set_of_ne (by simp)
  obtain ⟨⟨n, r, hr, hstops⟩, hkept⟩ := chain_of_rounds c given 0 context d 8 s hnew
  obtain ⟨hkey, -, -, -, htwice, -⟩ := hkept n r hr
  exact ⟨hnew, n, r, hr, hstops, hkey, htwice⟩

end KeyedRounds

end Wiring
