import Wiring.Binding
import Wiring.Journal
import Wiring.Solver.Resolution

/-!
# Binding rounds

One desire is narrowed round by round. In every round the functions are asked in order, and the
first acceptable offer is taken: one that does not go back to a desire before the current one. The
rounds end when an offer was terminal and the desire can be instantiated, or when no offer is
acceptable. All rounds of one run share a turn, and no other run has it.
-/

namespace Wiring

/-- A binding function with what it remembers of the chain at hand: the rules it has offered. -/
structure Binder where
  function : BindingFunction
  applied : List Rule

namespace Binder

def ofFunction (f : BindingFunction) : Binder := ⟨f, []⟩

def remember (b : Binder) (o : Offer) : Binder := { b with applied := b.applied ++ o.rule.toList }

def offer (b : Binder) (c : Catalog) (turn : Nat) (context : Context) (chain : DesireChain) :
    Attempt (Option Offer) :=
  b.function.offer c turn context chain b.applied

def notes (b : Binder) (context : Context) (chain : DesireChain) : List Event :=
  if b.function.isScripted then [.asked chain.current context] else []

end Binder

/-- The answer to asking the functions: the accepted offer, the functions with what they remember
now, and the notes they left. -/
structure Answer where
  offer : Attempt (Option Offer)
  binders : List Binder
  notes : List Event

namespace Answer

def after (b : Binder) (notes : List Event) (a : Answer) : Answer :=
  ⟨a.offer, b :: a.binders, notes ++ a.notes⟩

end Answer

/-- Asks the functions in order, up to the first acceptable offer or the first error. An offer that
is not acceptable is remembered all the same. -/
def askBinders (c : Catalog) (turn : Nat) (context : Context) (chain : DesireChain) :
    List Binder → Answer
  | [] => ⟨.ok none, [], []⟩
  | b :: bs =>
    let notes := b.notes context chain
    match b.offer c turn context chain with
    | .error e => ⟨.error e, b :: bs, notes⟩
    | .ok none => (askBinders c turn context chain bs).after b notes
    | .ok (some o) =>
      if chain.earlier.contains o.desire then
        (askBinders c turn context chain bs).after (b.remember o) notes
      else ⟨.ok (some o), b.remember o :: bs, notes⟩

structure Rounds where
  binders : List Binder
  chain : DesireChain
  policy : CachePolicy := .noPreference
  fixed : Bool := false
  deferred : Bool := false
  skippable : Bool := false
  terminal : Bool := false

structure Settled where
  outcome : Attempt Resolution
  events : List Event

namespace Rounds

def start (functions : List BindingFunction) (d : Desire) : Rounds where
  binders := functions.map .ofFunction
  chain := .singleton d

def isOver (r : Rounds) : Bool := r.terminal && r.chain.current.isInstantiable

/-- Takes an offer. The strongest policy holds, a flag that was set stays set, but whether the
result is terminal or may be undone is up to the last offer. -/
def accept (r : Rounds) (o : Offer) (binders : List Binder) : Rounds where
  binders := binders
  chain := r.chain.extend o.desire
  policy := r.policy.max o.policy
  fixed := r.fixed || o.flags.fixed
  deferred := r.deferred || o.flags.deferred
  skippable := o.flags.skippable
  terminal := o.flags.terminal

def resolution (r : Rounds) (context : Context) : Attempt Resolution :=
  match r.chain.current.satisfaction? with
  | some satisfaction =>
    .ok ⟨satisfaction, r.policy, r.chain, r.fixed, r.deferred, r.skippable⟩
  | none => .error (.unresolvable r.chain context)

/-- The rounds from here on, for at most `fuel` of them; nothing if they go on longer. -/
def run? (c : Catalog) (turn : Nat) (context : Context) : Nat → Rounds → Option Settled
  | 0, _ => none
  | fuel + 1, r =>
    if r.isOver then some ⟨r.resolution context, []⟩
    else
      let answer := askBinders c turn context r.chain r.binders
      match answer.offer with
      | .error e => some ⟨.error e, answer.notes⟩
      | .ok none => some ⟨r.resolution context, answer.notes⟩
      | .ok (some o) =>
        let next := r.accept o answer.binders
        (run? c turn context fuel next).map fun s =>
          ⟨s.outcome, answer.notes ++ .bound next.chain context :: s.events⟩

end Rounds

/-- The targets that a function may bind to; without one, a case offers the desire as it is. -/
def BindingFunction.targets : BindingFunction → List (Option BindTarget)
  | rules groups => (groups.flatMap (·.rules)).map fun r => some r.target
  | providers | defaults => []
  | scripted cases => cases.map (·.answer.target?)
  | chosen answers _ => answers.map (·.target?)

/-- More desires than a chain can have, if those with new values count as one. A desire has one of
finitely many types, and each type has few satisfactions; no desire comes twice but directly after
itself. -/
def desireBound (c : Catalog) (functions : List BindingFunction) : Nat :=
  10 * ((functions.flatMap (·.targets)).length + c.types.length + c.qualifiers.length + 2)

/-- More rounds than there are in any run that ends. Only so many rounds apply a rule or bring a
desire without a new value. Between two of them the desires have new values, and if one came again
but for its value, so would the next, for ever. -/
def roundBound (c : Catalog) (functions : List BindingFunction) : Nat :=
  desireBound c functions * desireBound c functions

/-- Runs the binding rounds on a desire, in a turn of their own. -/
def settle (c : Catalog) (functions : List BindingFunction) (turn : Nat) (context : Context)
    (d : Desire) : Settled :=
  ((Rounds.start functions d).run? c turn context (roundBound c functions)).getD
    ⟨.error (.unresolvable (.singleton d) context), []⟩

end Wiring
