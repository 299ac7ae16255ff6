import Wiring.Binding

/-!
# Scratch memory

What is remembered while chains are bound. Every context has memory of its own, divided by owner and
by chain. A chain keeps its key when it is extended, so what was remembered for it is found again.
-/

namespace Wiring

inductive Owner where
  | function (number : Nat)
  | caller (number : Nat)
deriving DecidableEq

/-- Where something is remembered: the context it belongs to, who owns it, and for which chain. -/
structure ScratchKey where
  context : Nat
  owner : Owner
  chain : Nat
deriving DecidableEq

inductive Slot where
  | number (n : UInt64)
  | text (s : String)
  | rules (applied : List Rule)

/-! ## Who has memory -/

/-- A context with the numbers of its memory and of those around it, its own first. -/
structure NumberedContext where
  context : Context
  number : Nat
  outer : List Nat

namespace NumberedContext

def extend (c : NumberedContext) (number : Nat) (s : Satisfaction) (q : Option Qualifier) :
    NumberedContext :=
  ⟨c.context.extend s q, number, c.number :: c.outer⟩

def leading? (c : NumberedContext) : Option NumberedContext :=
  match c.context.leading?, c.outer with
  | some context, number :: outer => some ⟨context, number, outer⟩
  | _, _ => none

end NumberedContext

structure KeyedChain where
  chain : DesireChain
  key : Nat

namespace KeyedChain

def extend (c : KeyedChain) (d : Desire) : KeyedChain := { c with chain := c.chain.extend d }

def previous? (c : KeyedChain) : Option KeyedChain :=
  c.chain.previous?.map fun chain => { c with chain }

end KeyedChain

def ScratchKey.ofChain (context : NumberedContext) (owner : Owner) (chain : KeyedChain) :
    ScratchKey :=
  ⟨context.number, owner, chain.key⟩

/-! ## The memory -/

/-- The places written so far, the latest first. -/
structure Scratch where
  slots : List (ScratchKey × Slot)

namespace Scratch

def empty : Scratch := ⟨[]⟩

def get? (s : Scratch) (k : ScratchKey) : Option Slot := s.slots.lookup k

def set (s : Scratch) (k : ScratchKey) (v : Slot) : Scratch := ⟨(k, v) :: s.slots⟩

/-- The number at a place; a place that holds something else counts as new. -/
def number (s : Scratch) (k : ScratchKey) : UInt64 :=
  match s.get? k with
  | some (.number n) => n
  | _ => 0

def text (s : Scratch) (k : ScratchKey) : String :=
  match s.get? k with
  | some (.text t) => t
  | _ => ""

def applied (s : Scratch) (k : ScratchKey) : List Rule :=
  match s.get? k with
  | some (.rules rs) => rs
  | _ => []

/-- Adds to the number at a place, wrapping at the end of the range. -/
def addNumber (s : Scratch) (k : ScratchKey) (n : UInt64) : UInt64 × Scratch :=
  (s.number k + n, s.set k (.number (s.number k + n)))

def appendText (s : Scratch) (k : ScratchKey) (t : String) : String × Scratch :=
  (s.text k ++ t, s.set k (.text (s.text k ++ t)))

/-- Asks a binding function with a number, in some turn. It remembers the rule it offers. -/
def ask (s : Scratch) (number : Nat) (f : BindingFunction) (c : Catalog) (turn : Nat)
    (context : NumberedContext) (chain : KeyedChain) : Attempt (Option Offer) × Scratch :=
  let k := ScratchKey.ofChain context (.function number) chain
  let applied := s.applied k
  let offered := f.offer c turn context.context chain.chain applied
  match offered with
  | .ok (some o) => (offered, s.set k (.rules (applied ++ o.rule.toList)))
  | _ => (offered, s)

end Scratch

end Wiring
