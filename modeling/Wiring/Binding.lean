import Wiring.Desire.Renewal
import Wiring.Rule.Derived
import Wiring.Error

/-!
# Binding functions

A binding function offers, refuses or fails to narrow the current desire of a chain. Rules offer by
the best match of their patterns, provider injection serves providers, defaults come from the
catalog, a scripted function follows a list of cases, and any other function of the user chooses
among its answers by the context and the chain.
-/

namespace Wiring

structure Offer where
  desire : Desire
  policy : CachePolicy := .noPreference
  flags : BindFlags := {}
  /-- The rule behind the offer, which will not be applied to the chain again. -/
  rule : Option Rule := none

/-! ## Rules -/

structure Candidate where
  matched : ContextMatch
  rule : Rule

namespace Candidate

/-- The better match comes first, then the more specific qualifier matcher. -/
def order (a b : Candidate) : Ordering :=
  (a.matched.order b.matched).then (compare a.rule.matcher.priority b.rule.matcher.priority)

def leading (cs : List Candidate) : List Candidate :=
  cs.filter fun a => cs.all fun b => !(b.order a).isLT

end Candidate

/-- The rules of matching groups that apply to the desire and were not applied before. -/
def candidates (groups : List RuleGroup) (c : Catalog) (context : Context) (desire : Desire)
    (applied : List Rule) : List Candidate :=
  groups.flatMap fun g =>
    match g.pattern.match? c context.frames with
    | none => []
    | some m => (g.rules.filter fun r => r.applies desire && !applied.contains r).map (⟨m, ·⟩)

/-- The rules of a list, one of those that are equal, in order. -/
def distinctRules (rules : List Rule) : List Rule :=
  rules.foldl (fun found r => if found.contains r then found else found ++ [r]) []

/-- The best rule makes the offer. Several rules in the lead are an error, unless they are equal. -/
def offerByRules (groups : List RuleGroup) (c : Catalog) (context : Context) (chain : DesireChain)
    (applied : List Rule) : Attempt (Option Offer) :=
  let leading := Candidate.leading (candidates groups c context chain.current applied)
  match distinctRules (leading.map (·.rule)) with
  | [] => .ok none
  | [r] => .ok (some ⟨r.apply c chain.current, r.policy, r.flags, some r⟩)
  | tied => .error (.multipleBindings chain context tied)

/-! ## Providers -/

/-- A desire for a provider that nothing satisfies is met by an injected provider. What it provides
is resolved later, which is how a provider can close a cycle. -/
def offerProvider (c : Catalog) (chain : DesireChain) : Option Offer :=
  let d := chain.current
  if d.isInstantiable then none
  else d.type.provided?.map fun provided =>
    let target := c.desire { d.point with type := provided }
    { desire := d.restrict (.ofProviderOf target), flags := { terminal := true, deferred := true } }

/-! ## Defaults -/

/-- An implementation may be bound further, a provider or a value may not. -/
def Defaults.offer (defaults : Defaults) (c : Catalog) (d : Desire) : Option Offer :=
  match defaults with
  | ⟨some implementation, _, _⟩ => some { desire := d.restrictType c implementation }
  | ⟨none, some provider, _⟩ =>
    some { desire := d.restrict (.viaClass provider d.type), flags := { terminal := true } }
  | ⟨none, none, some value⟩ =>
    some { desire := d.restrict (.existing d.type value), flags := { terminal := true } }
  | ⟨none, none, none⟩ => none

/-- The defaults of the qualifier kind, for the desire that the point declares only. -/
def offerQualifierDefault (c : Catalog) (chain : DesireChain) : Option Offer :=
  if chain.bound.isEmpty then
    chain.current.qualifier.bind fun q =>
      (c.qualifierDefaults? q.kind).bind fun defaults => defaults.offer c chain.current
  else none

def offerTypeDefault (c : Catalog) (chain : DesireChain) : Option Offer :=
  if chain.current.qualifier.all (·.lenient) then
    (c.typeDefaults? chain.current.type).bind fun defaults => defaults.offer c chain.current
  else none

def offerDefault (c : Catalog) (chain : DesireChain) : Option Offer :=
  (offerQualifierDefault c chain).or (offerTypeDefault c chain)

/-! ## Functions of the user -/

inductive CaseAnswer where
  | fail (message : String)
  /-- Narrows the desire, or offers it as it is. -/
  | offer (target : Option BindTarget) (policy : CachePolicy) (flags : BindFlags)

namespace CaseAnswer

def target? : CaseAnswer → Option BindTarget
  | fail _ => none
  | offer target _ _ => target

/-- The answer for the current desire of a chain. Its own values are new on every occasion, and the
round is told by the length of the chain. -/
def give (c : Catalog) (turn : Nat) (chain : DesireChain) : CaseAnswer → Attempt (Option Offer)
  | fail message => .error (.config (.reported message))
  | offer target policy flags =>
    let d := chain.current
    let desire := match target with
      | none => d
      | some (.type t) => d.restrictType c t
      | some (.satisfaction s) => d.restrict (s.renew ⟨turn, chain.length⟩)
    .ok (some { desire, policy, flags })

end CaseAnswer

structure BindingCase where
  /-- The type of the desires it decides; without one, all. -/
  type : Option TypeKey
  answer : CaseAnswer

/-- The first case for the type of the desire decides. -/
def offerByCases (cases : List BindingCase) (c : Catalog) (turn : Nat) (chain : DesireChain) :
    Attempt (Option Offer) :=
  match cases.find? fun k => k.type.all (· == chain.current.type) with
  | none => .ok none
  | some k => k.answer.give c turn chain

def offerByChoice (answers : List CaseAnswer) (choose : Context → DesireChain → Option Nat)
    (c : Catalog) (turn : Nat) (context : Context) (chain : DesireChain) : Attempt (Option Offer) :=
  match (choose context chain).bind (answers[·]?) with
  | none => .ok none
  | some a => a.give c turn chain

/-! ## All of them -/

inductive BindingFunction where
  | rules (groups : List RuleGroup)
  | providers
  | defaults
  | scripted (cases : List BindingCase)
  | chosen (answers : List CaseAnswer) (choose : Context → DesireChain → Option Nat)

namespace BindingFunction

/-- The offer in a turn for the current desire of a chain, where the rules in `applied` are not to
be applied again. -/
def offer (f : BindingFunction) (c : Catalog) (turn : Nat) (context : Context)
    (chain : DesireChain) (applied : List Rule) : Attempt (Option Offer) :=
  match f with
  | rules groups => offerByRules groups c context chain applied
  | providers => .ok (offerProvider c chain)
  | defaults => .ok (offerDefault c chain)
  | scripted cases => offerByCases cases c turn chain
  | chosen answers choose => offerByChoice answers choose c turn context chain

def isScripted : BindingFunction → Bool
  | scripted _ | chosen _ _ => true
  | _ => false

/-- The numbers that tell functions apart are not shown. -/
def outline : BindingFunction → String
  | rules groups =>
    Text.recordOutline "RuleBasedBindingFunction"
      [("id", "_"),
       ("rules", Text.listOutline (groups.map fun g =>
          "(" ++ g.pattern.text ++ ", " ++ Text.listOutline (g.rules.map (·.text)) ++ ")"))]
  | providers => "ProviderBindingFunction"
  | defaults => "DefaultDesireBindingFunction"
  | scripted _ | chosen _ _ => "Custom"

def ofSet (s : RuleSet) (c : Catalog) (given : List ScopedRule) : BindingFunction :=
  rules (s.groups c given)

def standard (c : Catalog) (given : List ScopedRule) : List BindingFunction :=
  [ofSet .explicit c given, ofSet .intermediate c given, ofSet .super c given, providers, defaults]

end BindingFunction

end Wiring
