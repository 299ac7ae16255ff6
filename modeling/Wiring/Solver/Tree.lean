import Wiring.Solver.Workspace

/-!
# Resolving a desire with its dependencies

A desire is settled, and then the dependencies of its satisfaction are resolved one step further
in. A deferred resolution gets a node without edges and waits in the queue. If a dependency cannot
be satisfied, the last binding may be undone and the dependencies of the desire before it are
resolved instead.
-/

namespace Wiring

/-- Whether the error says that this very desire, as its point declares it, has no satisfaction. -/
def WiringError.blames (e : WiringError) (d : Desire) : Bool :=
  match e with
  | .unresolvable chain _ => chain.initial == d
  | _ => false

abbrev Resolved := Dependency × Graph

namespace Settings

def settle (s : Settings) (d : Desire) (context : Context) : Work Resolution := do
  let settled := Wiring.settle s.catalog s.functions (← Work.newTurn) context d
  Work.report settled.events
  settled.outcome

def inside (r : Resolution) (context : Context) : Context :=
  context.extend r.satisfaction r.qualifier

def defer (s : Settings) (r : Resolution) (context : Context) : Work Resolved := do
  let node ← Work.build (Dag.singleton (r.component s.catalog s.defaultPolicy))
  Work.report [.deferred node.label]
  Work.putOff ⟨node, inside r context⟩
  return (r.dependency, node)

def grow (s : Settings) (r : Resolution) (edges : List Resolved) : Work Resolved := do
  let draft : Dag.Draft Component Dependency := .ofLabel (r.component s.catalog s.defaultPolicy)
  return (r.dependency, ← Work.build (draft.addEdges edges).build)

abbrev ChildrenOutcome := Except (WiringError × Desire) (List Resolved)

/-- Resolves desires in order, up to the first that fails. -/
def children (resolve : Desire → Work Resolved) : List Desire → StateM Workspace ChildrenOutcome
  | [] => return .ok []
  | d :: ds => do
    match ← (resolve d).run with
    | .error e => return .error (e, d)
    | .ok edge =>
      match ← children resolve ds with
      | .error failure => return .error failure
      | .ok edges => return .ok (edge :: edges)

def childrenOf (s : Settings) (resolve : Desire → Context → Work Resolved) (r : Resolution)
    (context : Context) : Work ChildrenOutcome :=
  ExceptT.lift (children (resolve · (inside r context)) (r.satisfaction.dependencies s.catalog))

/-- Resolves the dependencies and grows the node. If one of them has no satisfaction, the last
binding is undone where that is allowed. -/
def expand (s : Settings) (resolve : Desire → Context → Work Resolved) (r : Resolution)
    (context : Context) : Work Resolved := do
  match ← s.childrenOf resolve r context with
  | .ok edges => s.grow r edges
  | .error (e, d) =>
    match if e.blames d then r.backtrack? else none with
    | none => throw e
    | some restored =>
      Work.report [.backtracked r.chain restored.chain]
      match ← s.childrenOf resolve restored context with
      | .ok edges => s.grow restored edges
      | .error (e, _) => throw e

/-- Resolves a desire where there is room for `room` more frames in the context. -/
def resolveWithin (s : Settings) : Nat → Desire → Context → Work Resolved
  | 0, d, context => throw (.cyclic d (context.tail?.map (·.satisfaction)) s.maxDepth)
  | room + 1, d, context => do
    let r ← s.settle d context
    if r.deferred then s.defer r context else s.expand (s.resolveWithin room) r context

/-- Resolves a desire with its dependencies. The context may be as deep as the settings allow, but
not deeper. -/
def resolveFully (s : Settings) (d : Desire) (context : Context) : Work Resolved :=
  s.resolveWithin (s.maxDepth + 1 - context.depth) d context

end Settings

end Wiring
