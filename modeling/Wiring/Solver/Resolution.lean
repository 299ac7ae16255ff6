import Wiring.Catalog
import Wiring.Component

/-!
# Resolutions

What the binding rounds come to for one desire: a satisfaction, how the desire was narrowed to it,
and how the result is to be treated.
-/

namespace Wiring

structure Resolution where
  satisfaction : Satisfaction
  policy : CachePolicy
  chain : DesireChain
  fixed : Bool
  deferred : Bool
  skippable : Bool

namespace Resolution

/-- The label of the node. A policy that the bindings leave open is that of the class, then that of
the solver. -/
def component (r : Resolution) (c : Catalog) (solverPolicy : CachePolicy) : Component :=
  ⟨r.satisfaction, (r.policy.or (r.satisfaction.policy c)).or solverPolicy⟩

def dependency (r : Resolution) : Dependency := ⟨r.chain, r.fixed⟩

def qualifier (r : Resolution) : Option Qualifier := r.chain.current.qualifier

/-- The resolution without its last binding, if that may be undone and the desire before it can be
instantiated. The policy and the other flags stay. -/
def backtrack? (r : Resolution) : Option Resolution :=
  if r.skippable then do
    let chain ← r.chain.previous?
    let satisfaction ← chain.current.satisfaction?
    return { r with satisfaction, chain, skippable := false }
  else none

theorem backtrack?_eq_some {r p : Resolution} : r.backtrack? = some p ↔
    r.skippable = true ∧ ∃ chain, r.chain.previous? = some chain ∧
      ∃ satisfaction, chain.current.satisfaction? = some satisfaction ∧
        { r with satisfaction, chain, skippable := false } = p := by
  unfold backtrack?
  split
  · simp [Option.bind_eq_some_iff, *]
  · simp [*]

theorem backtrack?_backtrack? (r p : Resolution) (h : r.backtrack? = some p) :
    p.backtrack? = none := by
  obtain ⟨-, _, -, _, -, rfl⟩ := backtrack?_eq_some.mp h
  rfl

end Resolution

end Wiring
