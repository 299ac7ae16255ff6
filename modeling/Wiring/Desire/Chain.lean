import Wiring.Desire

/-!
# Desire chains

The history of one dependency: the desire its point declares, then every desire that a binding
narrowed it to. A chain is never empty.
-/

namespace Wiring

structure DesireChain where
  initial : Desire
  bound : List Desire
deriving BEq

namespace DesireChain

instance : Hashable DesireChain := ⟨fun c => Digest.ofList (hash c.initial) c.bound⟩

def singleton (d : Desire) : DesireChain := ⟨d, []⟩

def desires (c : DesireChain) : List Desire := c.initial :: c.bound

def current (c : DesireChain) : Desire := c.bound.getLastD c.initial

def earlier (c : DesireChain) : List Desire := c.desires.dropLast

def length (c : DesireChain) : Nat := c.desires.length

def extend (c : DesireChain) (d : Desire) : DesireChain := ⟨c.initial, c.bound ++ [d]⟩

/-- The chain without its last binding; nothing is before a chain of one desire. -/
def previous? (c : DesireChain) : Option DesireChain :=
  if c.bound.isEmpty then none else some ⟨c.initial, c.bound.dropLast⟩

def text (c : DesireChain) : String := " -> ".intercalate (c.desires.map (·.text))

/-- The key that tells chains apart while they are bound is not shown. -/
def outline (c : DesireChain) : String :=
  Text.recordOutline "DesireChain"
    [("key", "ChainKey(_)"), ("desires", Text.listOutline (c.desires.map (·.text)))]

instance : ReflBEq DesireChain where
  rfl {c} := by
    show instBEqDesireChain.beq c c = true
    simp [instBEqDesireChain.beq]

@[simp] theorem initial_extend (c : DesireChain) (d : Desire) : (c.extend d).initial = c.initial :=
  rfl

@[simp] theorem current_extend (c : DesireChain) (d : Desire) : (c.extend d).current = d := by
  simp [extend, current]

@[simp] theorem desires_extend (c : DesireChain) (d : Desire) :
    (c.extend d).desires = c.desires ++ [d] := rfl

@[simp] theorem earlier_extend (c : DesireChain) (d : Desire) :
    (c.extend d).earlier = c.desires := by
  simp [earlier]

@[simp] theorem previous?_extend (c : DesireChain) (d : Desire) :
    (c.extend d).previous? = some c := by
  simp [extend, previous?]

theorem previous?_spec {c k : DesireChain} (h : c.previous? = some k) :
    k.initial = c.initial ∧ k.desires = c.desires.dropLast := by
  unfold previous? at h
  split at h
  · cases h
  · rename_i hbound
    cases h
    exact ⟨rfl, (List.dropLast_cons_of_ne_nil (by simpa using hbound)).symm⟩

theorem desires_ne_nil (c : DesireChain) : c.desires ≠ [] := by simp [desires]

end DesireChain

end Wiring
