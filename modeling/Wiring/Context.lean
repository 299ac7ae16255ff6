import Wiring.Desire

/-!
# Contexts

The stack of what is being built around a desire, from the root inwards.
-/

namespace Wiring

/-- One step inwards: what is being built, and the qualifier it was wanted with. -/
structure Frame where
  satisfaction : Satisfaction
  qualifier : Option Qualifier
deriving BEq

namespace Frame

def type (f : Frame) : TypeKey := f.satisfaction.type

def text (f : Frame) : String := qualifierLead f.qualifier ++ f.type.text

end Frame

/-- The frames from the root to the innermost. -/
structure Context where
  frames : List Frame
deriving BEq

namespace Context

def initial : Context := ⟨[]⟩

def extend (c : Context) (s : Satisfaction) (q : Option Qualifier) : Context :=
  ⟨c.frames ++ [⟨s, q⟩]⟩

def depth (c : Context) : Nat := c.frames.length

def tail? (c : Context) : Option Frame := c.frames.getLast?

def leading? (c : Context) : Option Context :=
  if c.frames.isEmpty then none else some ⟨c.frames.dropLast⟩

def text (c : Context) : String := Text.listOutline (c.frames.map (·.text))

def outline (c : Context) : String := "InjectionContext" ++ c.text

@[simp] theorem depth_initial : initial.depth = 0 := rfl

@[simp] theorem depth_extend (c : Context) (s : Satisfaction) (q : Option Qualifier) :
    (c.extend s q).depth = c.depth + 1 := by simp [extend, depth]

@[simp] theorem leading?_extend (c : Context) (s : Satisfaction) (q : Option Qualifier) :
    (c.extend s q).leading? = some c := by simp [extend, leading?]

@[simp] theorem tail?_extend (c : Context) (s : Satisfaction) (q : Option Qualifier) :
    (c.extend s q).tail? = some ⟨s, q⟩ := by simp [extend, tail?]

end Context

end Wiring
