import Wiring.Desire

/-!
# Renewal

A satisfaction that stands in a script brings its own values along, and they are other objects each
time the script is followed. Renewing gives the satisfaction on one occasion. It says the same in
every other respect.
-/

namespace Wiring

def Value.renew (o : Occasion) (v : Value) : Value := { v with identity := v.identity.renew o }

mutual

/-- The satisfaction on an occasion. Providers are never a script's own. -/
def Satisfaction.renew (o : Occasion) : Satisfaction → Satisfaction
  | .existing t v => .existing t (v.renew o)
  | .injected t d => .injected t (Desire.renew o d)
  | s => s

def Desire.renew (o : Occasion) : Desire → Desire
  | ⟨p, t, s⟩ => ⟨p, t, renewOptional o s⟩

def renewOptional (o : Occasion) : Option Satisfaction → Option Satisfaction
  | none => none
  | some s => some (Satisfaction.renew o s)

end

@[simp] theorem Satisfaction.type_renew (o : Occasion) (s : Satisfaction) :
    (s.renew o).type = s.type := by
  cases s <;> rfl

@[simp] theorem Satisfaction.text_renew (o : Occasion) (s : Satisfaction) :
    (s.renew o).text = s.text := by
  cases s <;> rfl

@[simp] theorem Value.renew_renew (o p : Occasion) (v : Value) :
    (v.renew o).renew p = v.renew p := by
  cases h : v.identity <;> simp [renew, Identity.renew, h]

mutual

@[simp] theorem Satisfaction.renew_renew (o p : Occasion) :
    ∀ s : Satisfaction, (s.renew o).renew p = s.renew p
  | .existing _ _ => by simp [Satisfaction.renew]
  | .injected _ d => by simp [Satisfaction.renew, Desire.renew_renew o p d]
  | .construct _ | .viaClass _ _ | .viaProvider _ _ | .null _ => by simp [Satisfaction.renew]

@[simp] theorem Desire.renew_renew (o p : Occasion) :
    ∀ d : Desire, (d.renew o).renew p = d.renew p
  | ⟨_, _, s⟩ => by simp [Desire.renew, renewOptional_renewOptional o p s]

@[simp] theorem renewOptional_renewOptional (o p : Occasion) :
    ∀ s : Option Satisfaction, renewOptional p (renewOptional o s) = renewOptional p s
  | none => rfl
  | some s => by simp [renewOptional, Satisfaction.renew_renew o p s]

end

end Wiring
