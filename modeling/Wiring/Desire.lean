import Wiring.InjectionPoint
import Wiring.Value
import Wiring.Text.Outline

/-!
# Desires and satisfactions

A desire is a request for a dependency: the point it is for and the type it has been narrowed to. A
satisfaction is a complete way to produce a value, and a desire that has one can be instantiated as
it stands. The two are defined together, for an injected provider carries the desire it will serve.
-/

namespace Wiring

mutual

inductive Satisfaction where
  | construct (type : TypeKey)
  | existing (type : TypeKey) (value : Value)
  /-- Construct the provider class and ask it once. -/
  | viaClass (provider provided : TypeKey)
  /-- Ask a provider that exists already. -/
  | viaProvider (provided : TypeKey) (provider : Provider)
  | injected (type : TypeKey) (target : Desire)
  | null (type : TypeKey)

structure Desire where
  point : InjectionPoint
  type : TypeKey
  satisfaction? : Option Satisfaction

end

/-! ## Equality

Values and providers are compared by identity. An injected provider is the same as another if it
serves the same desire, whatever type it is said to have. -/

mutual

def Satisfaction.same : Satisfaction → Satisfaction → Bool
  | .construct a, .construct b => a == b
  | .existing a v, .existing b w => a == b && v == w
  | .viaClass p a, .viaClass q b => p == q && a == b
  | .viaProvider a p, .viaProvider b q => a == b && p == q
  | .injected _ d, .injected _ e => Desire.same d e
  | .null a, .null b => a == b
  | _, _ => false

def Desire.same : Desire → Desire → Bool
  | ⟨p, a, s⟩, ⟨q, b, t⟩ => p == q && a == b && sameOptional s t

def sameOptional : Option Satisfaction → Option Satisfaction → Bool
  | none, none => true
  | some s, some t => Satisfaction.same s t
  | _, _ => false

end

instance : BEq Satisfaction := ⟨Satisfaction.same⟩

instance : BEq Desire := ⟨Desire.same⟩

mutual

theorem Satisfaction.same_refl : ∀ s : Satisfaction, s.same s = true
  | .construct _ | .existing _ _ | .viaClass _ _ | .viaProvider _ _ | .null _ => by
    simp [Satisfaction.same]
  | .injected _ d => by simp [Satisfaction.same, Desire.same_refl d]

theorem Desire.same_refl : ∀ d : Desire, d.same d = true
  | ⟨_, _, s⟩ => by simp [Desire.same, sameOptional_refl s]

theorem sameOptional_refl : ∀ s : Option Satisfaction, sameOptional s s = true
  | none => rfl
  | some s => by simp [sameOptional, Satisfaction.same_refl s]

end

instance : ReflBEq Satisfaction := ⟨Satisfaction.same_refl _⟩

instance : ReflBEq Desire := ⟨Desire.same_refl _⟩

/-! ## Digests

Equal satisfactions have equal digests, so the type of an injected provider is left out. -/

mutual

def Satisfaction.digest : Satisfaction → UInt64
  | .construct a => Digest.mix 1 (hash a)
  | .existing a v => Digest.mix 2 (Digest.mix (hash a) (hash v))
  | .viaClass p a => Digest.mix 3 (Digest.mix (hash p) (hash a))
  | .viaProvider a p => Digest.mix 4 (Digest.mix (hash a) (hash p))
  | .injected _ d => Digest.mix 5 (Desire.digest d)
  | .null a => Digest.mix 6 (hash a)

def Desire.digest : Desire → UInt64
  | ⟨p, a, s⟩ => Digest.mix (hash p) (Digest.mix (hash a) (digestOptional s))

def digestOptional : Option Satisfaction → UInt64
  | none => 7
  | some s => Satisfaction.digest s

end

instance : Hashable Satisfaction := ⟨Satisfaction.digest⟩

instance : Hashable Desire := ⟨Desire.digest⟩

namespace Satisfaction

def type : Satisfaction → TypeKey
  | construct t | existing t _ | viaClass _ t | viaProvider t _ | injected t _ | null t => t

def kind : Satisfaction → String
  | construct _ => "Class"
  | existing _ _ => "Instance"
  | viaClass _ _ => "ProviderClass"
  | viaProvider _ _ => "ProviderInstance"
  | injected _ _ => "ProviderInjection"
  | null _ => "Null"

def text : Satisfaction → String
  | construct t => "class " ++ t.text
  | existing t _ => "instance of " ++ t.text
  | viaClass p t => "provider class " ++ p.text ++ " for " ++ t.text
  | viaProvider t _ => "provider instance for " ++ t.text
  | injected t _ => "injected " ++ t.text
  | null t => "null " ++ t.text

end Satisfaction

namespace Desire

def qualifier (d : Desire) : Option Qualifier := d.point.qualifier

def isInstantiable (d : Desire) : Bool := d.satisfaction?.isSome

def restrict (d : Desire) (s : Satisfaction) : Desire := ⟨d.point, s.type, some s⟩

/-- The place is written only where a type owns it. -/
def text (d : Desire) : String :=
  "Desire(" ++ qualifierLead d.qualifier ++ d.type.text ++
    (if d.point.owner.isSome then " at " ++ d.point.text else "") ++ ")"

end Desire

def Satisfaction.ofProviderOf (target : Desire) : Satisfaction :=
  injected (.provider target.type) target

end Wiring
