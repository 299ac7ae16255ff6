import Wiring.TypeKey
import Wiring.Qualifier

/-!
# Injection points

The place a dependency is injected into: a named point of the type that owns it, or a point without
an owner where a root is requested.
-/

namespace Wiring

structure InjectionPoint where
  owner : Option TypeKey
  name : String
  type : TypeKey
  qualifier : Option Qualifier := none
  /-- Whether null may be injected. -/
  nullable : Bool := false
deriving DecidableEq

namespace InjectionPoint

instance : Hashable InjectionPoint :=
  ⟨fun p => Digest.mix (Digest.ofOption p.owner) (Digest.mix (Digest.ofText p.name)
    (Digest.mix (hash p.type) (Digest.ofOption p.qualifier)))⟩

def ofRoot (type : TypeKey) (qualifier : Option Qualifier) : InjectionPoint where
  owner := none
  name := "<root>"
  type := type
  qualifier := qualifier

def text (p : InjectionPoint) : String :=
  (p.owner.map fun o => o.text ++ ".").getD "" ++ p.name ++ ": " ++ qualifierLead p.qualifier ++
    p.type.text

end InjectionPoint

end Wiring
