import Wiring.Catalog

/-!
# The type hierarchy

Supertypes, distances and the types between two types. Types are walked level by level: the types
one more step up that no level before has shown. Declarations may form cycles and name types that
were never declared.
-/

namespace Wiring.Catalog

def supertypesOf (c : Catalog) (t : TypeKey) : List TypeKey :=
  ((c.info? t).map (·.supertypes)).getD []

def unseen (seen : List TypeKey) : List TypeKey → List TypeKey
  | [] => []
  | t :: ts => if t ∈ seen then unseen seen ts else t :: unseen (t :: seen) ts

def nextLevel (c : Catalog) (seen level : List TypeKey) : List TypeKey :=
  unseen seen (level.flatMap c.supertypesOf)

/-- The levels from `level` up, each type with its distance, for at most `fuel` levels. -/
def levels (c : Catalog) : Nat → Nat → List TypeKey → List TypeKey → List (TypeKey × Nat)
  | 0, _, _, _ => []
  | fuel + 1, distance, seen, level =>
    let next := c.nextLevel seen level
    level.map (·, distance) ++
      if next.isEmpty then [] else levels c fuel (distance + 1) (seen ++ next) next

/-- Every level but the first has a type that some type declares as its supertype. -/
def levelBound (c : Catalog) : Nat := 1 + (c.types.flatMap (·.supertypes)).length

/-- `t` and everything above it, nearest first, each type once with its distance. -/
def ascent (c : Catalog) (t : TypeKey) : List (TypeKey × Nat) := c.levels c.levelBound 0 [t] [t]

def supertypes (c : Catalog) (t : TypeKey) : List TypeKey :=
  ((c.ascent t).filter (0 < ·.2)).map (·.1)

def typeDistance? (c : Catalog) (sub sup : TypeKey) : Option Nat :=
  if sub = sup then some 0 else ((c.ascent sub).find? (·.1 == sup)).map (·.2)

def isAssignable (c : Catalog) (sub sup : TypeKey) : Bool := (c.typeDistance? sub sup).isSome

def typesBetween (c : Catalog) (sub sup : TypeKey) : List TypeKey :=
  (c.supertypes sub).filter fun t => t != sup && c.isAssignable t sup

end Wiring.Catalog
