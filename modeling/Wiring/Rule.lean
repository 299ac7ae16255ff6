import Wiring.CachePolicy
import Wiring.Qualifier.Matcher
import Wiring.Catalog

/-!
# Bind rules

A rule turns desires of one type, under qualifiers that its matcher accepts, into desires for its
target.
-/

namespace Wiring

inductive BindTarget where
  /-- Another type, which may be bound further. -/
  | type (type : TypeKey)
  | satisfaction (satisfaction : Satisfaction)
deriving BEq

namespace BindTarget

def key : BindTarget → TypeKey
  | type t => t
  | satisfaction s => s.type

def text : BindTarget → String
  | type t => t.text
  | satisfaction s => s.text

end BindTarget

structure BindFlags where
  /-- The edge is exempt from revisions. -/
  fixed : Bool := false
  /-- No further binding once the result can be instantiated. -/
  terminal : Bool := false
  /-- The dependencies of the result are resolved in a later pass. -/
  deferred : Bool := false
  /-- The binding may be undone when its result cannot be resolved. -/
  skippable : Bool := false
deriving DecidableEq

namespace BindFlags

def toList (f : BindFlags) : List (String × Bool) :=
  [("fixed", f.fixed), ("terminal", f.terminal), ("deferred", f.deferred),
    ("skippable", f.skippable)]

def names (f : BindFlags) : List String := (f.toList.filter (·.2)).map (·.1)

def ofNames (names : List String) : BindFlags :=
  ⟨names.contains "fixed", names.contains "terminal", names.contains "deferred",
    names.contains "skippable"⟩

def trail (f : BindFlags) : String :=
  if f.names.isEmpty then "" else " (" ++ ", ".intercalate f.names ++ ")"

end BindFlags

structure Rule where
  dependType : TypeKey
  matcher : QualifierMatcher
  target : BindTarget
  policy : CachePolicy
  flags : BindFlags
deriving BEq

namespace Rule

def applies (r : Rule) (d : Desire) : Bool :=
  d.type == r.dependType && r.matcher.accepts d.qualifier

def apply (r : Rule) (c : Catalog) (d : Desire) : Desire :=
  match r.target with
  | .type t => d.restrictType c t
  | .satisfaction s => d.restrict s

def retarget (r : Rule) (t : TypeKey) : Rule := { r with dependType := t }

def text (r : Rule) : String :=
  "bind " ++ r.matcher.lead ++ r.dependType.text ++ " to " ++ r.target.text ++ r.policy.trail ++
    r.flags.trail

end Rule

end Wiring
