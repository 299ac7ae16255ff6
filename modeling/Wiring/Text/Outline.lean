/-!
# Outlines of values

The diagnostic form of records, lists and optional values: a name with its fields in braces, the
members of a list in brackets, `None` for a missing value.
-/

namespace Wiring.Text

/-- `Name`, or `Name \x7b field: text, field: text \x7d` when there are fields. -/
def recordOutline (name : String) (fields : List (String × String)) : String :=
  if fields.isEmpty then name
  else name ++ " \x7b " ++ ", ".intercalate (fields.map fun f => f.1 ++ ": " ++ f.2) ++ " \x7d"

/-- `[a, b]` -/
def listOutline (members : List String) : String := "[" ++ ", ".intercalate members ++ "]"

/-- `None` or `Some(a)` -/
def optionOutline : Option String → String
  | none => "None"
  | some s => "Some(" ++ s ++ ")"

def boolText (b : Bool) : String := if b then "true" else "false"

end Wiring.Text
