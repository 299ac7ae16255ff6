import Wiring.Text.Quoted

/-!
# JSON documents

Documents as they are written: every member on a line of its own, two blanks further in than the
brackets around it.
-/

namespace Wiring

inductive Json where
  | null
  | bool (b : Bool)
  | number (n : Nat)
  | text (s : String)
  | list (members : List Json)
  | object (fields : List (String × Json))

namespace Json

def controlEscape (n : Nat) : String :=
  "\\u00" ++ (if n < 16 then "0" else "") ++ Text.hex n

def escapedChar (c : Char) : String :=
  if c = '"' then "\\\""
  else if c = '\\' then "\\\\"
  else if c = '\n' then "\\n"
  else if c = '\r' then "\\r"
  else if c = '\t' then "\\t"
  else if c = '\x08' then "\\b"
  else if c = '\x0c' then "\\f"
  else if c.toNat < 0x20 then controlEscape c.toNat
  else c.toString

def quoted (s : String) : String := "\"" ++ String.join (s.toList.map escapedChar) ++ "\""

/-- Lines in brackets, one line a member; nothing between the brackets where there is no member. -/
def bracketed (depth : Nat) (left right : String) (members : List String) : String :=
  if members.isEmpty then left ++ right
  else
    let inside := "\n" ++ String.ofList (List.replicate (2 * (depth + 1)) ' ')
    left ++ inside ++ ("," ++ inside).intercalate members ++ "\n" ++
      String.ofList (List.replicate (2 * depth) ' ') ++ right

mutual

/-- The text of a document that begins `depth` brackets in. -/
def renderAt (depth : Nat) : Json → String
  | null => "null"
  | bool b => if b then "true" else "false"
  | number n => toString n
  | text s => quoted s
  | list ms => bracketed depth "[" "]" (renderMembers (depth + 1) ms)
  | object fs => bracketed depth "\x7b" "\x7d" (renderFields (depth + 1) fs)

def renderMembers (depth : Nat) : List Json → List String
  | [] => []
  | m :: ms => renderAt depth m :: renderMembers depth ms

def renderFields (depth : Nat) : List (String × Json) → List String
  | [] => []
  | (k, v) :: fs => (quoted k ++ ": " ++ renderAt depth v) :: renderFields depth fs

end

def render (j : Json) : String := renderAt 0 j

def ofOption : Option String → Json
  | none => null
  | some s => text s

end Json

end Wiring
