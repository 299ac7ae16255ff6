import Wiring.Text.Printable

/-!
# Quoted texts

The quoted form of a text: between double quotes, with escapes for quotes, backslashes, line
breaks and every character that has no printed form or would be drawn onto the one before it.
-/

namespace Wiring.Text

def hex (n : Nat) : String := String.ofList (Nat.toDigits 16 n)

def quotedChar (c : Char) : String :=
  if c = '\x00' then "\\0"
  else if c = '\t' then "\\t"
  else if c = '\r' then "\\r"
  else if c = '\n' then "\\n"
  else if c = '\\' then "\\\\"
  else if c = '"' then "\\\""
  else if isExtender c || !isPrinted c then "\\u\x7b" ++ hex c.toNat ++ "\x7d"
  else c.toString

def quoted (s : String) : String :=
  "\"" ++ String.join (s.toList.map quotedChar) ++ "\""

end Wiring.Text
