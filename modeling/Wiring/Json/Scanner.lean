/-!
# Scanning JSON

Readers of the pieces of a JSON document. Each takes a piece from the front of the characters and
gives back the rest, or nothing if the piece is not there. `skipValue` takes any value without
looking at what it says.
-/

namespace Wiring.Json

def isGap (c : Char) : Bool := c == ' ' || c == '\n' || c == '\t' || c == '\r'

def skipGap (cs : List Char) : List Char := cs.dropWhile isGap

def mark (c : Char) (cs : List Char) : Option (List Char) :=
  match skipGap cs with
  | d :: rest => if d = c then some rest else none
  | [] => none

def word : List Char → List Char → Option (List Char)
  | [], cs => some cs
  | w :: ws, c :: cs => if w = c then word ws cs else none
  | _ :: _, [] => none

def hexDigit? (c : Char) : Option Nat :=
  if c.isDigit then some (c.toNat - '0'.toNat)
  else if 'a' ≤ c ∧ c ≤ 'f' then some (c.toNat - 'a'.toNat + 10)
  else if 'A' ≤ c ∧ c ≤ 'F' then some (c.toNat - 'A'.toNat + 10)
  else none

def hexUnit : List Char → Option (Nat × List Char)
  | a :: b :: c :: d :: rest => do
    let a ← hexDigit? a
    let b ← hexDigit? b
    let c ← hexDigit? c
    let d ← hexDigit? d
    return (a * 4096 + b * 256 + c * 16 + d, rest)
  | _ => none

def shortEscape? : Char → Option Char
  | '"' => some '"'
  | '\\' => some '\\'
  | '/' => some '/'
  | 'b' => some '\x08'
  | 'f' => some '\x0c'
  | 'n' => some '\n'
  | 'r' => some '\r'
  | 't' => some '\t'
  | _ => none

/-- Takes the rest of an escape that gives a character in hexadecimal. Characters beyond 16 bits
are given by two escapes, and neither half may stand alone. -/
def hexEscape (cs : List Char) : Option (Char × List Char) := do
  let (unit, rest) ← hexUnit cs
  if 0xd800 ≤ unit ∧ unit < 0xdc00 then
    match rest with
    | '\\' :: 'u' :: rest => do
      let (low, rest) ← hexUnit rest
      if 0xdc00 ≤ low ∧ low < 0xe000 then
        return (Char.ofNat (0x10000 + (unit - 0xd800) * 0x400 + (low - 0xdc00)), rest)
      else none
    | _ => none
  else if 0xdc00 ≤ unit ∧ unit < 0xe000 then none
  else return (Char.ofNat unit, rest)

def stringRest : Nat → List Char → List Char → Option (String × List Char)
  | 0, _, _ => none
  | _ + 1, _, [] => none
  | fuel + 1, read, c :: cs =>
    if c = '"' then some (String.ofList read.reverse, cs)
    else if c.toNat < 0x20 then none
    else if c = '\\' then
      match cs with
      | 'u' :: cs => do
        let (c, cs) ← hexEscape cs
        stringRest fuel (c :: read) cs
      | e :: cs => do
        let c ← shortEscape? e
        stringRest fuel (c :: read) cs
      | [] => none
    else stringRest fuel (c :: read) cs

def string (cs : List Char) : Option (String × List Char) := do
  let cs ← mark '"' cs
  stringRest (cs.length + 1) [] cs

/-- Takes the rest of a string without looking at what it says; half a character passes. -/
def skipStringRest : Nat → List Char → Option (List Char)
  | 0, _ => none
  | _ + 1, [] => none
  | fuel + 1, c :: cs =>
    if c = '"' then some cs
    else if c.toNat < 0x20 then none
    else if c = '\\' then
      match cs with
      | 'u' :: cs => do
        let (_, cs) ← hexUnit cs
        skipStringRest fuel cs
      | e :: cs => if (shortEscape? e).isSome then skipStringRest fuel cs else none
      | [] => none
    else skipStringRest fuel cs

def digits (cs : List Char) : Option (List Char × List Char) :=
  let found := cs.takeWhile Char.isDigit
  match found with
  | [] => none
  | '0' :: _ :: _ => none
  | _ => some (found, cs.dropWhile Char.isDigit)

def someDigits (cs : List Char) : Option (List Char) :=
  match cs with
  | c :: rest => if c.isDigit then some (rest.dropWhile Char.isDigit) else none
  | [] => none

def skipExponent (cs : List Char) : Option (List Char) :=
  match cs with
  | e :: rest =>
    if e = 'e' ∨ e = 'E' then
      match rest with
      | '+' :: rest | '-' :: rest => someDigits rest
      | rest => someDigits rest
    else some cs
  | [] => some []

def skipNumber (cs : List Char) : Option (List Char) := do
  let (_, cs) ← digits (match cs with
    | '-' :: rest => rest
    | cs => cs)
  match cs with
  | '.' :: rest => someDigits rest >>= skipExponent
  | cs => skipExponent cs

inductive Around where
  | list
  | object
deriving DecidableEq

def skipName (cs : List Char) : Option (List Char) := do
  let cs ← mark '"' cs
  let cs ← skipStringRest (cs.length + 1) cs
  mark ':' cs

mutual

/-- Takes a value and what follows it, up to the end of everything around it. -/
def skipFrom : Nat → List Around → List Char → Option (List Char)
  | 0, _, _ => none
  | fuel + 1, around, cs =>
    match skipGap cs with
    | 'n' :: cs => word "ull".toList cs >>= skipAfter fuel around
    | 't' :: cs => word "rue".toList cs >>= skipAfter fuel around
    | 'f' :: cs => word "alse".toList cs >>= skipAfter fuel around
    | '"' :: cs => skipStringRest (cs.length + 1) cs >>= skipAfter fuel around
    | '[' :: cs =>
      match mark ']' cs with
      | some cs => skipAfter fuel around cs
      | none => skipFrom fuel (.list :: around) cs
    | '\x7b' :: cs =>
      match mark '\x7d' cs with
      | some cs => skipAfter fuel around cs
      | none => skipName cs >>= skipFrom fuel (.object :: around)
    | cs => skipNumber cs >>= skipAfter fuel around

def skipAfter : Nat → List Around → List Char → Option (List Char)
  | 0, _, _ => none
  | _ + 1, [], cs => some cs
  | fuel + 1, .list :: around, cs =>
    match skipGap cs with
    | ',' :: cs => skipFrom fuel (.list :: around) cs
    | ']' :: cs => skipAfter fuel around cs
    | _ => none
  | fuel + 1, .object :: around, cs =>
    match skipGap cs with
    | ',' :: cs => skipName cs >>= skipFrom fuel (.object :: around)
    | '\x7d' :: cs => skipAfter fuel around cs
    | _ => none

end

/-- Takes any value. Every step of the scan but the last takes a character. -/
def skipValue (cs : List Char) : Option (List Char) := skipFrom (cs.length + 2) [] cs

end Wiring.Json
