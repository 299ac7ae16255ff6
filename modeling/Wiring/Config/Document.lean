import Wiring.Config
import Wiring.Json
import Wiring.Json.Scanner

/-!
# Settings as JSON

A settings document is an object with the settings as fields, or a list of them in their order.
Settings that are missing keep their defaults. Fields with other names are passed over, but no
setting may be given twice, and nothing may follow the document.
-/

namespace Wiring.Config

open Json (mark skipGap)

def json (c : Config) : Json :=
  .object
    [("max_depth", .number c.maxDepth),
     ("default_policy", .text c.defaultPolicy.text),
     ("container_policy", .text c.containerPolicy.text)]

/-- Reads a whole number of 64 bits. A fraction or an exponent makes it no whole number. -/
def depth (cs : List Char) : Option (Nat × List Char) := do
  let (found, rest) ← Json.digits (skipGap cs)
  let n ← wordValue? found
  match rest with
  | '.' :: _ | 'e' :: _ | 'E' :: _ => none
  | _ => return (n, rest)

def policyNamed? (name : String) : Option CachePolicy :=
  [CachePolicy.noPreference, .memoize, .newInstance].find? (·.text == name)

/-- Reads a policy: its name, or an object with null under its name. -/
def policy (cs : List Char) : Option (CachePolicy × List Char) :=
  match mark '\x7b' cs with
  | some cs => do
    let (name, cs) ← Json.string cs
    let p ← policyNamed? name
    let cs ← mark ':' cs
    let cs ← Json.word "null".toList (skipGap cs)
    let cs ← mark '\x7d' cs
    return (p, cs)
  | none => do
    let (name, cs) ← Json.string cs
    let p ← policyNamed? name
    return (p, cs)

structure Found where
  maxDepth : Option Nat := none
  defaultPolicy : Option CachePolicy := none
  containerPolicy : Option CachePolicy := none

def Found.config (f : Found) : Config :=
  ({} : Config).override f.maxDepth f.defaultPolicy f.containerPolicy

def once {α : Type} (found : Option α) (read : List Char → Option (α × List Char))
    (cs : List Char) :
    Option (Option α × List Char) :=
  if found.isSome then none else (read cs).map fun r => (some r.1, r.2)

def fieldValue (name : String) (f : Found) (cs : List Char) : Option (Found × List Char) :=
  match name with
  | "max_depth" => (once f.maxDepth depth cs).map fun r => ({ f with maxDepth := r.1 }, r.2)
  | "default_policy" =>
    (once f.defaultPolicy policy cs).map fun r => ({ f with defaultPolicy := r.1 }, r.2)
  | "container_policy" =>
    (once f.containerPolicy policy cs).map fun r => ({ f with containerPolicy := r.1 }, r.2)
  | _ => (Json.skipValue cs).map (f, ·)

def fields : Nat → Found → List Char → Option (Found × List Char)
  | 0, _, _ => none
  | fuel + 1, f, cs => do
    let (name, cs) ← Json.string cs
    let cs ← mark ':' cs
    let (f, cs) ← fieldValue name f cs
    match mark ',' cs with
    | some cs => fields fuel f cs
    | none => (mark '\x7d' cs).map (f, ·)

/-- Reads the next member of a list, if the list goes on: there is a comma, or it is the first. -/
def member {α : Type} (read : List Char → Option (α × List Char)) (first : Bool) (cs : List Char) :
    Option (Option α × List Char) :=
  match mark ']' cs with
  | some _ => some (none, cs)
  | none => do
    let cs ← if first then some cs else mark ',' cs
    let (a, cs) ← read cs
    return (some a, cs)

def members (cs : List Char) : Option (Found × List Char) := do
  let (maxDepth, cs) ← member depth true cs
  let (defaultPolicy, cs) ← member policy false cs
  let (containerPolicy, cs) ← member policy false cs
  let cs ← mark ']' cs
  return ({ maxDepth, defaultPolicy, containerPolicy }, cs)

def found? (cs : List Char) : Option (Found × List Char) :=
  match mark '[' cs with
  | some cs => members cs
  | none => do
    let cs ← mark '\x7b' cs
    match mark '\x7d' cs with
    | some cs => return ({}, cs)
    | none => fields (cs.length + 1) {} cs

def ofDocument (s : String) : Except ConfigFault Config :=
  match found? s.toList with
  | some (f, rest) => if (skipGap rest).isEmpty then .ok f.config else .error .unreadable
  | none => .error .unreadable

end Wiring.Config
