import Mathlib.Data.List.Basic

/-!
# Reading DOT

A reader for graphs in DOT that knows nothing of how they are written here: characters are read as
tokens, tokens as statements, and statements as nodes and links. Inside a quoted text a backslash
takes the next character as it is, and a quote ends the text.
-/

namespace Wiring

namespace Dot

/-! ## Tokens -/

inductive Token where
  | word (w : String)
  | quoted (t : String)
  | openBrace | closeBrace | openBracket | closeBracket | equals | semicolon | comma | arrow

inductive Lexing where
  | between
  | word (w : List Char)
  | dash
  | quoted (t : List Char)
  /-- Behind a backslash in a quoted text. -/
  | escaped (t : List Char)
deriving DecidableEq

def isWordChar (c : Char) : Bool := c.isAlphanum || c == '_'

def symbol? : Char → Option Token
  | '\x7b' => some .openBrace
  | '\x7d' => some .closeBrace
  | '[' => some .openBracket
  | ']' => some .closeBracket
  | '=' => some .equals
  | ';' => some .semicolon
  | ',' => some .comma
  | _ => none

def begin? (c : Char) : Option (List Token × Lexing) :=
  if c.isWhitespace then some ([], .between)
  else if c = '"' then some ([], .quoted [])
  else if c = '-' then some ([], .dash)
  else if isWordChar c then some ([], .word [c])
  else (symbol? c).map fun t => ([t], .between)

def step? : Lexing → Char → Option (List Token × Lexing)
  | .between, c => begin? c
  | .word w, c =>
    if isWordChar c then some ([], .word (w ++ [c]))
    else (begin? c).map fun r => (.word (String.ofList w) :: r.1, r.2)
  | .dash, c => if c = '>' then some ([.arrow], .between) else none
  | .quoted t, c =>
    if c = '\\' then some ([], .escaped t)
    else if c = '"' then some ([.quoted (String.ofList t)], .between)
    else some ([], .quoted (t ++ [c]))
  | .escaped t, c => some ([], .quoted (t ++ [c]))

def lex? : Lexing → List Char → Option (List Token × Lexing)
  | l, [] => some ([], l)
  | l, c :: cs => do
    let (ts, l) ← step? l c
    let (ts', l) ← lex? l cs
    return (ts ++ ts', l)

def tokens? (s : String) : Option (List Token) := do
  let (ts, l) ← lex? .between s.toList
  if l = .between then some ts else none

/-! ## Statements -/

inductive Statement where
  | setting (name value : String)
  /-- The attributes of all nodes, or of all links. -/
  | defaults (subject : String) (attributes : List (String × String))
  | node (id : String) (attributes : List (String × String))
  | link (source target : String) (attributes : List (String × String))

def Token.text? : Token → Option String
  | .word w => some w
  | .quoted t => some t
  | _ => none

def attributes? : List Token → Option (List (String × String))
  | [.closeBracket] => some []
  | [.word name, .equals, value, .closeBracket] => do return [(name, ← value.text?)]
  | .word name :: .equals :: value :: .comma :: rest => do
    return (name, ← value.text?) :: (← attributes? rest)
  | _ => none

def statement? : List Token → Option Statement
  | [.word name, .equals, value] => value.text?.map (.setting name)
  | .word subject :: .openBracket :: rest => (attributes? rest).map (.defaults subject)
  | .quoted id :: .openBracket :: rest => (attributes? rest).map (.node id)
  | .quoted source :: .arrow :: .quoted target :: .openBracket :: rest =>
    (attributes? rest).map (.link source target)
  | _ => none

/-- The statements up to the last brace, the first of which has the tokens `current` already. -/
def statements? : List Token → List Token → Option (List Statement)
  | [], [.closeBrace] => some []
  | current, .semicolon :: rest => do return (← statement? current) :: (← statements? [] rest)
  | current, t :: rest => statements? (current ++ [t]) rest
  | _, [] => none

def document? : List Token → Option (List Statement)
  | .word kind :: .word _ :: .openBrace :: rest =>
    if kind = "digraph" then statements? [] rest else none
  | _ => none

/-! ## Nodes and links -/

def Statement.node? : Statement → Option (String × String)
  | node id attributes => some (id, (attributes.lookup "label").getD id)
  | _ => none

def Statement.link? : Statement → Option (String × String × String × Bool)
  | link source target attributes =>
    some (source, target, (attributes.lookup "label").getD "",
      attributes.lookup "style" == some "dashed")
  | _ => none

def read? (s : String) :
    Option (List (String × String) × List (String × String × String × Bool)) := do
  let statements ← document? (← tokens? s)
  return (statements.filterMap (·.node?), statements.filterMap (·.link?))

/-! ## Reading in parts -/

def Reads (l : Lexing) (s : String) (ts : List Token) (m : Lexing) : Prop :=
  lex? l s.toList = some (ts, m)

variable {l m n : Lexing} {cs ds : List Char} {ts us : List Token} {s s' : String}

theorem lex?_cons {c : Char} : lex? l (c :: cs) = some (ts, n) ↔
    ∃ ts₁ m ts₂, step? l c = some (ts₁, m) ∧ lex? m cs = some (ts₂, n) ∧ ts₁ ++ ts₂ = ts := by
  simp [lex?, Option.bind_eq_some_iff]

theorem lex?_append (h : lex? l cs = some (ts, m)) (h' : lex? m ds = some (us, n)) :
    lex? l (cs ++ ds) = some (ts ++ us, n) := by
  induction cs generalizing l ts with
  | nil =>
    cases h
    exact h'
  | cons c cs ih =>
    obtain ⟨ts₁, k, ts₂, hstep, hlex, rfl⟩ := lex?_cons.mp h
    exact lex?_cons.mpr ⟨ts₁, k, ts₂ ++ us, hstep, ih hlex, (List.append_assoc ..).symm⟩

theorem Reads.append (h : Reads l s ts m) (h' : Reads m s' us n) :
    Reads l (s ++ s') (ts ++ us) n := by
  unfold Reads at h h' ⊢
  rw [String.toList_append]
  exact lex?_append h h'

theorem reads_join {α : Type} {f : α → String} {g : α → List Token} {as : List α}
    (h : ∀ a ∈ as, Reads l (f a) (g a) l) : Reads l (String.join (as.map f)) (as.flatMap g) l := by
  unfold Reads
  rw [String.toList_join]
  induction as with
  | nil => rfl
  | cons a as ih =>
    obtain ⟨ha, has⟩ := List.forall_mem_cons.mp h
    exact lex?_append ha (ih has)

end Dot

end Wiring
