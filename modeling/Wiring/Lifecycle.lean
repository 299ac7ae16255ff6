import Wiring.Text.Outline

/-!
# Closing hooks

Hooks that run when a container is closed, the latest first. A hook may register further hooks
while it runs, and those run before the older ones.
-/

namespace Wiring

inductive Hook where
  | disposer (name : String)
  | plain (name : String)
  | nesting (name : String) (hooks : List Hook)

namespace Hook

/-- What a hook leaves in the log, when `left` hooks are still registered. -/
def line (left : Nat) : Hook → String
  | disposer name => "dispose " ++ name
  | plain name => "hook " ++ name
  | nesting name _ => "hook " ++ name ++ " with " ++ toString left ++ " left"

def nested : Hook → List Hook
  | disposer _ | plain _ => []
  | nesting _ hooks => hooks

mutual

/-- The number of hooks in a hook: itself and all it may lead to. -/
def size : Hook → Nat
  | disposer _ | plain _ => 1
  | nesting _ hooks => 1 + sizeAll hooks

def sizeAll : List Hook → Nat
  | [] => 0
  | h :: hs => size h + sizeAll hs

end

end Hook

/-- The registered hooks, the latest first. -/
structure Lifecycle where
  hooks : List Hook

namespace Lifecycle

def empty : Lifecycle := ⟨[]⟩

def size (l : Lifecycle) : Nat := l.hooks.length

def register (l : Lifecycle) (h : Hook) : Lifecycle := ⟨h :: l.hooks⟩

/-- Takes the latest hook out and registers what it registers, with the line it leaves. -/
def runLatest? (l : Lifecycle) : Option (String × Lifecycle) :=
  match l.hooks with
  | [] => none
  | h :: older => some (h.line older.length, h.nested.foldl register ⟨older⟩)

def runAll : Nat → Lifecycle → List String × Lifecycle
  | 0, l => ([], l)
  | fuel + 1, l =>
    match l.runLatest? with
    | none => ([], l)
    | some (line, l) =>
      let (lines, l) := runAll fuel l
      (line :: lines, l)

/-- Runs all hooks, those registered meanwhile included. Each runs once, so there are no more runs
than hooks. -/
def close (l : Lifecycle) : List String × Lifecycle := runAll (Hook.sizeAll l.hooks) l

def outline (l : Lifecycle) : String :=
  Text.recordOutline "LifecycleManager" [("hooks", toString l.size)]

end Lifecycle

end Wiring
