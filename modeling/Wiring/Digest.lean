/-!
# Digests

Equal things have equal digests, so that most unequal things are told apart without going through
them.
-/

namespace Wiring.Digest

@[irreducible]
def mix (a b : UInt64) : UInt64 := 31 * a + b

@[irreducible]
def ofText (s : String) : UInt64 := s.toList.foldl (fun digest c => mix digest c.val.toUInt64) 7

def ofOption {α : Type} [Hashable α] (a : Option α) : UInt64 := (a.map hash).getD 11

def ofList {α : Type} [Hashable α] (start : UInt64) (as : List α) : UInt64 :=
  as.foldl (fun digest a => mix digest (hash a)) start

end Wiring.Digest
