import Wiring.Digest

/-!
# Qualifiers

A qualifier tells injection points of one type apart. It has a kind and attributes, and may allow
bindings that name no qualifier. Attributes are kept in the order of their names, one value a name,
so the order in which they were given cannot be seen.
-/

namespace Wiring

def setAttribute (name value : String) : List (String × String) → List (String × String)
  | [] => [(name, value)]
  | (n, v) :: rest =>
    if name < n then (name, value) :: (n, v) :: rest
    else if n < name then (n, v) :: setAttribute name value rest
    else (name, value) :: rest

theorem mem_setAttribute {name value : String} {p : String × String} :
    ∀ {as : List (String × String)}, p ∈ setAttribute name value as → p.1 = name ∨ p ∈ as
  | [], h => by simp [setAttribute] at h; exact .inl (by simp [h])
  | (n, v) :: rest, h => by
    unfold setAttribute at h
    split at h
    · rcases List.mem_cons.1 h with rfl | h
      · exact .inl rfl
      · exact .inr h
    · split at h
      · rcases List.mem_cons.1 h with rfl | h
        · exact .inr (by simp)
        · rcases mem_setAttribute h with h | h
          · exact .inl h
          · exact .inr (by simp [h])
      · rcases List.mem_cons.1 h with rfl | h
        · exact .inl rfl
        · exact .inr (by simp [h])

theorem sorted_setAttribute {name value : String} :
    ∀ {as : List (String × String)}, as.Pairwise (·.1 < ·.1) →
      (setAttribute name value as).Pairwise (·.1 < ·.1)
  | [], _ => by simp [setAttribute]
  | (n, v) :: rest, h => by
    obtain ⟨hn, hr⟩ := List.pairwise_cons.1 h
    unfold setAttribute
    split
    · rename_i hlt
      refine List.pairwise_cons.2 ⟨fun p hp => ?_, h⟩
      rcases List.mem_cons.1 hp with rfl | hp
      · exact hlt
      · exact String.lt_trans hlt (hn p hp)
    · split
      · rename_i hlt
        refine List.pairwise_cons.2 ⟨fun p hp => ?_, sorted_setAttribute hr⟩
        rcases mem_setAttribute hp with hp | hp
        · exact hp ▸ hlt
        · exact hn p hp
      · rename_i h1 h2
        have heq : name = n := String.le_antisymm (String.not_lt.1 h2) (String.not_lt.1 h1)
        subst heq
        exact List.pairwise_cons.2 ⟨hn, hr⟩

structure Qualifier where
  kind : String
  attributes : List (String × String)
  /-- Whether a binding without a qualifier may serve it. -/
  lenient : Bool
  sorted : attributes.Pairwise (·.1 < ·.1)
deriving DecidableEq

namespace Qualifier

def ofKind (kind : String) : Qualifier := ⟨kind, [], false, .nil⟩

def withAttribute (q : Qualifier) (name value : String) : Qualifier :=
  { q with
    attributes := setAttribute name value q.attributes
    sorted := sorted_setAttribute q.sorted }

def allowingDefault (q : Qualifier) : Qualifier := { q with lenient := true }

def named (value : String) : Qualifier := (ofKind "Named").withAttribute "value" value

def attribute? (q : Qualifier) (name : String) : Option String := q.attributes.lookup name

instance : Hashable Qualifier :=
  ⟨fun q => q.attributes.foldl
    (fun digest a => Digest.mix (Digest.mix digest (Digest.ofText a.1)) (Digest.ofText a.2))
    (Digest.ofText q.kind)⟩

def text (q : Qualifier) : String :=
  "@" ++ q.kind ++
    if q.attributes.isEmpty then ""
    else "(" ++ ", ".intercalate (q.attributes.map fun a => a.1 ++ "=" ++ a.2) ++ ")"

def attributeOrder (a b : String × String) : Ordering := (compare a.1 b.1).then (compare a.2 b.2)

/-- Attribute lists are compared pair by pair; a list that ends first comes first. -/
def attributesOrder : List (String × String) → List (String × String) → Ordering
  | [], [] => .eq
  | [], _ :: _ => .lt
  | _ :: _, [] => .gt
  | a :: as, b :: bs => (attributeOrder a b).then (attributesOrder as bs)

/-- By kind, then by attributes, then the strict one first. -/
def order (p q : Qualifier) : Ordering :=
  (compare p.kind q.kind).then <|
    (attributesOrder p.attributes q.attributes).then (compare p.lenient q.lenient)

instance : Ord Qualifier := ⟨order⟩

end Qualifier

def qualifierLead (q : Option Qualifier) : String := (q.map fun q => q.text ++ " ").getD ""

end Wiring
