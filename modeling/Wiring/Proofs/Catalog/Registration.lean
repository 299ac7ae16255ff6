import Wiring.Catalog.Hierarchy
import Mathlib.Data.List.Nodup
import Mathlib.Data.List.Perm.Basic

/-!
# The order of declarations

A frozen catalog knows the last declaration of each type and of each qualifier kind, whatever came
before or in between. Whether the desire of a point has a satisfaction is up to the last declaration
of the type it needs, wherever that stands.
-/

namespace Wiring

section Last

variable {α β : Type} [BEq β] {key : α → β} {k : β} {a : α} {as bs : List α}

def last? (key : α → β) (k : β) (as : List α) : Option α := as.reverse.find? (key · == k)

theorem last?_cons :
    last? key k (a :: as) = (last? key k as).or (if key a == k then some a else none) := by
  unfold last?
  rw [List.reverse_cons, List.find?_append, List.find?_singleton]

theorem isSome_last? : (last? key k as).isSome = as.any (key · == k) := by
  rw [last?, ← List.any_reverse, List.isSome_find?]

/-! ## What is kept of a list -/

theorem latestBy_sublist (key : α → β) (as : List α) : (Catalog.latestBy key as).Sublist as := by
  induction as with
  | nil => exact .slnil
  | cons a as ih =>
    rw [Catalog.latestBy]
    split
    · exact ih.cons a
    · exact ih.cons_cons a

variable [LawfulBEq β]

theorem find?_latestBy : (Catalog.latestBy key as).find? (key · == k) = last? key k as := by
  induction as with
  | nil => rfl
  | cons a as ih =>
    rw [Catalog.latestBy, last?_cons]
    split
    · rename_i hlater
      rw [ih]
      split
      · rename_i hk
        rw [eq_of_beq hk, ← isSome_last?] at hlater
        rw [Option.or_of_isSome hlater]
      · rw [Option.or_none]
    · rename_i hlast
      rw [List.find?_cons, ih]
      split
      · rename_i hk
        have hnone : last? key k as = none := by
          rw [← Option.isNone_iff_eq_none, ← Option.not_isSome, isSome_last?, ← eq_of_beq hk]
          simpa using hlast
        simp [hnone, hk]
      · rename_i hk
        simp [hk]

theorem lookup_latestBy {γ : Type} (value : α → γ) :
    ((Catalog.latestBy key as).map fun a => (key a, value a)).lookup k =
      (last? key k as).map value := by
  rw [← find?_latestBy]
  induction Catalog.latestBy key as with
  | nil => rfl
  | cons a as ih =>
    rw [List.map_cons, List.lookup_cons, List.find?_cons, ih, BEq.comm]
    split <;> simp_all

theorem nodup_latestBy (key : α → β) (as : List α) : ((Catalog.latestBy key as).map key).Nodup := by
  induction as with
  | nil => exact .nil
  | cons a as ih =>
    rw [Catalog.latestBy]
    split
    · exact ih
    · rename_i hlast
      refine List.nodup_cons.mpr ⟨fun hmem => hlast ?_, ih⟩
      obtain ⟨b, hb, hkey⟩ := List.mem_map.mp hmem
      simpa using ⟨b, (latestBy_sublist key as).subset hb, hkey⟩

theorem mem_latestBy : a ∈ Catalog.latestBy key as ↔ last? key (key a) as = some a := by
  rw [← find?_latestBy]
  refine ⟨fun ha => ?_, List.mem_of_find?_eq_some⟩
  have hfound : ((Catalog.latestBy key as).find? (key · == key a)).isSome = true := by
    simpa using ⟨a, ha, rfl⟩
  obtain ⟨b, hb⟩ := Option.isSome_iff_exists.mp hfound
  have hkey : key b = key a := by simpa using List.find?_some hb
  rw [hb, List.inj_on_of_nodup_map (nodup_latestBy key as) (List.mem_of_find?_eq_some hb) ha hkey]

theorem latestBy_perm (h : ∀ k, last? key k as = last? key k bs) :
    (Catalog.latestBy key as).Perm (Catalog.latestBy key bs) := by
  refine (List.perm_ext_iff_of_nodup ?_ ?_).mpr fun a => ?_
  · exact (nodup_latestBy key as).of_map
  · exact (nodup_latestBy key bs).of_map
  · rw [mem_latestBy, mem_latestBy, h]

end Last

namespace Catalog

variable {types types' : List TypeSpec} {qualifiers qualifiers' : List QualifierSpec}
  {c c' : Catalog}

/-! ## What a frozen catalog knows -/

/-- The desire of a point, which can be instantiated if the last declaration of its type can. -/
def declaredDesire (types : List TypeSpec) (p : InjectionPoint) : Desire :=
  ⟨p, p.type,
    if (last? (·.key) p.type types).any (·.instantiable) then some (.construct p.type) else none⟩

def declaredInfo (types : List TypeSpec) (s : TypeSpec) : TypeInfo :=
  { declared s with dependencies := s.points.map (declaredDesire types) }

theorem types_freeze (types : List TypeSpec) (qualifiers : List QualifierSpec) :
    (freeze types qualifiers).types = (latestBy (·.key) types).map (declaredInfo types) := by
  have hdesire : ∀ kinds : List (String × Defaults),
      (⟨(latestBy (·.key) types).map declared, kinds⟩ : Catalog).desire = declaredDesire types := by
    intro kinds
    funext p
    have hfind : (latestBy (·.key) types).find? (·.key == p.type) = last? (·.key) p.type types :=
      find?_latestBy
    unfold desire declaredDesire classSatisfaction? isInstantiable info?
    rw [List.find?_map, Option.any_map]
    simp only [Function.comp_def, declared, hfind]
  unfold freeze declaredInfo
  dsimp only
  rw [hdesire]

theorem info?_freeze (t : TypeKey) : (freeze types qualifiers).info? t =
    (last? (·.key) t types).map (declaredInfo types) := by
  rw [← find?_latestBy, info?, types_freeze, List.find?_map]
  rfl

theorem qualifierDefaults?_freeze (kind : String) :
    (freeze types qualifiers).qualifierDefaults? kind =
      (last? (·.kind) kind qualifiers).map (·.defaults) :=
  lookup_latestBy QualifierSpec.defaults

/-! ## Queries -/

structure SameAnswers (c c' : Catalog) : Prop where
  info? (t : TypeKey) : c.info? t = c'.info? t
  contains (t : TypeKey) : c.contains t = c'.contains t
  size : c.size = c'.size
  isInstantiable (t : TypeKey) : c.isInstantiable t = c'.isInstantiable t
  classSatisfaction? (t : TypeKey) : c.classSatisfaction? t = c'.classSatisfaction? t
  desire (p : InjectionPoint) : c.desire p = c'.desire p
  rootDesire (t : TypeKey) (q : Option Qualifier) : c.rootDesire t q = c'.rootDesire t q
  dependencies (t : TypeKey) : c.dependencies t = c'.dependencies t
  policy (t : TypeKey) : c.policy t = c'.policy t
  recipe? (t : TypeKey) : c.recipe? t = c'.recipe? t
  providerRecipe? (t : TypeKey) : c.providerRecipe? t = c'.providerRecipe? t
  typeDefaults? (t : TypeKey) : c.typeDefaults? t = c'.typeDefaults? t
  qualifierDefaults? (kind : String) : c.qualifierDefaults? kind = c'.qualifierDefaults? kind
  supertypes (t : TypeKey) : c.supertypes t = c'.supertypes t
  typeDistance? (sub sup : TypeKey) : c.typeDistance? sub sup = c'.typeDistance? sub sup
  isAssignable (sub sup : TypeKey) : c.isAssignable sub sup = c'.isAssignable sub sup
  typesBetween (sub sup : TypeKey) : c.typesBetween sub sup = c'.typesBetween sub sup
  outline : c.outline = c'.outline

theorem levels_congr (h : c.supertypesOf = c'.supertypesOf) (fuel distance : Nat)
    (seen level : List TypeKey) :
    c.levels fuel distance seen level = c'.levels fuel distance seen level := by
  have hnext : ∀ seen level, c.nextLevel seen level = c'.nextLevel seen level := by
    intro seen level
    simp only [nextLevel, h]
  induction fuel generalizing distance seen level with
  | zero => rfl
  | succ fuel ih => simp only [levels, hnext, ih]

theorem sameAnswers_of_perm (htypes : c.types.Perm c'.types)
    (hqualifiers : c.qualifiers.length = c'.qualifiers.length)
    (hinfo : ∀ t, c.info? t = c'.info? t)
    (hdefaults : ∀ kind, c.qualifierDefaults? kind = c'.qualifierDefaults? kind) :
    SameAnswers c c' := by
  have hinstantiable : ∀ t, c.isInstantiable t = c'.isInstantiable t := by
    simp only [isInstantiable, hinfo, implies_true]
  have hclass : ∀ t, c.classSatisfaction? t = c'.classSatisfaction? t := by
    simp only [classSatisfaction?, hinstantiable, implies_true]
  have hdesire : ∀ p, c.desire p = c'.desire p := by
    simp only [desire, hclass, implies_true]
  have hascent : ∀ t, c.ascent t = c'.ascent t := by
    have hbound : c.levelBound = c'.levelBound := by
      simp only [levelBound, (htypes.flatMap_right _).length_eq]
    intro t
    rw [ascent, ascent, hbound]
    refine levels_congr (funext fun t => ?_) ..
    simp only [supertypesOf, hinfo]
  have hdistance : ∀ sub sup, c.typeDistance? sub sup = c'.typeDistance? sub sup := by
    simp only [typeDistance?, hascent, implies_true]
  have hassignable : ∀ sub sup, c.isAssignable sub sup = c'.isAssignable sub sup := by
    simp only [isAssignable, hdistance, implies_true]
  have habove : ∀ t, c.supertypes t = c'.supertypes t := by
    simp only [supertypes, hascent, implies_true]
  exact {
    info? := hinfo
    contains := by simp only [contains, hinfo, implies_true]
    size := htypes.length_eq
    isInstantiable := hinstantiable
    classSatisfaction? := hclass
    desire := hdesire
    rootDesire := by simp only [rootDesire, hdesire, implies_true]
    dependencies := by simp only [dependencies, hinfo, implies_true]
    policy := by simp only [policy, hinfo, implies_true]
    recipe? := by simp only [recipe?, hinfo, implies_true]
    providerRecipe? := by simp only [providerRecipe?, hinfo, implies_true]
    typeDefaults? := by simp only [typeDefaults?, hinfo, implies_true]
    qualifierDefaults? := hdefaults
    supertypes := habove
    typeDistance? := hdistance
    isAssignable := hassignable
    typesBetween := by simp only [typesBetween, habove, hassignable, implies_true]
    outline := by simp only [outline, htypes.length_eq, hqualifiers] }

theorem declaredInfo_congr (h : ∀ t, last? (·.key) t types = last? (·.key) t types') :
    declaredInfo types = declaredInfo types' := by
  have hdesire : declaredDesire types = declaredDesire types' := by
    funext p
    rw [declaredDesire, declaredDesire, h]
  funext s
  rw [declaredInfo, declaredInfo, hdesire]

/-- A frozen catalog has of each type and each qualifier kind what the last declaration says, with
one desire for each point, in order, that is for the class where the last declaration of the type
needed is that of a class. Declarations with the same last members give catalogs that no query tells
apart. -/
theorem freeze_exact (types : List TypeSpec) (qualifiers : List QualifierSpec) :
    let c := freeze types qualifiers
    (∀ t, c.info? t = (last? (·.key) t types).map fun s =>
      { key := s.key, supertypes := s.supertypes, instantiable := s.instantiable,
        dependencies := s.points.map fun p => ⟨p, p.type,
          if (last? (·.key) p.type types).any (·.instantiable) then some (.construct p.type)
          else none⟩,
        defaults := s.defaults, policy := s.policy, recipe := s.recipe,
        providerRecipe := s.providerRecipe }) ∧
    (∀ kind, c.qualifierDefaults? kind = (last? (·.kind) kind qualifiers).map (·.defaults)) ∧
    ∀ types' qualifiers', (∀ t, last? (·.key) t types = last? (·.key) t types') →
      (∀ kind, last? (·.kind) kind qualifiers = last? (·.kind) kind qualifiers') →
      SameAnswers c (freeze types' qualifiers') := by
  refine ⟨info?_freeze, qualifierDefaults?_freeze, fun types' qualifiers' htypes hkinds => ?_⟩
  apply sameAnswers_of_perm
  · rw [types_freeze, types_freeze, declaredInfo_congr htypes]
    exact (latestBy_perm htypes).map _
  · simpa [freeze] using (latestBy_perm hkinds).length_eq
  · intro t
    rw [info?_freeze, info?_freeze, htypes, declaredInfo_congr htypes]
  · intro kind
    rw [qualifierDefaults?_freeze, qualifierDefaults?_freeze, hkinds]

/-- A type that needs itself and one that is declared later, first as an interface and then as a
class, and the same declarations the other way round. -/
theorem freeze_exact_replaced :
    let need (t : String) : InjectionPoint := ⟨some (.named "A"), t, .named t, none, false⟩
    let a : TypeSpec :=
      ⟨.named "A", true, [], [need "B", need "A", need "C"], {}, .memoize, none, none⟩
    let b (instantiable : Bool) : TypeSpec :=
      ⟨.named "B", instantiable, [.named "A"], [], {}, .noPreference, none, none⟩
    let q (t : String) : QualifierSpec := ⟨"Named", ⟨some (.named t), none, none⟩⟩
    let c := freeze [a, b false, b true] [q "A", q "B"]
    (∀ t, last? (·.key) t [a, b false, b true] = last? (·.key) t [b true, a]) ∧
      (∀ kind, last? (·.kind) kind [q "A", q "B"] = last? (·.kind) kind [q "B"]) ∧
      (c.dependencies (.named "A")).map (·.isInstantiable) = [true, true, false] ∧
      SameAnswers c (freeze [b true, a] [q "B"]) := by
  intro need a b q c
  have htypes : ∀ t, last? (·.key) t [a, b false, b true] = last? (·.key) t [b true, a] := by
    intro t
    by_cases hb : TypeKey.named "B" = t
    · subst hb
      rfl
    · by_cases ha : TypeKey.named "A" = t <;> simp [last?, a, b, ha, hb]
  have hkinds : ∀ kind, last? (·.kind) kind [q "A", q "B"] = last? (·.kind) kind [q "B"] := by
    intro kind
    by_cases hq : "Named" = kind <;> simp [last?, q, hq]
  obtain ⟨-, -, hsame⟩ := freeze_exact [a, b false, b true] [q "A", q "B"]
  exact ⟨htypes, hkinds, by decide, hsame _ _ htypes hkinds⟩

end Catalog

end Wiring
