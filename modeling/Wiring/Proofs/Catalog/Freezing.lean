import Wiring.Catalog

/-!
# What freezing works out

The desires of a type are those that its points declare, as the frozen catalog itself would work
them out.
-/

namespace Wiring.Catalog

variable {c : Catalog} {t : TypeKey} {d : Desire}

theorem exists_info_of_dependency (h : d ∈ c.dependencies t) :
    ∃ i ∈ c.types, i.key = t ∧ d ∈ i.dependencies := by
  unfold dependencies at h
  cases hi : c.info? t with
  | none =>
    rw [hi] at h
    cases h
  | some i =>
    rw [hi] at h
    exact ⟨i, List.mem_of_find?_eq_some hi, by simpa using List.find?_some hi, h⟩

theorem exists_info_of_recipe {r : Recipe} (h : c.recipe? t = some r) :
    ∃ i ∈ c.types, i.recipe = some r := by
  obtain ⟨i, hi, hr⟩ := Option.bind_eq_some_iff.1 h
  exact ⟨i, List.mem_of_find?_eq_some hi, hr⟩

theorem exists_info_of_providerRecipe {r : ProviderRecipe} (h : c.providerRecipe? t = some r) :
    ∃ i ∈ c.types, i.providerRecipe = some r := by
  obtain ⟨i, hi, hr⟩ := Option.bind_eq_some_iff.1 h
  exact ⟨i, List.mem_of_find?_eq_some hi, hr⟩

def Frozen (c : Catalog) : Prop := ∀ t, ∀ d ∈ c.dependencies t, d = c.desire d.point

theorem isInstantiable_declared (specs : List TypeSpec) (kinds : List (String × Defaults))
    (dependencies : TypeSpec → List Desire) (t : TypeKey) :
    (⟨specs.map declared, kinds⟩ : Catalog).isInstantiable t =
      (⟨specs.map fun s => { declared s with dependencies := dependencies s }, kinds⟩ :
        Catalog).isInstantiable t := by
  unfold isInstantiable info?
  rw [List.find?_map, List.find?_map, Option.any_map, Option.any_map]
  rfl

theorem frozen_freeze (types : List TypeSpec) (qualifiers : List QualifierSpec) :
    (freeze types qualifiers).Frozen := by
  intro t d hd
  obtain ⟨i, hi, -, hd⟩ := exists_info_of_dependency hd
  obtain ⟨spec, -, rfl⟩ := List.mem_map.1 hi
  obtain ⟨p, -, rfl⟩ := List.mem_map.1 hd
  unfold freeze desire classSatisfaction?
  dsimp only
  rw [isInstantiable_declared]

end Wiring.Catalog
