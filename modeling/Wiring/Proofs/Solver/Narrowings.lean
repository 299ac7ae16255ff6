import Wiring.Proofs.Labels
import Wiring.Proofs.Solver.Rounds

/-!
# Binding rounds end

With the standard functions a desire is only ever narrowed to one of finitely many. No desire comes
again but directly after itself, so every round uses one of them up, or the one chance to repeat the
latest.
-/

namespace Wiring

variable {c : Catalog} {p : InjectionPoint} {t : TypeKey} {d x : Desire} {o : Offer}
  {chain : DesireChain} {context : Context} {turn fuel : Nat} {functions : List BindingFunction}
  {r : Rounds} {F : List Desire}

/-! ## The desires that can come -/

def targetDesire (c : Catalog) (p : InjectionPoint) : BindTarget → Desire
  | .type t => ⟨p, t, c.classSatisfaction? t⟩
  | .satisfaction s => ⟨p, s.type, some s⟩

def allDefaults (c : Catalog) : List Defaults := c.types.map (·.defaults) ++ c.qualifiers.map (·.2)

/-- The desires of a point that may have a type of their own: the first, those of rules, and default
implementations. -/
def baseDesires (c : Catalog) (functions : List BindingFunction) (d : Desire) : List Desire :=
  d :: ((functions.flatMap (·.targets)).filterMap fun t => t.map (targetDesire c d.point)) ++
    (allDefaults c).filterMap fun k =>
      k.implementation.map fun t => targetDesire c d.point (.type t)

def lastDefaults (p : InjectionPoint) (t : TypeKey) (k : Defaults) : List Desire :=
  (k.provider.map fun q => (⟨p, t, some (.viaClass q t)⟩ : Desire)).toList ++
    (k.value.map fun v => (⟨p, t, some (.existing t v)⟩ : Desire)).toList

def sameTypeDesires (c : Catalog) (p : InjectionPoint) (t : TypeKey) : List Desire :=
  (t.provided?.map fun q =>
      (⟨p, t, none⟩ : Desire).restrict (.ofProviderOf (c.desire { p with type := q }))).toList ++
    (c.typeDefaults? t).toList.flatMap (lastDefaults p t) ++
    (p.qualifier.bind fun q => c.qualifierDefaults? q.kind).toList.flatMap (lastDefaults p t)

def narrowings (c : Catalog) (functions : List BindingFunction) (d : Desire) : List Desire :=
  baseDesires c functions d ++
    (baseDesires c functions d).flatMap fun x => sameTypeDesires c d.point x.type

theorem length_toList_le {α : Type} (o : Option α) : o.toList.length ≤ 1 := by
  cases o <;> simp

theorem length_lastDefaults (p : InjectionPoint) (t : TypeKey) (k : Defaults) :
    (lastDefaults p t k).length ≤ 2 := by
  unfold lastDefaults
  have h1 := length_toList_le (k.provider.map fun q => (⟨p, t, some (.viaClass q t)⟩ : Desire))
  have h2 := length_toList_le (k.value.map fun v => (⟨p, t, some (.existing t v)⟩ : Desire))
  rw [List.length_append]
  omega

theorem length_sameTypeDesires (c : Catalog) (p : InjectionPoint) (t : TypeKey) :
    (sameTypeDesires c p t).length ≤ 5 := by
  have hflat : ∀ o : Option Defaults, (o.toList.flatMap (lastDefaults p t)).length ≤ 2 := by
    intro o
    cases o with
    | none => simp
    | some k => simpa using length_lastDefaults p t k
  have h1 := hflat (c.typeDefaults? t)
  have h2 := hflat (p.qualifier.bind fun q => c.qualifierDefaults? q.kind)
  have h3 := length_toList_le (t.provided?.map fun q =>
    (⟨p, t, none⟩ : Desire).restrict (.ofProviderOf (c.desire { p with type := q })))
  unfold sameTypeDesires
  rw [List.length_append, List.length_append]
  omega

theorem length_baseDesires (c : Catalog) (functions : List BindingFunction) (d : Desire) :
    (baseDesires c functions d).length ≤
      1 + (functions.flatMap (·.targets)).length + c.types.length + c.qualifiers.length := by
  have h1 := List.length_filterMap_le (fun t => t.map (targetDesire c d.point))
    (functions.flatMap (·.targets))
  have h2 := List.length_filterMap_le
    (fun k => k.implementation.map fun t => targetDesire c d.point (.type t)) (allDefaults c)
  have h3 : (allDefaults c).length = c.types.length + c.qualifiers.length := by
    unfold allDefaults
    simp
  unfold baseDesires
  rw [List.length_append, List.length_cons]
  omega

theorem length_narrowings (c : Catalog) (functions : List BindingFunction) (d : Desire) :
    2 * (narrowings c functions d).length + 1 < roundBound c functions := by
  have hflat : ∀ bs : List Desire,
      (bs.flatMap fun x => sameTypeDesires c d.point x.type).length ≤ 5 * bs.length := by
    intro bs
    induction bs with
    | nil => simp
    | cons b bs ih =>
      have := length_sameTypeDesires c d.point b.type
      rw [List.flatMap_cons, List.length_append, List.length_cons]
      omega
  have h1 := length_baseDesires c functions d
  have h2 := hflat (baseDesires c functions d)
  have h3 : 20 * desireBound c functions ≤ roundBound c functions :=
    Nat.mul_le_mul_right _ (by unfold desireBound; omega)
  unfold narrowings
  rw [List.length_append]
  unfold desireBound at h3
  omega

/-! ## Offers -/

theorem mem_sameTypeDesires (h : x ∈ sameTypeDesires c p t) : x.point = p ∧ x.type = t := by
  have hlast : ∀ o : Option Defaults, x ∈ o.toList.flatMap (lastDefaults p t) →
      x.point = p ∧ x.type = t := by
    intro o hx
    obtain ⟨k, -, hx⟩ := List.mem_flatMap.1 hx
    unfold lastDefaults at hx
    rw [List.mem_append, Option.mem_toList, Option.mem_toList] at hx
    rcases hx with hx | hx <;>
    · obtain ⟨_, -, rfl⟩ := Option.map_eq_some_iff.1 hx
      exact ⟨rfl, rfl⟩
  unfold sameTypeDesires at h
  rw [List.mem_append, List.mem_append] at h
  rcases h with (h | h) | h
  · rw [Option.mem_toList] at h
    obtain ⟨q, hq, rfl⟩ := Option.map_eq_some_iff.1 h
    refine ⟨rfl, ?_⟩
    cases t with
    | provider => cases hq; rfl
    | named | root => cases hq
  · exact hlast _ h
  · exact hlast _ h

theorem point_targetDesire (t : BindTarget) : (targetDesire c p t).point = p := by
  cases t <;> rfl

theorem point_of_mem_baseDesires (h : x ∈ baseDesires c functions d) : x.point = d.point := by
  unfold baseDesires at h
  rcases List.mem_append.1 h with h | h
  · rcases List.mem_cons.1 h with rfl | h
    · rfl
    · obtain ⟨t, -, hx⟩ := List.mem_filterMap.1 h
      obtain ⟨t, -, rfl⟩ := Option.map_eq_some_iff.1 hx
      exact point_targetDesire t
  · obtain ⟨k, -, hx⟩ := List.mem_filterMap.1 h
    obtain ⟨t, -, rfl⟩ := Option.map_eq_some_iff.1 hx
    rfl

theorem mem_narrowings (h : x ∈ narrowings c functions d) :
    x.point = d.point ∧ ∃ b ∈ baseDesires c functions d, b.type = x.type := by
  unfold narrowings at h
  rcases List.mem_append.1 h with h | h
  · exact ⟨point_of_mem_baseDesires h, x, h, rfl⟩
  · obtain ⟨b, hb, hx⟩ := List.mem_flatMap.1 h
    have hx := mem_sameTypeDesires hx
    exact ⟨hx.1, b, hb, hx.2.symm⟩

theorem mem_narrowings_of_base (h : x ∈ baseDesires c functions d) : x ∈ narrowings c functions d :=
  List.mem_append_left _ h

theorem mem_narrowings_of_same {y : Desire} (hx : x ∈ narrowings c functions d)
    (hy : y ∈ sameTypeDesires c x.point x.type) : y ∈ narrowings c functions d := by
  obtain ⟨hpoint, b, hb, htype⟩ := mem_narrowings hx
  rw [hpoint, ← htype] at hy
  exact List.mem_append_right _ (List.mem_flatMap.2 ⟨b, hb, hy⟩)

theorem forall_narrowings {D : Desire → Prop} (hd : D d)
    (htarget : ∀ f ∈ functions, ∀ t, some t ∈ f.targets → D (targetDesire c d.point t))
    (htype : ∀ t, D (targetDesire c d.point (.type t)))
    (hinjected : ∀ q, D ⟨d.point, .provider q,
      some (.ofProviderOf (c.desire { d.point with type := q }))⟩)
    (hlast : ∀ t k, ∀ x ∈ lastDefaults d.point t k, D x) :
    ∀ x ∈ narrowings c functions d, D x := by
  have hdefaults : ∀ t (o : Option Defaults), ∀ x ∈ o.toList.flatMap (lastDefaults d.point t),
      D x := by
    intro t o x hx
    obtain ⟨k, -, hx⟩ := List.mem_flatMap.1 hx
    exact hlast t k x hx
  intro x hx
  rcases List.mem_append.1 hx with hx | hx
  · rcases List.mem_append.1 hx with hx | hx
    · rcases List.mem_cons.1 hx with rfl | hx
      · exact hd
      · obtain ⟨t, ht, hx⟩ := List.mem_filterMap.1 hx
        obtain ⟨t, rfl, rfl⟩ := Option.map_eq_some_iff.1 hx
        obtain ⟨f, hf, ht⟩ := List.mem_flatMap.1 ht
        exact htarget f hf t ht
    · obtain ⟨k, -, hx⟩ := List.mem_filterMap.1 hx
      obtain ⟨t, -, rfl⟩ := Option.map_eq_some_iff.1 hx
      exact htype t
  · obtain ⟨b, -, hx⟩ := List.mem_flatMap.1 hx
    rcases List.mem_append.1 hx with hx | hx
    · rcases List.mem_append.1 hx with hx | hx
      · obtain ⟨q, -, rfl⟩ := Option.map_eq_some_iff.1 (Option.mem_toList.1 hx)
        exact hinjected q
      · exact hdefaults _ _ x hx
    · exact hdefaults _ _ x hx

theorem mem_distinctRules {rules : List Rule} {r : Rule} (h : r ∈ distinctRules rules) :
    r ∈ rules := by
  have hfold : ∀ rules found : List Rule,
      r ∈ rules.foldl (fun found r => if found.contains r then found else found ++ [r]) found →
      r ∈ found ∨ r ∈ rules := by
    intro rules
    induction rules with
    | nil => exact fun found h => .inl h
    | cons a rules ih =>
      intro found h
      rcases ih _ h with h | h
      · dsimp only at h
        split at h
        · exact .inl h
        · rcases List.mem_append.1 h with h | h
          · exact .inl h
          · exact .inr (List.mem_append_left rules h)
      · exact .inr (List.mem_cons_of_mem _ h)
  rcases hfold rules [] h with h | h
  · cases h
  · exact h

theorem offerByRules_desire {groups : List RuleGroup} {applied : List Rule}
    (h : offerByRules groups c context chain applied = .ok (some o)) :
    ∃ g ∈ groups, ∃ r ∈ g.rules, o.desire = targetDesire c chain.current.point r.target := by
  unfold offerByRules at h
  dsimp only at h
  split at h
  · cases h
  · rename_i r hone
    have hmem : r ∈ distinctRules ((Candidate.leading
        (candidates groups c context chain.current applied)).map (·.rule)) := by
      rw [hone]
      exact List.mem_singleton_self r
    obtain ⟨k, hk, rfl⟩ := List.mem_map.1 (mem_distinctRules hmem)
    have hk : k ∈ candidates groups c context chain.current applied := (List.mem_filter.1 hk).1
    obtain ⟨g, hg, hk⟩ := List.mem_flatMap.1 hk
    split at hk
    · cases hk
    · obtain ⟨r, hr, rfl⟩ := List.mem_map.1 hk
      refine ⟨g, hg, r, (List.mem_filter.1 hr).1, ?_⟩
      cases h
      unfold Rule.apply targetDesire
      cases r.target <;> rfl
  · cases h

theorem offer_of_defaults {k : Defaults} (hk : k ∈ allDefaults c)
    (hlast : ∀ y ∈ lastDefaults x.point x.type k, y ∈ sameTypeDesires c x.point x.type)
    (hx : x ∈ narrowings c functions d) (h : k.offer c x = some o) :
    o.desire ∈ narrowings c functions d := by
  have hpoint := (mem_narrowings hx).1
  obtain ⟨implementation, provider, value⟩ := k
  unfold Defaults.offer at h
  rcases implementation with _ | t
  · rcases provider with _ | q
    · rcases value with _ | v
      · cases h
      · cases h
        exact mem_narrowings_of_same hx (hlast _ (by simp [lastDefaults, Desire.restrict,
          Satisfaction.type]))
    · cases h
      exact mem_narrowings_of_same hx (hlast _ (by simp [lastDefaults, Desire.restrict,
        Satisfaction.type]))
  · cases h
    refine mem_narrowings_of_base (List.mem_append_right _ (List.mem_filterMap.2 ⟨_, hk, ?_⟩))
    simp [targetDesire, Desire.restrictType, hpoint]

theorem offer_of_typeDefault (hx : chain.current ∈ narrowings c functions d)
    (h : offerTypeDefault c chain = some o) : o.desire ∈ narrowings c functions d := by
  unfold offerTypeDefault at h
  split at h
  · obtain ⟨k, hk, h⟩ := Option.bind_eq_some_iff.1 h
    refine offer_of_defaults ?_ ?_ hx h
    · obtain ⟨i, hi, rfl⟩ := Option.map_eq_some_iff.1 hk
      exact List.mem_append_left _ (List.mem_map.2 ⟨i, List.mem_of_find?_eq_some hi, rfl⟩)
    · intro y hy
      refine List.mem_append_left _ (List.mem_append_right _ (List.mem_flatMap.2 ⟨k, ?_, hy⟩))
      rw [hk]
      exact List.mem_singleton_self k
  · cases h

theorem offer_of_qualifierDefault (hx : chain.current ∈ narrowings c functions d)
    (h : offerQualifierDefault c chain = some o) : o.desire ∈ narrowings c functions d := by
  unfold offerQualifierDefault at h
  split at h
  · obtain ⟨q, hq, h⟩ := Option.bind_eq_some_iff.1 h
    obtain ⟨k, hk, h⟩ := Option.bind_eq_some_iff.1 h
    refine offer_of_defaults ?_ ?_ hx h
    · obtain ⟨l₁, l₂, hl, -⟩ := List.lookup_eq_some_iff.1 hk
      refine List.mem_append_right _ (List.mem_map.2 ⟨(q.kind, k), ?_, rfl⟩)
      rw [hl]
      simp
    · intro y hy
      refine List.mem_append_right _ (List.mem_flatMap.2 ⟨k, ?_, hy⟩)
      unfold Desire.qualifier at hq
      rw [hq]
      simp [hk]
  · cases h

theorem mem_narrowings_of_offer {f : BindingFunction} {applied : List Rule} (hf : f ∈ functions)
    (hscript : f.isScripted = false) (hx : chain.current ∈ narrowings c functions d)
    (h : f.offer c turn context chain applied = .ok (some o)) :
    o.desire ∈ narrowings c functions d := by
  have hpoint := (mem_narrowings hx).1
  cases f with
  | rules groups =>
    obtain ⟨g, hg, r, hr, ho⟩ := offerByRules_desire h
    rw [ho, hpoint]
    refine mem_narrowings_of_base (List.mem_append_left _ (List.mem_cons_of_mem _ ?_))
    refine List.mem_filterMap.2 ⟨some r.target, List.mem_flatMap.2 ⟨_, hf, ?_⟩, rfl⟩
    exact List.mem_map.2 ⟨r, List.mem_flatMap.2 ⟨g, hg, hr⟩, rfl⟩
  | providers =>
    have h : offerProvider c chain = some o := Except.ok.inj h
    unfold offerProvider at h
    dsimp only at h
    split at h
    · cases h
    · obtain ⟨q, hq, rfl⟩ := Option.map_eq_some_iff.1 h
      refine mem_narrowings_of_same hx ?_
      unfold sameTypeDesires
      rw [hq]
      simp [Desire.restrict]
  | defaults =>
    have h : offerDefault c chain = some o := Except.ok.inj h
    unfold offerDefault at h
    rcases Option.or_eq_some_iff.1 h with h | ⟨-, h⟩
    · exact offer_of_qualifierDefault hx h
    · exact offer_of_typeDefault hx h
  | scripted _ | chosen _ _ => cases hscript

/-! ## Rounds are used up -/

theorem askBinders_offer {bs : List Binder}
    (h : (askBinders c turn context chain bs).offer = .ok (some o)) :
    chain.earlier.contains o.desire = false ∧
      ∃ b ∈ bs, b.offer c turn context chain = .ok (some o) := by
  induction bs with
  | nil => cases h
  | cons b bs ih =>
    rw [askBinders] at h
    split at h
    · cases h
    · obtain ⟨hnew, b', hb, ho⟩ := ih h
      exact ⟨hnew, b', List.mem_cons_of_mem _ hb, ho⟩
    · split at h
      · obtain ⟨hnew, b', hb, ho⟩ := ih h
        exact ⟨hnew, b', List.mem_cons_of_mem _ hb, ho⟩
      · rename_i hb hnew
        cases h
        exact ⟨by simpa using hnew, b, List.mem_cons_self, hb⟩

theorem functions_askBinders (bs : List Binder) :
    (askBinders c turn context chain bs).binders.map (·.function) = bs.map (·.function) := by
  induction bs with
  | nil => rfl
  | cons b bs ih =>
    rw [askBinders]
    split
    · rfl
    · simp [Answer.after, ih]
    · split <;> simp [Answer.after, Binder.remember, ih]

theorem functions_of_askBinders {P : BindingFunction → Prop} {bs : List Binder}
    (h : ∀ b ∈ bs, P b.function) :
    ∀ b ∈ (askBinders c turn context chain bs).binders, P b.function := by
  intro b hb
  have hb : b.function ∈ bs.map (·.function) := by
    rw [← functions_askBinders bs]
    exact List.mem_map_of_mem hb
  obtain ⟨b', hb', heq⟩ := List.mem_map.1 hb
  exact heq ▸ h b' hb'

theorem Rounds.functions_start {P : BindingFunction → Prop} (h : ∀ f ∈ functions, P f)
    (d : Desire) : ∀ b ∈ (start functions d).binders, P b.function := by
  intro b hb
  obtain ⟨f, hf, rfl⟩ := List.mem_map.1 hb
  exact h f hf

/-- Twice the narrowings a chain does not have yet, and one more where it may repeat its last
desire. -/
def roundsLeft (F : List Desire) (chain : DesireChain) : Nat :=
  2 * (F.filter fun x => !chain.desires.contains x).length +
    if chain.earlier.contains chain.current then 0 else 1

theorem DesireChain.desires_eq (chain : DesireChain) :
    chain.desires = chain.earlier ++ [chain.current] := by
  have hlast : chain.current = chain.desires.getLast chain.desires_ne_nil :=
    (List.getLast_eq_getLastD (List.cons_ne_nil _ _)).symm
  rw [hlast]
  exact (List.dropLast_concat_getLast chain.desires_ne_nil).symm

theorem roundsLeft_extend (hx : x ∈ F) (hnew : chain.earlier.contains x = false) :
    roundsLeft F (chain.extend x) < roundsLeft F chain := by
  have hfilter : F.filter (fun y => !(chain.extend x).desires.contains y) =
      (F.filter fun y => !chain.desires.contains y).filter fun y => !(y == x) := by
    rw [List.filter_filter, DesireChain.desires_extend]
    refine List.filter_congr fun y _ => ?_
    rw [List.contains_append, Bool.not_or, Bool.and_comm]
    simp
  unfold roundsLeft
  rw [DesireChain.earlier_extend, DesireChain.current_extend, hfilter]
  by_cases hold : chain.desires.contains x = true
  · have hcurrent : (x == chain.current) = true := by
      rw [chain.desires_eq, List.contains_append, hnew] at hold
      simpa using hold
    have hfirst : chain.earlier.contains chain.current = false := by
      rw [← List.contains_congr hcurrent]
      exact hnew
    have := List.length_filter_le (fun y => !(y == x)) (F.filter fun y => !chain.desires.contains y)
    rw [if_pos hold, hfirst, if_neg Bool.false_ne_true]
    omega
  · have hmem : x ∈ F.filter fun y => !chain.desires.contains y :=
      List.mem_filter.2 ⟨hx, by simpa using hold⟩
    have := List.length_filter_lt_length_iff_exists (p := fun y => !(y == x)).2
      ⟨x, hmem, by simp⟩
    rw [if_neg hold]
    omega

structure Rounds.Within (c : Catalog) (functions : List BindingFunction) (d : Desire) (r : Rounds) :
    Prop where
  binders : ∀ b ∈ r.binders, b.function ∈ functions
  current : r.chain.current ∈ narrowings c functions d

theorem Rounds.within_start (c : Catalog) (functions : List BindingFunction) (d : Desire) :
    (start functions d).Within c functions d :=
  ⟨functions_start (fun _ hf => hf) d, List.mem_append_left _ List.mem_cons_self⟩

theorem Rounds.Within.accept (hscript : ∀ f ∈ functions, f.isScripted = false)
    (hr : r.Within c functions d)
    (ho : (askBinders c turn context r.chain r.binders).offer = .ok (some o)) :
    (r.accept o (askBinders c turn context r.chain r.binders).binders).Within c functions d := by
  obtain ⟨-, b, hb, hoffer⟩ := askBinders_offer ho
  have hf := hr.binders b hb
  refine ⟨functions_of_askBinders hr.binders, ?_⟩
  rw [Rounds.accept, DesireChain.current_extend]
  exact mem_narrowings_of_offer hf (hscript _ hf) hr.current hoffer

theorem Rounds.isSome_run? (hscript : ∀ f ∈ functions, f.isScripted = false)
    (hr : r.Within c functions d) (hfuel : roundsLeft (narrowings c functions d) r.chain < fuel) :
    (r.run? c turn context fuel).isSome := by
  induction fuel generalizing r with
  | zero => omega
  | succ fuel ih =>
    rw [run?]
    split
    · rfl
    · dsimp only
      split
      · rfl
      · rfl
      · rename_i o ho
        obtain ⟨hnew, -⟩ := askBinders_offer ho
        have hnext := hr.accept hscript ho
        have hmem := hnext.current
        rw [accept, DesireChain.current_extend] at hmem
        have hleft := roundsLeft_extend hmem hnew
        rw [Option.isSome_map]
        refine ih hnext ?_
        show roundsLeft _ (r.chain.extend o.desire) < fuel
        omega

theorem Rounds.ends_settle (hscript : ∀ f ∈ functions, f.isScripted = false) :
    Ends c turn context (start functions d) (settle c functions turn context d) := by
  have hwithin : (start functions d).Within c functions d := within_start c functions d
  have hleft : roundsLeft (narrowings c functions d) (.singleton d) < roundBound c functions := by
    have := List.length_filter_le (fun x => !(DesireChain.singleton d).desires.contains x)
      (narrowings c functions d)
    have := length_narrowings c functions d
    unfold roundsLeft
    split <;> omega
  have hsome : ((start functions d).run? c turn context (roundBound c functions)).isSome :=
    isSome_run? hscript hwithin hleft
  obtain ⟨x, hx⟩ := Option.isSome_iff_exists.1 hsome
  unfold settle
  rw [hx]
  exact ends_of_run? hx

theorem BindingFunction.forall_standard {P : BindingFunction → Prop} {given : List ScopedRule}
    (hset : ∀ set, P (ofSet set c given)) (hproviders : P .providers) (hdefaults : P .defaults) :
    ∀ f ∈ standard c given, P f := by
  intro f hf
  unfold standard at hf
  simp only [List.mem_cons, List.not_mem_nil, or_false] at hf
  rcases hf with rfl | rfl | rfl | rfl | rfl
  · exact hset .explicit
  · exact hset .intermediate
  · exact hset .super
  · exact hproviders
  · exact hdefaults

theorem BindingFunction.isScripted_standard (c : Catalog) (given : List ScopedRule) :
    ∀ f ∈ standard c given, f.isScripted = false :=
  forall_standard (P := (·.isScripted = false)) (fun _ => rfl) rfl rfl

end Wiring
