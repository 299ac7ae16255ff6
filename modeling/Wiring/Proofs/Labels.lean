import Wiring.Component
import Wiring.Context
import Mathlib.Tactic.Common

/-!
# Equality of labels

Satisfactions and desires are equal when they agree in all but the types that injected providers
are said to have. Hence equality is an equivalence, and digests respect it.
-/

namespace Wiring

/-! ## What equality looks at -/

mutual

/-- The satisfaction, where the type of an injected provider is blotted out. -/
def Satisfaction.essence : Satisfaction → Satisfaction
  | .injected _ d => .injected .root (Desire.essence d)
  | s => s

def Desire.essence : Desire → Desire
  | ⟨p, t, s⟩ => ⟨p, t, essenceOptional s⟩

def essenceOptional : Option Satisfaction → Option Satisfaction
  | none => none
  | some s => some (Satisfaction.essence s)

end

mutual

theorem Satisfaction.same_iff : ∀ s t : Satisfaction, s.same t = true ↔ s.essence = t.essence
  | .injected _ d, t => by
    cases t <;> simp [Satisfaction.same, Satisfaction.essence, Desire.same_iff d]
  | .construct _, t | .existing _ _, t | .viaClass _ _, t | .viaProvider _ _, t | .null _, t => by
    cases t <;> simp [Satisfaction.same, Satisfaction.essence]

theorem Desire.same_iff : ∀ d e : Desire, d.same e = true ↔ d.essence = e.essence
  | ⟨_, _, s⟩, ⟨_, _, t⟩ => by
    simp [Desire.same, Desire.essence, sameOptional_iff s t, and_assoc]

theorem sameOptional_iff :
    ∀ s t : Option Satisfaction, sameOptional s t = true ↔ essenceOptional s = essenceOptional t
  | none, t => by cases t <;> simp [sameOptional, essenceOptional]
  | some s, t => by cases t <;> simp [sameOptional, essenceOptional, Satisfaction.same_iff s]

end

mutual

theorem Satisfaction.digest_essence : ∀ s : Satisfaction, s.essence.digest = s.digest
  | .injected _ d => by simp [Satisfaction.essence, Satisfaction.digest, Desire.digest_essence d]
  | .construct _ | .existing _ _ | .viaClass _ _ | .viaProvider _ _ | .null _ => rfl

theorem Desire.digest_essence : ∀ d : Desire, d.essence.digest = d.digest
  | ⟨_, _, s⟩ => by simp [Desire.essence, Desire.digest, digestOptional_essence s]

theorem digestOptional_essence :
    ∀ s : Option Satisfaction, digestOptional (essenceOptional s) = digestOptional s
  | none => rfl
  | some s => by simp [essenceOptional, digestOptional, Satisfaction.digest_essence s]

end

/-! ## Equivalences -/

theorem equivBEq_of_iff {α β : Type} [BEq α] (f : α → β)
    (h : ∀ a b : α, (a == b) = true ↔ f a = f b) : EquivBEq α where
  rfl := (h _ _).2 rfl
  symm hab := (h _ _).2 ((h _ _).1 hab).symm
  trans hab hbc := (h _ _).2 (((h _ _).1 hab).trans ((h _ _).1 hbc))

theorem Satisfaction.beq_iff (s t : Satisfaction) : (s == t) = true ↔ s.essence = t.essence :=
  s.same_iff t

theorem Desire.beq_iff (d e : Desire) : (d == e) = true ↔ d.essence = e.essence := d.same_iff e

theorem Desire.point_of_beq {d e : Desire} (h : (d == e) = true) : d.point = e.point := by
  obtain ⟨_, _, _⟩ := d
  obtain ⟨_, _, _⟩ := e
  have h := (Desire.beq_iff _ _).1 h
  unfold Desire.essence at h
  injection h

theorem Desire.type_of_beq {d e : Desire} (h : (d == e) = true) : d.type = e.type := by
  obtain ⟨_, _, _⟩ := d
  obtain ⟨_, _, _⟩ := e
  have h := (Desire.beq_iff _ _).1 h
  unfold Desire.essence at h
  injection h

theorem Desire.satisfaction_of_beq {d e : Desire} {s : Satisfaction} (h : (d == e) = true)
    (hs : d.satisfaction? = some s) : ∃ t, e.satisfaction? = some t ∧ (s == t) = true := by
  obtain ⟨_, _, _⟩ := d
  obtain ⟨_, _, t⟩ := e
  change Desire.same _ _ = true at h
  cases hs
  rw [Desire.same, Bool.and_eq_true] at h
  cases t with
  | none => simp [sameOptional] at h
  | some t => exact ⟨t, rfl, h.2⟩

theorem Desire.isInstantiable_of_beq {d e : Desire} (h : (d == e) = true) :
    d.isInstantiable = e.isInstantiable := by
  obtain ⟨_, _, s⟩ := d
  obtain ⟨_, _, t⟩ := e
  change Desire.same _ _ = true at h
  rw [Desire.same, Bool.and_eq_true] at h
  cases s <;> cases t
  · rfl
  · simp [sameOptional] at h
  · simp [sameOptional] at h
  · rfl

instance : EquivBEq Satisfaction := equivBEq_of_iff _ Satisfaction.beq_iff

instance : EquivBEq Desire := equivBEq_of_iff _ Desire.beq_iff

instance : LawfulHashable Satisfaction where
  hash_eq s t h := by
    show s.digest = t.digest
    rw [← s.digest_essence, ← t.digest_essence, (s.beq_iff t).1 h]

instance : LawfulHashable Desire where
  hash_eq d e h := by
    show d.digest = e.digest
    rw [← d.digest_essence, ← e.digest_essence, (d.beq_iff e).1 h]

/-! ## Where nothing is left out -/

def Satisfaction.isInjected : Satisfaction → Bool
  | .injected .. => true
  | _ => false

/-- An injected provider is said to be one of what it serves, which is no provider itself. -/
def Satisfaction.isDirect : Satisfaction → Bool
  | .injected t d => t == .provider d.type && !d.satisfaction?.any isInjected
  | _ => true

theorem Satisfaction.essence_of_not_isInjected {s : Satisfaction} (h : s.isInjected = false) :
    s.essence = s := by
  cases s with
  | injected => cases h
  | _ => rfl

theorem Desire.essence_of_not_isInjected {d : Desire}
    (h : d.satisfaction?.any Satisfaction.isInjected = false) : d.essence = d := by
  obtain ⟨p, t, _ | s⟩ := d
  · rfl
  · rw [Desire.essence, essenceOptional, Satisfaction.essence_of_not_isInjected h]

theorem Desire.eq_of_beq {d e : Desire} (he : e.isInstantiable = false) (h : (d == e) = true) :
    d = e := by
  have hnone : ∀ {x : Desire}, x.isInstantiable = false →
      x.satisfaction?.any Satisfaction.isInjected = false := by
    rintro ⟨_, _, _ | _⟩ hx
    · rfl
    · cases hx
  have hd : d.isInstantiable = false := (Desire.isInstantiable_of_beq h).trans he
  rw [Desire.beq_iff, Desire.essence_of_not_isInjected (hnone hd),
    Desire.essence_of_not_isInjected (hnone he)] at h
  exact h

theorem Satisfaction.eq_of_beq {s t : Satisfaction} (hs : s.isDirect = true)
    (ht : t.isDirect = true) (h : (s == t) = true) : s = t := by
  rw [Satisfaction.beq_iff] at h
  cases s with
  | injected a d =>
    cases t with
    | injected b e =>
      simp only [isDirect, Bool.and_eq_true, beq_iff_eq, Bool.not_eq_true'] at hs ht
      injection h with _ hde
      rw [Desire.essence_of_not_isInjected hs.2, Desire.essence_of_not_isInjected ht.2] at hde
      rw [hs.1, ht.1, hde]
    | _ => cases h
  | _ =>
    cases t with
    | injected => cases h
    | _ => exact h

/-! ## Labels -/

theorem desires_beq_iff :
    ∀ ds es : List Desire, (ds == es) = true ↔ ds.map Desire.essence = es.map Desire.essence
  | [], [] => by simp
  | [], _ :: _ | _ :: _, [] => by simp [List.map]
  | d :: ds, e :: es => by simp [Desire.beq_iff, desires_beq_iff ds es]

theorem desires_digest_eq : ∀ (ds es : List Desire) (start : UInt64), (ds == es) = true →
    Digest.ofList start ds = Digest.ofList start es
  | [], [], _, _ => rfl
  | [], _ :: _, _, h | _ :: _, [], _, h => by simp at h
  | d :: ds, e :: es, start, h => by
    simp only [List.cons_beq_cons, Bool.and_eq_true] at h
    unfold Digest.ofList
    rw [List.foldl_cons, List.foldl_cons, hash_eq h.1]
    exact desires_digest_eq ds es _ h.2

namespace DesireChain

theorem beq_iff (c k : DesireChain) :
    (c == k) = true ↔ (c.initial == k.initial) = true ∧ (c.bound == k.bound) = true := by
  show instBEqDesireChain.beq c k = true ↔ _
  simp [instBEqDesireChain.beq]

instance : EquivBEq DesireChain :=
  equivBEq_of_iff (fun c => (c.initial.essence, c.bound.map Desire.essence)) fun c k => by
    rw [beq_iff, Desire.beq_iff, desires_beq_iff, Prod.mk.injEq]

theorem current_beq {c k : DesireChain} (h : (c == k) = true) :
    (c.current == k.current) = true := by
  obtain ⟨hinitial, hbound⟩ := (beq_iff c k).1 h
  have hcurrent : ∀ c : DesireChain, c.current.essence =
      ((c.bound.map Desire.essence).getLast?).getD c.initial.essence := by
    intro c
    unfold current
    rw [List.getLastD_eq_getLast?, List.getLast?_map, Option.getD_map]
  rw [Desire.beq_iff, hcurrent, hcurrent, (desires_beq_iff _ _).1 hbound,
    (Desire.beq_iff _ _).1 hinitial]

theorem isEmpty_of_beq {c k : DesireChain} (h : (c == k) = true) :
    c.bound.isEmpty = k.bound.isEmpty := by
  have hbound := (desires_beq_iff _ _).1 ((beq_iff c k).1 h).2
  rw [← List.isEmpty_map, hbound, List.isEmpty_map]

theorem beq_iff_desires (c k : DesireChain) :
    (c == k) = true ↔ c.desires.map Desire.essence = k.desires.map Desire.essence := by
  unfold desires
  rw [beq_iff, Desire.beq_iff, desires_beq_iff, List.map_cons, List.map_cons, List.cons.injEq]

theorem contains_earlier_of_beq {c k : DesireChain} (h : (c == k) = true) (d : Desire) :
    c.earlier.contains d = k.earlier.contains d := by
  have hcontains : ∀ c : DesireChain, c.earlier.contains d = true ↔
      d.essence ∈ (c.desires.map Desire.essence).dropLast := by
    intro c
    rw [← List.map_dropLast]
    show c.earlier.contains d = true ↔ d.essence ∈ c.earlier.map Desire.essence
    simp only [List.contains_iff_exists_mem_beq, Desire.beq_iff, List.mem_map,
      eq_comm (a := d.essence)]
  rw [Bool.eq_iff_iff, hcontains, hcontains, (beq_iff_desires c k).1 h]

theorem previous_of_beq {c k c' k' : DesireChain} (h : (c == k) = true)
    (hc : c.previous? = some c') (hk : k.previous? = some k') : (c' == k') = true := by
  rw [beq_iff_desires] at h ⊢
  rw [(previous?_spec hc).2, (previous?_spec hk).2, List.map_dropLast, List.map_dropLast, h]

instance : LawfulHashable DesireChain where
  hash_eq c k h := by
    rw [beq_iff] at h
    show Digest.ofList (hash c.initial) c.bound = Digest.ofList (hash k.initial) k.bound
    rw [hash_eq h.1]
    exact desires_digest_eq _ _ _ h.2

end DesireChain

namespace Component

theorem beq_iff (c k : Component) :
    (c == k) = true ↔ (c.satisfaction == k.satisfaction) = true ∧ c.policy = k.policy := by
  show instBEqComponent.beq c k = true ↔ _
  simp [instBEqComponent.beq]

instance : EquivBEq Component :=
  equivBEq_of_iff (fun c => (c.satisfaction.essence, c.policy)) fun c k => by
    rw [beq_iff, Satisfaction.beq_iff, Prod.mk.injEq]

instance : LawfulHashable Component where
  hash_eq c k h := by
    rw [beq_iff] at h
    show Digest.mix (hash c.satisfaction) (hash c.policy) = Digest.mix _ _
    rw [hash_eq h.1, h.2]

end Component

namespace Dependency

theorem beq_iff (d e : Dependency) :
    (d == e) = true ↔ (d.chain == e.chain) = true ∧ d.fixed = e.fixed := by
  show instBEqDependency.beq d e = true ↔ _
  simp [instBEqDependency.beq]

theorem initial_beq {d e : Dependency} (h : (d == e) = true) : (d.initial == e.initial) = true :=
  ((d.chain.beq_iff e.chain).1 ((d.beq_iff e).1 h).1).1

instance : EquivBEq Dependency :=
  equivBEq_of_iff
    (fun d => (d.chain.initial.essence, d.chain.bound.map Desire.essence, d.fixed)) fun d e => by
    rw [beq_iff, DesireChain.beq_iff, Desire.beq_iff, desires_beq_iff, Prod.mk.injEq,
      Prod.mk.injEq, and_assoc]

instance : LawfulHashable Dependency where
  hash_eq d e h := by
    rw [beq_iff] at h
    show Digest.mix (hash d.chain) d.fixed.toUInt64 = Digest.mix _ _
    rw [hash_eq h.1, h.2]

end Dependency

/-! ## Contexts -/

def Frame.essence (f : Frame) : Satisfaction × Option Qualifier :=
  (f.satisfaction.essence, f.qualifier)

theorem Frame.beq_iff (f k : Frame) : (f == k) = true ↔ f.essence = k.essence := by
  show instBEqFrame.beq f k = true ↔ _
  simp [instBEqFrame.beq, essence, Satisfaction.beq_iff]

theorem frames_beq_iff : ∀ fs ks : List Frame,
    (fs == ks) = true ↔ fs.map Frame.essence = ks.map Frame.essence
  | [], [] => by simp
  | [], _ :: _ | _ :: _, [] => by simp [List.map]
  | f :: fs, k :: ks => by simp [Frame.beq_iff, frames_beq_iff fs ks]

namespace Context

theorem beq_iff (c k : Context) :
    (c == k) = true ↔ c.frames.map Frame.essence = k.frames.map Frame.essence := by
  rw [← frames_beq_iff]
  show instBEqContext.beq c k = true ↔ _
  simp [instBEqContext.beq]

instance : EquivBEq Context := equivBEq_of_iff _ beq_iff

theorem extend_beq {c k : Context} {s t : Satisfaction} (hc : (c == k) = true)
    (hs : (s == t) = true) (q : Option Qualifier) : (c.extend s q == k.extend t q) = true := by
  rw [beq_iff] at hc ⊢
  unfold extend
  rw [List.map_append, List.map_append, hc]
  simp [Frame.essence, (Satisfaction.beq_iff s t).1 hs]

end Context

end Wiring
