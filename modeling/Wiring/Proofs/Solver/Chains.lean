import Wiring.Proofs.Solver.Narrowings
import Wiring.Proofs.Solver.Tree

/-!
# What the chain of a resolution keeps

What holds of a chain, of the chain with whatever a function offers for it, and of the chain before
its last binding holds of the chain of every resolution.
-/

namespace Wiring

variable {c : Catalog} {functions : List BindingFunction} {turn : Nat} {context : Context}
  {r : Rounds} {x : Settled} {res p : Resolution} {K : DesireChain → Prop} {d : Desire}

def Resolution.Current (r : Resolution) : Prop :=
  r.chain.current.satisfaction? = some r.satisfaction

def OfferKeeps (functions : List BindingFunction) (c : Catalog) (K : DesireChain → Prop) : Prop :=
  ∀ f ∈ functions, ∀ ⦃turn context chain applied o⦄, K chain →
    f.offer c turn context chain applied = .ok (some o) → K (chain.extend o.desire)

theorem Rounds.resolution_keeps (hr : K r.chain) (h : r.resolution context = .ok res) :
    K res.chain ∧ res.Current := by
  unfold resolution at h
  split at h
  · cases h
    exact ⟨hr, by assumption⟩
  · cases h

theorem Rounds.Ends.keeps (hoffer : OfferKeeps functions c K) (h : Ends c turn context r x)
    (hfunctions : ∀ b ∈ r.binders, b.function ∈ functions) (hr : K r.chain)
    (hx : x.outcome = .ok res) : K res.chain ∧ res.Current := by
  induction h with
  | ended _ | stuck _ _ => exact resolution_keeps hr hx
  | failed _ _ => cases hx
  | @bound r o x _ ho _ ih =>
    obtain ⟨-, b, hb, hb'⟩ := askBinders_offer ho
    exact ih (functions_of_askBinders hfunctions) (hoffer _ (hfunctions b hb) hr hb') hx

theorem backtrack_keeps (hprevious : ∀ ⦃k l⦄, K k → k.previous? = some l → K l)
    (h : K res.chain) (hp : res.backtrack? = some p) : K p.chain ∧ p.Current := by
  obtain ⟨-, chain, hchain, satisfaction, hsatisfaction, rfl⟩ :=
    Resolution.backtrack?_eq_some.mp hp
  exact ⟨hprevious h hchain, hsatisfaction⟩

namespace Settings

variable {s : Settings}

theorem Settles.keeps (hoffer : OfferKeeps s.functions s.catalog K) (hd : K (.singleton d))
    (h : s.Settles d context res) : K res.chain ∧ res.Current := by
  obtain ⟨turn, h⟩ := h
  obtain ⟨y, hends, hy⟩ := Rounds.ends_of_settle h
  exact hends.keeps hoffer (Rounds.functions_start (fun _ hf => hf) d) hd hy

theorem Binds.keeps (hoffer : OfferKeeps s.functions s.catalog K)
    (hprevious : ∀ ⦃k l⦄, K k → k.previous? = some l → K l) (hd : K (.singleton d))
    (h : s.Binds d context res) : K res.chain ∧ res.Current := by
  cases h with
  | settled h => exact h.keeps hoffer hd
  | restored h _ _ _ hp => exact backtrack_keeps hprevious (h.keeps hoffer hd).1 hp

end Settings

/-! ## The point of a chain -/

def DesireChain.AtPoint (k : DesireChain) : Prop := ∀ d ∈ k.desires, d.point = k.initial.point

theorem Defaults.point_of_offer {defaults : Defaults} {o : Offer}
    (h : defaults.offer c d = some o) : o.desire.point = d.point := by
  unfold offer at h
  split at h <;> cases h <;> rfl

theorem CaseAnswer.point_of_give {a : CaseAnswer} {k : DesireChain} {o : Offer}
    (h : a.give c turn k = .ok (some o)) : o.desire.point = k.current.point := by
  cases a with
  | fail message => cases h
  | offer target policy flags =>
    cases h
    dsimp only
    split <;> rfl

theorem BindingFunction.point_of_offer {f : BindingFunction} {k : DesireChain}
    {applied : List Rule} {o : Offer} (h : f.offer c turn context k applied = .ok (some o)) :
    o.desire.point = k.current.point := by
  cases f with
  | rules groups =>
    obtain ⟨_, -, r, -, ho⟩ := offerByRules_desire h
    rw [ho]
    exact point_targetDesire r.target
  | providers =>
    have h : offerProvider c k = some o := Except.ok.inj h
    unfold offerProvider at h
    dsimp only at h
    split at h
    · cases h
    · obtain ⟨t, -, rfl⟩ := Option.map_eq_some_iff.1 h
      rfl
  | defaults =>
    have h : offerDefault c k = some o := Except.ok.inj h
    unfold offerDefault offerQualifierDefault offerTypeDefault at h
    rcases Option.or_eq_some_iff.1 h with h | ⟨-, h⟩
    · split at h
      · obtain ⟨q, -, h⟩ := Option.bind_eq_some_iff.1 h
        obtain ⟨defaults, -, h⟩ := Option.bind_eq_some_iff.1 h
        exact defaults.point_of_offer h
      · cases h
    · split at h
      · obtain ⟨defaults, -, h⟩ := Option.bind_eq_some_iff.1 h
        exact defaults.point_of_offer h
      · cases h
  | scripted cases =>
    unfold offer offerByCases at h
    dsimp only at h
    split at h
    · cases h
    · exact CaseAnswer.point_of_give h
  | chosen answers choose =>
    unfold offer offerByChoice at h
    dsimp only at h
    split at h
    · cases h
    · exact CaseAnswer.point_of_give h

theorem DesireChain.atPoint_singleton (d : Desire) : (singleton d).AtPoint := by
  intro x hx
  cases List.mem_singleton.1 hx
  rfl

theorem DesireChain.current_mem (k : DesireChain) : k.current ∈ k.desires := by
  rw [k.desires_eq]
  exact List.mem_append_right _ List.mem_cons_self

theorem DesireChain.AtPoint.current {k : DesireChain} (h : k.AtPoint) :
    k.current.point = k.initial.point :=
  h _ k.current_mem

theorem DesireChain.AtPoint.extend {k : DesireChain} (h : k.AtPoint)
    (hd : d.point = k.current.point) : (k.extend d).AtPoint := by
  intro x hx
  rw [desires_extend] at hx
  rcases List.mem_append.1 hx with hx | hx
  · exact h x hx
  · rw [List.mem_singleton.1 hx]
    exact hd.trans h.current

theorem DesireChain.AtPoint.previous {k l : DesireChain} (h : k.AtPoint)
    (hl : k.previous? = some l) : l.AtPoint := by
  obtain ⟨hinitial, hdesires⟩ := previous?_spec hl
  intro x hx
  rw [hdesires] at hx
  rw [hinitial]
  exact h x (List.dropLast_subset _ hx)

theorem Settings.Binds.atPoint {s : Settings} (h : s.Binds d context res) :
    res.chain.AtPoint ∧ res.Current :=
  h.keeps (fun _ _ _ _ _ _ _ hk ho => hk.extend (BindingFunction.point_of_offer ho))
    (fun _ _ hk hl => hk.previous hl) (DesireChain.atPoint_singleton d)

/-! ## The desires of a chain -/

theorem Settings.Binds.forall_desires {s : Settings} {D : Desire → Prop}
    (hs : ∀ f ∈ s.functions, f.isScripted = false)
    (hnarrow : ∀ d, D d → ∀ x ∈ narrowings s.catalog s.functions d, D x) (hd : D d)
    (h : s.Binds d context res) : (∀ x ∈ res.chain.desires, D x) ∧ res.Current := by
  refine h.keeps (K := fun k => ∀ x ∈ k.desires, D x) ?_ ?_ ?_
  · intro f hf _ _ k _ o hk ho x hx
    rw [DesireChain.desires_extend] at hx
    rcases List.mem_append.1 hx with hx | hx
    · exact hk x hx
    · have hcurrent : k.current ∈ narrowings s.catalog s.functions k.current :=
        List.mem_append_left _ List.mem_cons_self
      rw [List.mem_singleton.1 hx]
      exact hnarrow _ (hk _ k.current_mem) _ (mem_narrowings_of_offer hf (hs f hf) hcurrent ho)
  · intro k l hk hl x hx
    rw [(DesireChain.previous?_spec hl).2] at hx
    exact hk x (List.dropLast_subset _ hx)
  · exact List.forall_mem_singleton.2 hd

end Wiring
