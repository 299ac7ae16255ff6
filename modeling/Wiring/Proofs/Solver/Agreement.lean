import Wiring.Proofs.Reordering
import Wiring.Proofs.Solver.Calls

/-!
# Solvers whose rounds agree

Where desires settle on the same with the functions of two solvers, up to the order of tied rules,
the solvers do the same from the same workspace: trees, deferrals and calls agree step by step.
-/

namespace Wiring

open Work Settings

variable {α β : Type} {R : α → α → Prop} {S : β → β → Prop} {m m' : Work α} {f f' : α → Work β}
  {s : Settings} {fs : List BindingFunction}

/-- From every workspace the results are related, the errors are the same up to the order of tied
rules, and the same workspace is left. -/
def Work.Agree (R : α → α → Prop) (m m' : Work α) : Prop :=
  ∀ w, Alike Reordered R (m.run.run w).1 (m'.run.run w).1 ∧ (m.run.run w).2 = (m'.run.run w).2

theorem agree_refl (m : Work α) : m.Agree Eq m := fun _ => ⟨alike_refl _, rfl⟩

theorem agree_bind (hm : m.Agree R m') (hf : ∀ a b, R a b → (f a).Agree S (f' b)) :
    (m >>= f).Agree S (m' >>= f') := by
  intro w
  obtain ⟨hresult, hleft⟩ := hm w
  rw [run_bind, run_bind, ← hleft]
  revert hresult
  generalize (m.run.run w).1 = x
  generalize (m'.run.run w).1 = y
  intro hresult
  rcases x with e | a <;> rcases y with e' | b
  · exact ⟨hresult, rfl⟩
  · exact hresult.elim
  · exact hresult.elim
  · exact hf a b hresult _

theorem agree_then (hm : m.Agree Eq m') (hf : ∀ a, (f a).Agree S (f' a)) :
    (m >>= f).Agree S (m' >>= f') :=
  agree_bind hm fun a _ hab => hab ▸ hf a

theorem agree_throw {e e' : WiringError} (h : Reordered e e') :
    (throw e : Work α).Agree R (throw e') := fun _ => ⟨h, rfl⟩

/-! ## Trees -/

namespace Settings

def withFunctions (s : Settings) (fs : List BindingFunction) : Settings :=
  { s with functions := fs }

def SettlesLike (s : Settings) (fs : List BindingFunction) : Prop :=
  ∀ (turn : Nat) (context : Context) (d : Desire),
    SettledAlike (Wiring.settle s.catalog s.functions turn context d)
      (Wiring.settle s.catalog fs turn context d)

variable {resolve resolve' : Desire → Context → Work Resolved} {r : Resolution}
  {context : Context} {d : Desire}

def FailureAlike (a b : WiringError × Desire) : Prop := Reordered a.1 b.1 ∧ a.2 = b.2

theorem agree_settle (h : s.SettlesLike fs) (d : Desire) (context : Context) :
    (s.settle d context).Agree Eq ((s.withFunctions fs).settle d context) := by
  intro w
  obtain ⟨houtcome, hevents⟩ := h w.nextTag context d
  obtain ⟨hx, hw⟩ := runs_settle.mp (runs_self (s.settle d context) w)
  obtain ⟨hx', hw'⟩ := runs_settle.mp (runs_self ((s.withFunctions fs).settle d context) w)
  rw [hx, hw, hx', hw']
  refine ⟨houtcome, ?_⟩
  unfold withFunctions
  rw [hevents]

theorem agree_children {resolve resolve' : Desire → Work Resolved}
    (h : ∀ d, (resolve d).Agree Eq (resolve' d)) : ∀ (ds : List Desire) (w : Workspace),
      Alike FailureAlike Eq ((children resolve ds).run w).1 ((children resolve' ds).run w).1 ∧
        ((children resolve ds).run w).2 = ((children resolve' ds).run w).2
  | [], _ => ⟨rfl, rfl⟩
  | d :: ds, w => by
    obtain ⟨hresult, hleft⟩ := h d w
    rw [run_children_cons, run_children_cons]
    revert hresult hleft
    generalize (resolve d).run.run w = x
    generalize (resolve' d).run.run w = y
    intro hresult hleft
    rcases x with ⟨e | edge, v⟩ <;> rcases y with ⟨e' | edge', v'⟩
    · exact ⟨⟨hresult, rfl⟩, hleft⟩
    · exact hresult.elim
    · exact hresult.elim
    · cases hresult
      cases hleft
      obtain ⟨hrest, hend⟩ := agree_children h ds v
      dsimp only
      refine ⟨?_, hend⟩
      revert hrest
      generalize ((children resolve ds).run v).1 = a
      generalize ((children resolve' ds).run v).1 = b
      intro hrest
      rcases a with _ | es <;> rcases b with _ | es'
      · exact hrest
      · exact hrest.elim
      · exact hrest.elim
      · exact congrArg (edge :: ·) hrest

theorem agree_childrenOf (h : ∀ d c, (resolve d c).Agree Eq (resolve' d c)) (r : Resolution)
    (context : Context) :
    (s.childrenOf resolve r context).Agree (Alike FailureAlike Eq)
      ((s.withFunctions fs).childrenOf resolve' r context) :=
  fun w => agree_children (fun d => h d (inside r context)) (r.satisfaction.dependencies s.catalog) w

theorem agree_expand (h : ∀ d c, (resolve d c).Agree Eq (resolve' d c)) (r : Resolution)
    (context : Context) :
    (s.expand resolve r context).Agree Eq ((s.withFunctions fs).expand resolve' r context) := by
  refine agree_bind (agree_childrenOf h r context) fun a b hab => ?_
  rcases a with ⟨e, d⟩ | es <;> rcases b with ⟨e', d'⟩ | es'
  · obtain ⟨he, hd⟩ := hab
    dsimp only at he hd ⊢
    rw [← hd, ← he.blames]
    split
    · exact agree_throw he
    · rename_i restored hrestored
      refine agree_then (agree_refl _) fun _ => ?_
      refine agree_bind (agree_childrenOf h restored context) fun a b hab => ?_
      rcases a with ⟨e, d⟩ | es <;> rcases b with ⟨e', d'⟩ | es'
      · exact agree_throw hab.1
      · exact hab.elim
      · exact hab.elim
      · cases hab
        exact agree_refl _
  · exact hab.elim
  · exact hab.elim
  · cases hab
    exact agree_refl _

theorem agree_resolveWithin (h : s.SettlesLike fs) : ∀ (room : Nat) (d : Desire)
    (context : Context), (s.resolveWithin room d context).Agree Eq
      ((s.withFunctions fs).resolveWithin room d context)
  | 0, _, _ => agree_refl _
  | room + 1, d, context => by
    refine agree_then (agree_settle h d context) fun r => ?_
    split
    · exact agree_refl _
    · exact agree_expand (agree_resolveWithin h room) r context

/-! ## Deferrals -/

theorem agree_expandChildren (h : s.SettlesLike fs) (parent : Graph) (context : Context) :
    ∀ (ds : List Desire) (current : Graph) (p : Pass),
      (s.expandChildren parent context ds current p).Agree Eq
        ((s.withFunctions fs).expandChildren parent context ds current p)
  | [], _, _ => agree_refl _
  | d :: ds, current, p => by
    refine agree_then (agree_resolveWithin h _ d context) fun edge => ?_
    refine agree_then (agree_refl _) fun child => ?_
    refine agree_then (agree_refl _) fun added => ?_
    exact agree_then (agree_expandChildren h parent context ds added.1 added.2) fun _ => agree_refl _

theorem agree_processDeferral (h : s.SettlesLike fs) (p : Pass) (f : Deferral) :
    (s.processDeferral p f).Agree Eq ((s.withFunctions fs).processDeferral p f) := by
  unfold processDeferral
  dsimp only
  split
  · exact agree_refl _
  · split
    · exact agree_refl _
    · exact agree_then (agree_expandChildren h _ _ _ _ _) fun _ => agree_refl _

theorem agree_batch (h : s.SettlesLike fs) (batch : List Deferral) (p : Pass) :
    (batch.foldlM s.processDeferral p).Agree Eq
      (batch.foldlM (s.withFunctions fs).processDeferral p) := by
  induction batch generalizing p with
  | nil =>
    rw [List.foldlM_nil, List.foldlM_nil]
    exact agree_refl _
  | cons f batch ih =>
    rw [List.foldlM_cons, List.foldlM_cons]
    exact agree_then (agree_processDeferral h p f) ih

theorem agree_generations (h : s.SettlesLike fs) : ∀ (n : Nat) (p : Pass),
    (s.processGenerations n p).Agree Eq ((s.withFunctions fs).processGenerations n p)
  | 0, _ => agree_refl _
  | n + 1, p => by
    refine agree_then (agree_refl _) fun batch => ?_
    split
    · exact agree_refl _
    · exact agree_then (agree_batch h batch p) fun p => agree_generations h n p

theorem agree_processDeferrals (h : s.SettlesLike fs) (root : Graph) (b : BackEdges) :
    (s.processDeferrals root b).Agree Eq ((s.withFunctions fs).processDeferrals root b) :=
  agree_then (agree_generations h _ _) fun _ => agree_refl _

end Settings

/-! ## Calls -/

namespace Solver

variable {v : Solver} {d : Desire}

def withFunctions (v : Solver) (fs : List BindingFunction) : Solver :=
  { v with settings := v.settings.withFunctions fs }

theorem agree_resolveRoot (h : v.settings.SettlesLike fs) (d : Desire) :
    (v.resolveRoot d).Agree Eq ((v.withFunctions fs).resolveRoot d) := by
  refine agree_then (agree_resolveWithin h _ d .initial) fun edge => ?_
  refine agree_then (agree_refl _) fun node => ?_
  refine agree_then (agree_refl _) fun linked => ?_
  exact agree_then (agree_processDeferrals h linked v.backEdges) fun _ => agree_refl _

theorem resolve_withFunctions (h : v.settings.SettlesLike fs) (d : Desire) (tag : Nat) :
    Alike Reordered Eq ((v.resolve d).run tag).1.result
        (((v.withFunctions fs).resolve d).run tag).1.result ∧
      (((v.withFunctions fs).resolve d).run tag).1.solver =
        ((v.resolve d).run tag).1.solver.withFunctions fs := by
  have hagree := agree_resolveRoot h d (v.workspace tag)
  have hrun := runs_self (v.resolveRoot d) (v.workspace tag)
  have hrun' := runs_self ((v.withFunctions fs).resolveRoot d) (v.workspace tag)
  rw [← hagree.2] at hrun'
  have hresult := hagree.1
  revert hresult hrun hrun'
  generalize ((v.resolveRoot d).run.run (v.workspace tag)).1 = o
  generalize (((v.withFunctions fs).resolveRoot d).run.run (v.workspace tag)).1 = o'
  generalize ((v.resolveRoot d).run.run (v.workspace tag)).2 = w
  intro hrun hrun' hresult
  rcases o with e | ⟨g, b, l⟩ <;> rcases o' with e' | ⟨g', b', l'⟩
  · rw [run_resolve_error hrun, run_resolve_error hrun']
    exact ⟨hresult, rfl⟩
  · exact hresult.elim
  · exact hresult.elim
  · cases hresult
    rw [run_resolve_ok hrun, run_resolve_ok hrun']
    exact ⟨rfl, rfl⟩

end Solver

end Wiring
