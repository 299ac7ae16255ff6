import Wiring.Proofs.Dag.Same
import Wiring.Proofs.Solver.Determined

/-!
# What is put off is determined

Where no function follows a script, resolving a desire in a context puts off equal nodes with equal
contexts, in the same order, whatever workspace it starts in, and also where it fails.
-/

namespace Wiring.Settings

open Work

structure SameDeferral (f g : Deferral) : Prop where
  node : Dag.SameNode f.node g.node
  label : f.node.label = g.node.label
  context : f.context = g.context

def PutAlike (w w' v v' : Workspace) : Prop :=
  ∃ fs gs, w'.queue = w.queue ++ fs ∧ v'.queue = v.queue ++ gs ∧ List.Forall₂ SameDeferral fs gs

variable {s : Settings} {d : Desire} {c : Context} {r : Resolution}
  {w w' w'' v v' v'' : Workspace} {o o' : Attempt Resolved} {f f' : Deferral}

theorem SameDeferral.bare (h : SameDeferral f f') (hbare : Bare f.node.label f.node) :
    Bare f'.node.label f'.node :=
  ⟨rfl, (Dag.edges_eq_nil_iff h.node.beq).1 hbare.edges, h.node.right⟩

theorem PutAlike.of_eq (hw : w'.queue = w.queue) (hv : v'.queue = v.queue) : PutAlike w w' v v' :=
  ⟨[], [], by rw [hw, List.append_nil], by rw [hv, List.append_nil], .nil⟩

theorem PutAlike.trans (h : PutAlike w w' v v') (h' : PutAlike w' w'' v' v'') :
    PutAlike w w'' v v'' := by
  obtain ⟨fs, gs, hw, hv, hsame⟩ := h
  obtain ⟨fs', gs', hw', hv', hsame'⟩ := h'
  exact ⟨fs ++ fs', gs ++ gs', by rw [hw', hw, List.append_assoc],
    by rw [hv', hv, List.append_assoc], List.rel_append hsame hsame'⟩

theorem PutAlike.same (h : PutAlike w w' v v')
    (hqueue : List.Forall₂ SameDeferral w.queue v.queue) :
    List.Forall₂ SameDeferral w'.queue v'.queue := by
  obtain ⟨fs, gs, hw, hv, hsame⟩ := h
  rw [hw, hv]
  exact List.rel_append hqueue hsame

theorem queue_settle {x : Attempt Resolution} (h : (s.settle d c).Runs w x w') :
    w'.queue = w.queue := by
  rw [(runs_settle.1 h).2]

theorem putAlike_settle {x y : Attempt Resolution} (h : (s.settle d c).Runs w x w')
    (h' : (s.settle d c).Runs v y v') : PutAlike w w' v v' :=
  .of_eq (queue_settle h) (queue_settle h')

theorem putAlike_defer (h : (s.defer r c).Runs w o w') (h' : (s.defer r c).Runs v o' v') :
    PutAlike w w' v v' := by
  obtain ⟨f, hf, hfc, -, -, hw⟩ := runs_defer h
  obtain ⟨g, hg, hgc, -, -, hv⟩ := runs_defer h'
  have hsame : SameDeferral f g := ⟨⟨hf.beq hg, hf.wellBuilt, hg.wellBuilt⟩,
    hf.label.trans hg.label.symm, hfc.trans hgc.symm⟩
  exact ⟨[f], [g], hw, hv, .cons hsame .nil⟩

theorem putAlike_grow {es fs : List Resolved} (h : (s.grow r es).Runs w o w')
    (h' : (s.grow r fs).Runs v o' v') : PutAlike w w' v v' := by
  obtain ⟨-, -, -, hw⟩ := runs_grow h
  obtain ⟨-, -, -, hv⟩ := runs_grow h'
  exact .of_eq hw hv

theorem putAlike_report {es fs : List Event} {x y : Attempt Unit}
    (h : (report es).Runs w x w') (h' : (report fs).Runs v y v') : PutAlike w w' v v' := by
  obtain ⟨-, rfl⟩ := runs_report.1 h
  obtain ⟨-, rfl⟩ := runs_report.1 h'
  exact .of_eq rfl rfl

mutual

theorem Resolves.putAlike (hs : s.Unscripted) : ∀ {d c w w' o}, Resolves s d c w o w' →
    ∀ ⦃v v' o'⦄, Resolves s d c v o' v' → PutAlike w w' v v'
  | _, _, _, _, _, .tooDeep hdepth, _, _, _, h' => by
    cases h' with
    | tooDeep _ => exact .of_eq rfl rfl
    | unsettled h _ | deferred h _ _ _ | expanded h _ _ _ => omega
  | _, _, _, _, _, .unsettled hdepth h, _, _, _, h' => by
    cases h' with
    | tooDeep _ => omega
    | unsettled _ h' => exact putAlike_settle h h'
    | deferred _ h' _ _ | expanded _ h' _ _ => exact (outcome_alike hs rfl h h').elim
  | _, _, _, _, _, .deferred hdepth h hr hdefer, _, _, _, h' => by
    cases h' with
    | tooDeep _ => omega
    | unsettled _ h' => exact (outcome_alike hs rfl h h').elim
    | deferred _ h' _ hdefer' =>
      cases outcome_alike hs rfl h h'
      exact (putAlike_settle h h').trans (putAlike_defer hdefer hdefer')
    | expanded _ h' hr' _ =>
      cases outcome_alike hs rfl h h'
      simp [hr] at hr'
  | _, _, _, _, _, .expanded hdepth h hr hexpand, _, _, _, h' => by
    have ih := hexpand.putAlike hs
    cases h' with
    | tooDeep _ => omega
    | unsettled _ h' => exact (outcome_alike hs rfl h h').elim
    | deferred _ h' hr' _ =>
      cases outcome_alike hs rfl h h'
      simp [hr] at hr'
    | expanded _ h' _ hexpand' =>
      cases outcome_alike hs rfl h h'
      exact (putAlike_settle h h').trans (ih hexpand')

theorem Expands.putAlike (hs : s.Unscripted) : ∀ {r c w w' o}, Expands s r c w o w' →
    ∀ ⦃v v' o'⦄, Expands s r c v o' v' → PutAlike w w' v v'
  | _, _, _, _, _, .grown hall hgrow, _, _, _, h' => by
    have ih := hall.putAlike hs
    have halike := hall.alike hs rfl
    cases h' with
    | grown hall' hgrow' => exact (ih hall').trans (putAlike_grow hgrow hgrow')
    | failed hall' _ | restored hall' _ _ _ => exact (halike hall').elim
  | _, _, _, _, _, .failed hall hspent, _, _, _, h' => by
    have ih := hall.putAlike hs
    have halike := hall.alike hs rfl
    cases h' with
    | grown hall' _ => exact (halike hall').elim
    | failed hall' _ => exact ih hall'
    | restored hall' hp _ _ =>
      obtain ⟨hblame, hd⟩ := halike hall'
      cases hd
      rw [hblame, hp] at hspent
      cases hspent
  | _, _, _, _, _, .restored hall hp hreport hexpand, _, _, _, h' => by
    have ih := hall.putAlike hs
    have ih' := hexpand.putAlike hs
    have halike := hall.alike hs rfl
    cases h' with
    | grown hall' _ => exact (halike hall').elim
    | failed hall' hspent =>
      obtain ⟨hblame, hd⟩ := halike hall'
      cases hd
      rw [hblame, hspent] at hp
      cases hp
    | restored hall' hp' hreport' hexpand' =>
      obtain ⟨hblame, hd⟩ := halike hall'
      cases hd
      rw [hblame, hp'] at hp
      cases hp
      exact (ih hall').trans ((putAlike_report hreport hreport').trans (ih' hexpand'))

theorem ResolvesAll.putAlike (hs : s.Unscripted) : ∀ {c ds w w' a}, ResolvesAll s c ds w a w' →
    ∀ ⦃v v' a'⦄, ResolvesAll s c ds v a' v' → PutAlike w w' v v'
  | _, _, _, _, _, .nil, _, _, _, h' => by
    cases h'
    exact .of_eq rfl rfl
  | _, _, _, _, _, .failed h, _, _, _, h' => by
    have ih := h.putAlike hs
    have halike := h.alike hs rfl
    cases h' with
    | failed h' => exact ih h'
    | cons h' _ => exact (halike h').elim
  | _, _, _, _, _, .cons h hrest, _, _, _, h' => by
    have ih := h.putAlike hs
    have ih' := hrest.putAlike hs
    have halike := h.alike hs rfl
    cases h' with
    | failed h' => exact (halike h').elim
    | cons h' hrest' => exact (ih h').trans (ih' hrest')

end

end Wiring.Settings
