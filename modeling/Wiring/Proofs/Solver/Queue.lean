import Wiring.Solver.Deferral
import Wiring.Proofs.Solver.Coverage

/-!
# Working off the queue

`Drains` takes deferrals from the front of the queue one by one until none is left, while those put
off meanwhile come to its end. The solver works off whole generations, which comes to the same: what
it does with a deferral does not depend on the deferrals in front of those it puts off. The contexts
of a generation are deeper than those of the one before, so the last generation is soon reached.
-/

namespace Wiring

def Workspace.behind (pre : List Deferral) (w : Workspace) : Workspace :=
  { w with queue := pre ++ w.queue }

/-! ## Work that leaves the front of the queue alone -/

namespace Work

variable {α β : Type} {m : Work α} {f : α → Work β}

/-- Deferrals in front of the queue make no difference to the work. -/
def Framed (m : Work α) : Prop :=
  ∀ (pre : List Deferral) (w : Workspace) (r : Attempt α) (w' : Workspace),
    m.Runs w r w' → m.Runs (w.behind pre) r (w'.behind pre)

theorem Framed.run (hm : m.Framed) (pre : List Deferral) (w : Workspace) :
    m.run.run (w.behind pre) = ((m.run.run w).1, (m.run.run w).2.behind pre) := by
  obtain ⟨h1, h2⟩ := hm pre w _ _ (runs_self m w)
  exact Prod.ext h1.symm h2.symm

theorem framed_bind (hm : m.Framed) (hf : ∀ a, (f a).Framed) : (m >>= f).Framed := by
  intro pre w r w' h
  rw [runs_bind] at h ⊢
  rcases h with ⟨a, v, ha, h⟩ | ⟨e, he, h⟩
  · exact .inl ⟨a, v.behind pre, hm _ _ _ _ ha, hf a _ _ _ _ h⟩
  · exact .inr ⟨e, he, hm _ _ _ _ h⟩

theorem framed_pure (a : α) : (pure a : Work α).Framed := by
  rintro pre w r w' ⟨rfl, rfl⟩
  exact ⟨rfl, rfl⟩

theorem framed_throw (e : WiringError) : (throw e : Work α).Framed := by
  rintro pre w r w' ⟨rfl, rfl⟩
  exact ⟨rfl, rfl⟩

theorem framed_report (es : List Event) : (report es).Framed := by
  rintro pre w r w' ⟨rfl, rfl⟩
  exact ⟨rfl, rfl⟩

theorem framed_build (x : Dag.Fresh α) : (build x).Framed := by
  rintro pre w r w' ⟨rfl, rfl⟩
  exact ⟨rfl, rfl⟩

theorem framed_order : order.Framed := by
  rintro pre w r w' ⟨rfl, rfl⟩
  exact ⟨rfl, rfl⟩

theorem framed_merge (g : Graph) : (merge g).Framed := by
  rintro pre w r w' ⟨rfl, rfl⟩
  exact ⟨rfl, rfl⟩

theorem framed_putOff (d : Deferral) : (putOff d).Framed := by
  rintro pre w r w' ⟨rfl, rfl⟩
  refine runs_putOff.2 ⟨rfl, ?_⟩
  unfold Workspace.behind
  rw [List.append_assoc]
  rfl

end Work

namespace Settings

open Work

variable {s : Settings}

theorem framed_settle (d : Desire) (c : Context) : (s.settle d c).Framed := by
  rintro pre w r w' ⟨rfl, rfl⟩
  exact ⟨rfl, rfl⟩

theorem framed_defer (r : Resolution) (c : Context) : (s.defer r c).Framed :=
  framed_bind (framed_build _) fun _ => framed_bind (framed_report _) fun _ =>
    framed_bind (framed_putOff _) fun _ => framed_pure _

theorem framed_grow (r : Resolution) (edges : List Resolved) : (s.grow r edges).Framed :=
  framed_bind (framed_build _) fun _ => framed_pure _

theorem run_children_behind {resolve : Desire → Work Resolved}
    (hresolve : ∀ d, (resolve d).Framed) (pre : List Deferral) :
    ∀ (ds : List Desire) (w : Workspace), (children resolve ds).run (w.behind pre) =
      (((children resolve ds).run w).1, ((children resolve ds).run w).2.behind pre)
  | [], _ => rfl
  | d :: ds, w => by
    rw [run_children_cons, run_children_cons, (hresolve d).run]
    rcases (resolve d).run.run w with ⟨e | edge, v⟩
    · rfl
    · dsimp only
      rw [run_children_behind hresolve pre ds v]

theorem framed_childrenOf {resolve : Desire → Context → Work Resolved}
    (hresolve : ∀ d c, (resolve d c).Framed) (r : Resolution) (c : Context) :
    (s.childrenOf resolve r c).Framed := by
  intro pre w x w' h
  obtain ⟨rfl, rfl⟩ := runs_lift.1 h
  refine runs_lift.2 ?_
  rw [run_children_behind fun d => hresolve d (inside r c)]
  exact ⟨rfl, rfl⟩

theorem framed_expand {resolve : Desire → Context → Work Resolved}
    (hresolve : ∀ d c, (resolve d c).Framed) (r : Resolution) (c : Context) :
    (s.expand resolve r c).Framed := by
  refine framed_bind (framed_childrenOf hresolve r c) fun a => ?_
  rcases a with ⟨e, d⟩ | edges
  · dsimp only
    split
    · exact framed_throw e
    · refine framed_bind (framed_report _) fun _ =>
        framed_bind (framed_childrenOf hresolve _ c) fun a => ?_
      rcases a with ⟨e, d⟩ | edges
      · exact framed_throw e
      · exact framed_grow _ edges
  · exact framed_grow r edges

theorem framed_resolveWithin : ∀ (room : Nat) (d : Desire) (c : Context),
    (s.resolveWithin room d c).Framed
  | 0, _, _ => framed_throw _
  | room + 1, d, c => by
    rw [resolveWithin]
    refine framed_bind (framed_settle d c) fun r => ?_
    split
    · exact framed_defer r c
    · exact framed_expand (framed_resolveWithin room) r c

theorem framed_addChild (parent current child : Graph) (dep : Dependency) (p : Pass) :
    (addChild parent current dep child p).Framed := by
  unfold addChild
  split
  · exact framed_bind (framed_report _) fun _ => framed_pure _
  · exact framed_bind (framed_build _) fun _ =>
      framed_bind (framed_bind framed_order fun _ =>
        framed_bind (framed_build _) fun _ => framed_pure _) fun _ => framed_pure _

theorem framed_expandChildren (parent : Graph) (c : Context) : ∀ (ds : List Desire)
    (current : Graph) (p : Pass), (s.expandChildren parent c ds current p).Framed
  | [], _, _ => framed_pure _
  | d :: ds, current, p => by
    rw [expandChildren]
    exact framed_bind (framed_resolveWithin _ d c) fun _ => framed_bind (framed_merge _) fun _ =>
      framed_bind (framed_addChild _ _ _ _ _) fun _ =>
        framed_bind (framed_expandChildren parent c ds _ _) fun _ => framed_pure _

theorem framed_processDeferral (p : Pass) (d : Deferral) : (s.processDeferral p d).Framed := by
  unfold processDeferral
  dsimp only
  split
  · exact framed_pure p
  · split
    · exact framed_pure _
    · exact framed_bind (framed_expandChildren _ _ _ _ _) fun _ => framed_pure _

/-! ## What comes to the queue -/

variable {d : Desire} {c : Context} {p p' : Pass} {f : Deferral} {w w' : Workspace}
  {current parent child : Graph} {dep : Dependency}

def withChild (current : Graph) (dep : Dependency) (child : Graph) (tag : Nat) : Graph :=
  ((current.copy.addEdge dep child).build.run tag).1

def replaced (p : Pass) (old new : Graph) (order : BackEdges.Order) (tag : Nat) : Pass :=
  let replaced := (Dag.replaceNode old new p.root .empty).run tag
  { p with root := replaced.1.1, backEdges := p.backEdges.rekey order replaced.1.2 }

def closed (p : Pass) (current : Graph) (dep : Dependency) (child : Graph) : Pass :=
  { p with backEdges := p.backEdges.append current [⟨current, child, dep⟩] }

def repeated (p : Pass) (parent : Graph) (children : List Resolved) : Pass :=
  { p with backEdges := p.backEdges.set parent (children.map fun e => ⟨parent, e.2, e.1⟩) }

theorem runs_addChild {o : Attempt (Graph × Pass)}
    (h : (addChild parent current dep child p).Runs w o w') :
    w'.pool = w.pool ∧ w'.queue = w.queue ∧
      ((child.reaches parent = true ∧ o = .ok (current, closed p current dep child)) ∨
        child.reaches parent = false ∧ ∃ tag order tag', o = .ok (withChild current dep child tag,
          replaced p current (withChild current dep child tag) order tag')) := by
  unfold addChild at h
  split at h
  · rename_i hreach
    obtain ⟨rfl, rfl⟩ := h
    exact ⟨rfl, rfl, .inl ⟨hreach, rfl⟩⟩
  · rename_i hreach
    obtain ⟨rfl, rfl⟩ := h
    exact ⟨rfl, rfl, .inr ⟨by simpa using hreach, w.nextTag, w.orders (w.nextTag + 1),
      w.nextTag + 1, rfl⟩⟩

theorem exists_addChild (parent current child : Graph) (dep : Dependency) (p : Pass)
    (w : Workspace) : ∃ x w', (addChild parent current dep child p).Runs w (.ok x) w' := by
  have hrun := runs_self (addChild parent current dep child p) w
  obtain ⟨-, -, ⟨-, ho⟩ | ⟨-, _, _, _, ho⟩⟩ := runs_addChild hrun
  · exact ⟨_, _, ho ▸ hrun⟩
  · exact ⟨_, _, ho ▸ hrun⟩

theorem queues_merge {P : Deferral → Prop} {g : Graph} {o : Attempt Graph} (hg : g.WellBuilt)
    (h : (merge g).Runs w o w') : Queues P w w' := by
  obtain ⟨_, rfl⟩ := runs_merge.1 h
  exact ⟨fun hpool => (Dag.Pool.merge_spec hpool hg _).2.2, [], by simp, by simp⟩

theorem tree_wellBuilt {edge : Resolved} (h : Resolves s d c w (.ok edge) w') :
    edge.2.WellBuilt :=
  ((h.tree_grown rfl).raw edge (by simp) edge.2 (.self _)).wellBuilt

theorem queues_expandChildren (parent : Graph) (c : Context) : ∀ (ds : List Desire)
    {current : Graph} {p : Pass} {w w' : Workspace} {o : Attempt (List Resolved × Pass)},
    (s.expandChildren parent c ds current p).Runs w o w' →
      Queues (fun f => ∃ d ∈ ds, s.PutsOff d c f) w w'
  | [], _, _, _, _, _, h => by
    obtain ⟨_, rfl⟩ := runs_pure.1 h
    exact .refl _ _
  | d :: ds, _, _, _, _, _, h => by
    rw [expandChildren] at h
    rcases runs_bind.1 h with ⟨edge, v, hd, h⟩ | ⟨_, _, hd⟩
    · have hd := resolves_of_runs hd
      have hqueues : Queues (fun f => ∃ d' ∈ d :: ds, s.PutsOff d' c f) _ _ :=
        hd.queues.mono fun f hf => ⟨d, by simp, hf⟩
      rcases runs_bind.1 h with ⟨child, v1, hmerge, h⟩ | ⟨_, _, hmerge⟩
      · have hqueues := hqueues.trans (queues_merge (tree_wellBuilt hd) hmerge)
        rcases runs_bind.1 h with ⟨x, v2, hadd, h⟩ | ⟨_, _, hadd⟩
        · obtain ⟨hpool, hqueue, _⟩ := runs_addChild hadd
          have hqueues := hqueues.trans (.of_eq hpool hqueue)
          have hmore : ∀ f, (∃ d' ∈ ds, s.PutsOff d' c f) → ∃ d' ∈ d :: ds, s.PutsOff d' c f := by
            rintro f ⟨d', hd', hf⟩
            exact ⟨d', List.mem_cons_of_mem d hd', hf⟩
          have hrest : ∀ {o v'}, (s.expandChildren parent c ds x.1 x.2).Runs v2 o v' → _ :=
            fun h => hqueues.trans ((queues_expandChildren parent c ds h).mono hmore)
          rcases runs_bind.1 h with ⟨_, _, h, hpure⟩ | ⟨_, _, h⟩
          · obtain ⟨_, rfl⟩ := runs_pure.1 hpure
            exact hrest h
          · exact hrest h
        · obtain ⟨hpool, hqueue, _⟩ := runs_addChild hadd
          exact hqueues.trans (.of_eq hpool hqueue)
      · exact hqueues.trans (queues_merge (tree_wellBuilt hd) hmerge)
    · exact (resolves_of_runs hd).queues.mono fun f hf => ⟨d, by simp, hf⟩

structure Deeper (s : Settings) (n : Nat) (f : Deferral) : Prop where
  after : n < f.context.depth
  within : f.context.depth ≤ s.maxDepth + 1
  bare : Bare f.node.label f.node

theorem putsOff_processDeferral {d : Deferral} {o : Attempt Pass}
    (h : (s.processDeferral p d).Runs w o w') :
    Queues (fun f => ∃ d' ∈ s.catalog.needs d.node, s.PutsOff d' d.context f) w w' := by
  unfold processDeferral at h
  dsimp only at h
  split at h
  · obtain ⟨_, rfl⟩ := runs_pure.1 h
    exact .refl _ _
  · split at h
    · obtain ⟨_, rfl⟩ := runs_pure.1 h
      exact .refl _ _
    · rcases runs_bind.1 h with ⟨_, v, h, hpure⟩ | ⟨_, _, h⟩
      · obtain ⟨_, rfl⟩ := runs_pure.1 hpure
        exact queues_expandChildren _ _ _ h
      · exact queues_expandChildren _ _ _ h

theorem queues_processDeferral {d : Deferral} {o : Attempt Pass}
    (h : (s.processDeferral p d).Runs w o w') : Queues (s.Deeper d.context.depth) w w' :=
  (putsOff_processDeferral h).mono fun _ ⟨_, _, hf⟩ => ⟨hf.depth.1, hf.depth.2, hf.bare⟩

/-- What looking at a deferral comes to: nothing is done, the node gets the children of an equal
one, or it is expanded and noted. -/
inductive Processes (s : Settings) (p : Pass) (f : Deferral) (w : Workspace) :
    Pass → Workspace → Prop
  | skipped : (p.backEdges.contains f.node || !p.root.reaches f.node) = true →
      Processes s p f w p w
  | repeated {children : List Resolved} :
      (p.backEdges.contains f.node || !p.root.reaches f.node) = false →
      p.children? f.node = some children → Processes s p f w (repeated p f.node children) w
  | expanded {children : List Resolved} {p' : Pass} {w' : Workspace} :
      (p.backEdges.contains f.node || !p.root.reaches f.node) = false →
      p.children? f.node = none →
      (s.expandChildren f.node f.context (s.catalog.needs f.node) f.node p).Runs w
        (.ok (children, p')) w' →
      Processes s p f w { p' with expanded := p'.expanded ++ [(f.node, children)] } w'

theorem runs_processDeferral : (s.processDeferral p f).Runs w (.ok p') w' ↔
    s.Processes p f w p' w' := by
  unfold processDeferral
  dsimp only
  constructor
  · intro h
    split at h
    · rename_i hskip
      obtain ⟨he, rfl⟩ := runs_pure.1 h
      cases he
      exact .skipped hskip
    · rename_i hskip
      rw [Bool.not_eq_true] at hskip
      split at h
      · rename_i children hchildren
        obtain ⟨he, rfl⟩ := runs_pure.1 h
        cases he
        exact .repeated hskip hchildren
      · rename_i hchildren
        obtain ⟨_, v, hexpand, hpure⟩ := runs_bind_ok.1 h
        obtain ⟨he, rfl⟩ := runs_pure.1 hpure
        cases he
        exact .expanded hskip hchildren hexpand
  · rintro (hskip | ⟨hskip, hchildren⟩ | ⟨hskip, hchildren, hexpand⟩)
    · rw [if_pos hskip]
      exact runs_pure.2 ⟨rfl, rfl⟩
    · rw [if_neg (Bool.eq_false_iff.1 hskip), hchildren]
      exact runs_pure.2 ⟨rfl, rfl⟩
    · rw [if_neg (Bool.eq_false_iff.1 hskip), hchildren]
      exact runs_bind_ok.2 ⟨_, _, hexpand, runs_pure.2 ⟨rfl, rfl⟩⟩

theorem runs_processDeferral_error {e : WiringError} : (s.processDeferral p f).Runs w (.error e) w' ↔
    (p.backEdges.contains f.node || !p.root.reaches f.node) = false ∧
      p.children? f.node = none ∧
      (s.expandChildren f.node f.context (s.catalog.needs f.node) f.node p).Runs w
        (.error e) w' := by
  unfold processDeferral
  dsimp only
  constructor
  · intro h
    split at h
    · cases (runs_pure.1 h).1
    · rename_i hskip
      rw [Bool.not_eq_true] at hskip
      split at h
      · cases (runs_pure.1 h).1
      · rename_i hchildren
        rcases runs_bind.1 h with ⟨_, _, _, hpure⟩ | ⟨_, he, hexpand⟩
        · cases (runs_pure.1 hpure).1
        · cases he
          exact ⟨hskip, hchildren, hexpand⟩
  · rintro ⟨hskip, hchildren, hexpand⟩
    rw [if_neg (Bool.eq_false_iff.1 hskip), hchildren]
    exact runs_bind.2 (.inr ⟨e, rfl, hexpand⟩)

theorem reaches_of_skip (h : (p.backEdges.contains f.node || !p.root.reaches f.node) = false) :
    p.root.reaches f.node = true := by
  rw [Bool.or_eq_false_iff] at h
  simpa using h.2

/-! ## One deferral after the other -/

/-- Working off the queue from its front, until it is empty or a deferral fails. -/
inductive Drains (s : Settings) : Pass → Workspace → Attempt Pass → Workspace → Prop
  | done {p : Pass} {w : Workspace} : w.queue = [] → Drains s p w (.ok p) w
  | failed {p : Pass} {w w' : Workspace} {d : Deferral} {rest : List Deferral}
      {e : WiringError} : w.queue = d :: rest →
      (s.processDeferral p d).Runs { w with queue := rest } (.error e) w' →
      Drains s p w (.error e) w'
  | next {p p' : Pass} {w v w' : Workspace} {d : Deferral} {rest : List Deferral}
      {o : Attempt Pass} : w.queue = d :: rest →
      (s.processDeferral p d).Runs { w with queue := rest } (.ok p') v →
      Drains s p' v o w' → Drains s p w o w'

theorem Drains.unique {o o' : Attempt Pass} {w'' : Workspace} (h : Drains s p w o w')
    (h' : Drains s p w o' w'') : o = o' ∧ w' = w'' := by
  induction h with
  | done hq =>
    cases h' with
    | done _ => exact ⟨rfl, rfl⟩
    | failed hq' _ | next hq' _ _ => simp [hq] at hq'
  | failed hq h =>
    cases h' with
    | done hq' => simp [hq] at hq'
    | failed hq' h' =>
      rw [hq] at hq'
      cases hq'
      exact h.unique h'
    | next hq' h' _ =>
      rw [hq] at hq'
      cases hq'
      cases (h.unique h').1
  | next hq h _ ih =>
    cases h' with
    | done hq' => simp [hq] at hq'
    | failed hq' h' =>
      rw [hq] at hq'
      cases hq'
      cases (h.unique h').1
    | next hq' h' hrest =>
      rw [hq] at hq'
      cases hq'
      obtain ⟨he, rfl⟩ := h.unique h'
      cases he
      exact ih hrest

theorem Drains.idle {o : Attempt Pass} (h : Drains s p w o w') (hq : w.queue = []) :
    o = .ok p ∧ w' = w := h.unique (.done hq)

theorem drains_batch : ∀ (batch : List Deferral) {p : Pass} {w w' : Workspace} {o : Attempt Pass},
    (batch.foldlM s.processDeferral p).Runs w o w' →
      (∀ e, o = .error e → ∃ pre, Drains s p (w.behind batch) (.error e) (w'.behind pre)) ∧
      ∀ p', o = .ok p' → ∀ o' w'', Drains s p' w' o' w'' → Drains s p (w.behind batch) o' w''
  | [], p, w, w', _, h => by
    obtain ⟨rfl, rfl⟩ := runs_pure.1 h
    refine ⟨fun e he => (by cases he), fun p' he o' w'' hrest => ?_⟩
    cases he
    exact hrest
  | d :: rest, p, w, w', _, h => by
    rw [List.foldlM_cons] at h
    have hframe := framed_processDeferral (s := s) p d rest w
    rcases runs_bind.1 h with ⟨p1, v, hd, h⟩ | ⟨e, rfl, hd⟩
    · obtain ⟨herror, hok⟩ := drains_batch rest h
      refine ⟨fun e he => ?_, fun p' he o' w'' hrest => ?_⟩
      · obtain ⟨pre, hrest⟩ := herror e he
        exact ⟨pre, .next rfl (hframe _ _ hd) hrest⟩
      · exact .next rfl (hframe _ _ hd) (hok p' he o' w'' hrest)
    · refine ⟨fun e' he => ?_, fun _ he => by cases he⟩
      cases he
      exact ⟨rest, .failed rfl (hframe _ _ hd)⟩

theorem queues_batch {n : Nat} : ∀ (batch : List Deferral) {p : Pass} {w w' : Workspace}
    {o : Attempt Pass}, (∀ f ∈ batch, n ≤ f.context.depth) →
      (batch.foldlM s.processDeferral p).Runs w o w' → Queues (s.Deeper n) w w'
  | [], _, _, _, _, _, h => by
    obtain ⟨_, rfl⟩ := runs_pure.1 h
    exact .refl _ _
  | d :: rest, p, w, w', _, hbatch, h => by
    rw [List.foldlM_cons] at h
    have hdeeper : ∀ f, s.Deeper d.context.depth f → s.Deeper n f := by
      intro f hf
      have hd := hbatch d (by simp)
      exact ⟨Nat.lt_of_le_of_lt hd hf.after, hf.within, hf.bare⟩
    rcases runs_bind.1 h with ⟨_, v, hd, h⟩ | ⟨_, _, hd⟩
    · have hrest := queues_batch rest (fun f hf => hbatch f (by simp [hf])) h
      exact ((queues_processDeferral hd).mono hdeeper).trans hrest
    · exact (queues_processDeferral hd).mono hdeeper

theorem drains_generations : ∀ (n : Nat) {p : Pass} {w w' : Workspace} {o : Attempt Pass},
    (∀ f ∈ w.queue, s.Deeper (s.maxDepth + 2 - n) f) → n ≤ s.maxDepth + 2 →
      (s.processGenerations n p).Runs w o w' → ∃ pre, Drains s p w o (w'.behind pre)
  | 0, p, w, w', _, hqueue, _, h => by
    obtain ⟨rfl, rfl⟩ := runs_pure.1 h
    have hempty : w'.queue = [] := by
      refine List.eq_nil_iff_forall_not_mem.2 fun f hf => ?_
      obtain ⟨hafter, hwithin, _⟩ := hqueue f hf
      omega
    exact ⟨[], .done hempty⟩
  | n + 1, p, w, w', _, hqueue, hn, h => by
    rw [processGenerations] at h
    rcases runs_bind.1 h with ⟨batch, v, htake, h⟩ | ⟨_, _, htake⟩
    · obtain ⟨hbatch, rfl⟩ := runs_takeQueue.1 htake
      cases hbatch
      have hbehind : Workspace.behind w.queue { w with queue := [] } = w := by
        unfold Workspace.behind
        rw [List.append_nil]
      split at h
      · rename_i hempty
        obtain ⟨rfl, rfl⟩ := runs_pure.1 h
        rw [List.isEmpty_iff] at hempty
        refine ⟨[], ?_⟩
        have : w = Workspace.behind [] { w with queue := [] } := by
          unfold Workspace.behind
          rw [List.append_nil, ← hempty]
        rw [← this]
        exact .done hempty
      · rcases runs_bind.1 h with ⟨p1, v, hfold, h⟩ | ⟨e, rfl, hfold⟩
        · obtain ⟨_, hok⟩ := drains_batch _ hfold
          have hdepth : ∀ f ∈ w.queue, s.maxDepth + 2 - n ≤ f.context.depth := by
            intro f hf
            have := (hqueue f hf).after
            omega
          obtain ⟨_, fs, hfs, hdeeper⟩ := queues_batch _ hdepth hfold
          have hnext : ∀ f ∈ v.queue, s.Deeper (s.maxDepth + 2 - n) f := by
            rw [hfs]
            exact hdeeper
          obtain ⟨pre, hrest⟩ := drains_generations n hnext (by omega) h
          exact ⟨pre, hbehind ▸ hok p1 rfl _ _ hrest⟩
        · obtain ⟨pre, hrest⟩ := (drains_batch _ hfold).1 e rfl
          exact ⟨pre, hbehind ▸ hrest⟩
    · cases (runs_takeQueue.1 htake).1

/-- Working off all generations is working off the queue one by one. What is left of it when a
deferral fails is not looked at again. -/
theorem drains_of_processDeferrals {root : Graph} {b : BackEdges}
    {o : Attempt (Graph × BackEdges)} (hqueue : ∀ f ∈ w.queue, s.Deeper 0 f)
    (h : (s.processDeferrals root b).Runs w o w') :
    ∃ o' pre, Drains s { root, backEdges := b } w o' (w'.behind pre) ∧
      o = o'.map fun p => (p.root, p.backEdges) := by
  unfold processDeferrals at h
  have hdeeper : ∀ f ∈ w.queue, s.Deeper (s.maxDepth + 2 - (s.maxDepth + 2)) f := by
    rw [Nat.sub_self]
    exact hqueue
  rcases runs_bind.1 h with ⟨p, v, hrun, hpure⟩ | ⟨e, rfl, hrun⟩
  · obtain ⟨rfl, rfl⟩ := runs_pure.1 hpure
    obtain ⟨pre, hdrains⟩ := drains_generations _ hdeeper Nat.le.refl hrun
    exact ⟨.ok p, pre, hdrains, rfl⟩
  · obtain ⟨pre, hdrains⟩ := drains_generations _ hdeeper Nat.le.refl hrun
    exact ⟨.error e, pre, hdrains, rfl⟩

end Settings

end Wiring
