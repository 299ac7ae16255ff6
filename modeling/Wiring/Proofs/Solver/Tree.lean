import Wiring.Proofs.Dag.Reach
import Wiring.Proofs.Labels
import Wiring.Proofs.Solver.Resolves
import Wiring.Proofs.Solver.Rounds

/-!
# The tree of a desire

What resolving a desire gives: an edge that begins with it, to a node over the trees of its
dependencies or to a bare node that waits in the queue.
-/

namespace Wiring.Settings

open Work

variable {s : Settings} {d d' : Desire} {c : Context} {r p : Resolution} {w w' : Workspace}
  {o : Attempt Resolved} {e : WiringError} {f : Deferral}

/-! ## Bindings -/

def Settles (s : Settings) (d : Desire) (c : Context) (r : Resolution) : Prop :=
  ∃ turn, (Wiring.settle s.catalog s.functions turn c d).outcome = .ok r

theorem runs_settle {x : Attempt Resolution} : (s.settle d c).Runs w x w' ↔
    x = (Wiring.settle s.catalog s.functions w.nextTag c d).outcome ∧
      w' = { w with nextTag := w.nextTag + 1,
                    events := w.events ++
                      (Wiring.settle s.catalog s.functions w.nextTag c d).events } :=
  Iff.rfl

theorem settles_of_runs (h : (s.settle d c).Runs w (.ok r) w') : s.Settles d c r :=
  ⟨w.nextTag, (runs_settle.1 h).1.symm⟩

/-- What a desire is bound to: what the rounds come to or, where a dependency of that cannot be
satisfied, what was there before the last binding. -/
inductive Binds (s : Settings) (d : Desire) (c : Context) : Resolution → Prop
  | settled {r : Resolution} : s.Settles d c r → Binds s d c r
  | restored {r p : Resolution} {w w' : Workspace} {e : WiringError} {d' : Desire} :
      s.Settles d c r → r.deferred = false →
      ResolvesAll s (inside r c) (r.satisfaction.dependencies s.catalog) w (.error (e, d')) w' →
      e.blames d' = true → r.backtrack? = some p → Binds s d c p

theorem backtrack_spec (h : r.backtrack? = some p) :
    p.chain.initial = r.chain.initial ∧ p.deferred = r.deferred := by
  obtain ⟨-, chain, hchain, _, -, rfl⟩ := Resolution.backtrack?_eq_some.mp h
  exact ⟨(DesireChain.previous?_spec hchain).1, rfl⟩

theorem Binds.initial (h : s.Binds d c r) : r.chain.initial = d := by
  cases h with
  | settled h => exact Rounds.initial_of_settle h.choose_spec
  | restored h _ _ _ hp =>
    rw [(backtrack_spec hp).1]
    exact Rounds.initial_of_settle h.choose_spec

theorem Binds.restore (h : s.Binds d c r) (hr : r.deferred = false)
    (hall : ResolvesAll s (inside r c) (r.satisfaction.dependencies s.catalog) w (.error (e, d'))
      w')
    (hp : (if e.blames d' then r.backtrack? else none) = some p) :
    s.Binds d c p ∧ p.deferred = false := by
  split at hp
  · rename_i hblames
    cases h with
    | settled h => exact ⟨.restored h hr hall hblames hp, by rw [(backtrack_spec hp).2, hr]⟩
    | restored _ _ _ _ h => simp [Resolution.backtrack?_backtrack? _ _ h] at hp
  · cases hp

/-! ## What is put off -/

structure Bare (l : Component) (g : Graph) : Prop where
  label : g.label = l
  edges : g.edges = []
  wellBuilt : g.WellBuilt

/-- What may be put off while a desire is resolved in a context. -/
inductive PutsOff (s : Settings) : Desire → Context → Deferral → Prop
  | here {d : Desire} {c : Context} {r : Resolution} {f : Deferral} :
      c.depth ≤ s.maxDepth → s.Settles d c r → r.deferred = true →
      Bare (r.component s.catalog s.defaultPolicy) f.node → f.context = inside r c →
      PutsOff s d c f
  | deeper {d d' : Desire} {c : Context} {r : Resolution} {f : Deferral} :
      s.Binds d c r → r.deferred = false → d' ∈ r.satisfaction.dependencies s.catalog →
      PutsOff s d' (inside r c) f → PutsOff s d c f

theorem depth_inside (r : Resolution) (c : Context) : (inside r c).depth = c.depth + 1 :=
  Context.depth_extend ..

theorem PutsOff.depth (h : s.PutsOff d c f) :
    c.depth < f.context.depth ∧ f.context.depth ≤ s.maxDepth + 1 := by
  induction h with
  | here hdepth _ _ _ hf =>
    rw [hf, depth_inside]
    omega
  | deeper _ _ _ _ ih =>
    rw [depth_inside] at ih
    omega

theorem PutsOff.bare (h : s.PutsOff d c f) : Bare f.node.label f.node := by
  induction h with
  | here _ _ _ hb _ => exact ⟨rfl, hb.edges, hb.wellBuilt⟩
  | deeper _ _ _ _ ih => exact ih

structure Queues (P : Deferral → Prop) (w w' : Workspace) : Prop where
  pool : (∀ n ∈ w.pool.nodes, n.WellBuilt) → ∀ n ∈ w'.pool.nodes, n.WellBuilt
  queue : ∃ fs, w'.queue = w.queue ++ fs ∧ ∀ f ∈ fs, P f

theorem Queues.refl (P : Deferral → Prop) (w : Workspace) : Queues P w w :=
  ⟨id, [], by simp, by simp⟩

theorem Queues.of_eq {P : Deferral → Prop} (hpool : w'.pool = w.pool)
    (hqueue : w'.queue = w.queue) : Queues P w w' :=
  ⟨hpool ▸ id, [], by simp [hqueue], by simp⟩

theorem Queues.mono {P Q : Deferral → Prop} (h : Queues P w w') (hPQ : ∀ f, P f → Q f) :
    Queues Q w w' := by
  obtain ⟨hpool, fs, hfs, hP⟩ := h
  exact ⟨hpool, fs, hfs, fun f hf => hPQ f (hP f hf)⟩

theorem Queues.trans {P : Deferral → Prop} {v : Workspace} (h : Queues P w v)
    (h' : Queues P v w') : Queues P w w' := by
  obtain ⟨hpool, fs, hfs, hP⟩ := h
  obtain ⟨hpool', gs, hgs, hP'⟩ := h'
  refine ⟨hpool' ∘ hpool, fs ++ gs, by rw [hgs, hfs, List.append_assoc], fun f hf => ?_⟩
  rcases List.mem_append.1 hf with hf | hf
  · exact hP f hf
  · exact hP' f hf

theorem Queues.subset {P : Deferral → Prop} (h : Queues P w w') (hf : f ∈ w.queue) :
    f ∈ w'.queue := by
  obtain ⟨_, fs, hfs, _⟩ := h
  rw [hfs]
  exact List.mem_append_left _ hf

theorem queues_settle {P : Deferral → Prop} {x : Attempt Resolution}
    (h : (s.settle d c).Runs w x w') : Queues P w w' := by
  obtain ⟨_, rfl⟩ := runs_settle.1 h
  exact .of_eq rfl rfl

theorem runs_defer (h : (s.defer r c).Runs w o w') :
    ∃ f, Bare (r.component s.catalog s.defaultPolicy) f.node ∧ f.context = inside r c ∧
      o = .ok (r.dependency, f.node) ∧ w'.pool = w.pool ∧ w'.queue = w.queue ++ [f] := by
  obtain ⟨rfl, rfl⟩ := h
  exact ⟨⟨_, _⟩, ⟨rfl, rfl, Dag.Draft.Ready.build ⟨.nil, by simp⟩ w.nextTag⟩, rfl, rfl, rfl, rfl⟩

def draftOf (s : Settings) (r : Resolution) (edges : List Resolved) :
    Dag.Draft Component Dependency :=
  (Dag.Draft.ofLabel (r.component s.catalog s.defaultPolicy)).addEdges edges

theorem runs_grow {edges : List Resolved} (h : (s.grow r edges).Runs w o w') :
    ∃ tag, o = .ok (r.dependency, ((s.draftOf r edges).build.run tag).1) ∧
      w'.pool = w.pool ∧ w'.queue = w.queue := by
  obtain ⟨rfl, rfl⟩ := h
  exact ⟨w.nextTag, rfl, rfl, rfl⟩

mutual

theorem Resolves.queues : ∀ {d c w o w'}, Resolves s d c w o w' → Queues (s.PutsOff d c) w w'
  | _, _, _, _, _, .tooDeep _ => .refl _ _
  | _, _, _, _, _, .unsettled _ h => queues_settle h
  | _, _, _, _, _, .deferred hdepth h hr hdefer => by
    obtain ⟨f, hbare, hcontext, _, hpool, hqueue⟩ := runs_defer hdefer
    refine (queues_settle h).trans ⟨hpool ▸ id, [f], hqueue, fun g hg => ?_⟩
    rw [List.mem_singleton.1 hg]
    exact .here hdepth (settles_of_runs h) hr hbare hcontext
  | _, _, _, _, _, .expanded _ h hr hexpand =>
    (queues_settle h).trans (hexpand.queues (.settled (settles_of_runs h)) hr)

theorem Expands.queues : ∀ {r c w o w'}, Expands s r c w o w' →
    ∀ {d}, s.Binds d c r → r.deferred = false → Queues (s.PutsOff d c) w w'
  | _, _, _, _, _, .grown hall hgrow, _, hd, hr => by
    obtain ⟨_, _, hpool, hqueue⟩ := runs_grow hgrow
    exact (hall.queues.mono fun f ⟨_, hd', hf⟩ => .deeper hd hr hd' hf).trans
      (.of_eq hpool hqueue)
  | _, _, _, _, _, .failed hall _, _, hd, hr =>
    hall.queues.mono fun f ⟨_, hd', hf⟩ => .deeper hd hr hd' hf
  | _, _, _, _, _, .restored hall hp hreport hexpand, _, hd, hr => by
    obtain ⟨hd', hr'⟩ := hd.restore hr hall hp
    have hlast := hexpand.queues hd' hr'
    rw [(runs_report.1 hreport).2] at hlast
    exact (hall.queues.mono fun f ⟨_, hd', hf⟩ => .deeper hd hr hd' hf).trans
      ⟨hlast.pool, hlast.queue⟩

theorem ResolvesAll.queues : ∀ {c ds w o w'}, ResolvesAll s c ds w o w' →
    Queues (fun f => ∃ d ∈ ds, s.PutsOff d c f) w w'
  | _, _, _, _, _, .nil => .refl _ _
  | _, _, _, _, _, .failed h => h.queues.mono fun _ hf => ⟨_, by simp, hf⟩
  | _, _, _, _, _, .cons h hrest =>
    (h.queues.mono fun _ hf => ⟨_, by simp, hf⟩).trans
      (hrest.queues.mono fun _ ⟨d, hd, hf⟩ => ⟨d, by simp [hd], hf⟩)

end

mutual

theorem Resolves.pool_eq : ∀ {d c w o w'}, Resolves s d c w o w' → w'.pool = w.pool
  | _, _, _, _, _, .tooDeep _ => rfl
  | _, _, _, _, _, .unsettled _ h => by rw [(runs_settle.1 h).2]
  | _, _, _, _, _, .deferred _ h _ hdefer => by
    obtain ⟨-, -, -, -, hpool, -⟩ := runs_defer hdefer
    rw [hpool, (runs_settle.1 h).2]
  | _, _, _, _, _, .expanded _ h _ hexpand => by rw [hexpand.pool_eq, (runs_settle.1 h).2]

theorem Expands.pool_eq : ∀ {r c w o w'}, Expands s r c w o w' → w'.pool = w.pool
  | _, _, _, _, _, .grown hall hgrow => by
    obtain ⟨-, -, hpool, -⟩ := runs_grow hgrow
    rw [hpool, hall.pool_eq]
  | _, _, _, _, _, .failed hall _ => hall.pool_eq
  | _, _, _, _, _, .restored hall _ hreport hexpand => by
    rw [hexpand.pool_eq, (runs_report.1 hreport).2, hall.pool_eq]

theorem ResolvesAll.pool_eq : ∀ {c ds w o w'}, ResolvesAll s c ds w o w' → w'.pool = w.pool
  | _, _, _, _, _, .nil => rfl
  | _, _, _, _, _, .failed h => h.pool_eq
  | _, _, _, _, _, .cons h hrest => by rw [hrest.pool_eq, h.pool_eq]

end

theorem Resolves.putsOff {o : Attempt Resolved} (h : Resolves s d c w o w') (hw : w.queue = []) :
    ∀ f ∈ w'.queue, s.PutsOff d c f := by
  intro f hf
  obtain ⟨-, fs, hfs, hputs⟩ := h.queues
  rw [hw, List.nil_append] at hfs
  exact hputs f (hfs ▸ hf)

/-! ## What is grown -/

/-- The edges that desires are resolved to in a context: to bare nodes that wait in the queue, or to
nodes over what their dependencies are resolved to one step further in. -/
inductive Grown (s : Settings) (queue : List Deferral) :
    Context → List Desire → List Resolved → Prop
  | nil {c : Context} : Grown s queue c [] []
  | deferred {d : Desire} {c : Context} {r : Resolution} {f : Deferral} {ds : List Desire}
      {es : List Resolved} :
      s.Settles d c r → r.deferred = true → f ∈ queue → s.PutsOff d c f →
      Bare (r.component s.catalog s.defaultPolicy) f.node → f.context = inside r c →
      Grown s queue c ds es → Grown s queue c (d :: ds) ((r.dependency, f.node) :: es)
  | expanded {d : Desire} {c : Context} {r : Resolution} {ds : List Desire}
      {es edges : List Resolved} {tag : Nat} :
      s.Binds d c r → r.deferred = false →
      (∃ w w', ResolvesAll s (inside r c) (r.satisfaction.dependencies s.catalog) w (.ok edges)
        w') →
      Grown s queue (inside r c) (r.satisfaction.dependencies s.catalog) edges →
      Grown s queue c ds es →
      Grown s queue c (d :: ds)
        ((r.dependency, ((s.draftOf r edges).build.run tag).1) :: es)

theorem Grown.mono {q q' : List Deferral} {ds : List Desire} {es : List Resolved}
    (h : Grown s q c ds es) (hq : ∀ f ∈ q, f ∈ q') : Grown s q' c ds es := by
  induction h with
  | nil => exact .nil
  | deferred h hr hf hputs hbare hcontext _ ih =>
    exact .deferred h hr (hq _ hf) hputs hbare hcontext ih
  | expanded h hr hall _ _ ih1 ih2 => exact .expanded h hr hall ih1 ih2

theorem Grown.cons {q : List Deferral} {edge : Resolved} {ds : List Desire} {es : List Resolved}
    (h : Grown s q c [d] [edge]) (hes : Grown s q c ds es) :
    Grown s q c (d :: ds) (edge :: es) := by
  cases h with
  | deferred h hr hf hputs hbare hcontext _ => exact .deferred h hr hf hputs hbare hcontext hes
  | expanded h hr hall hin _ => exact .expanded h hr hall hin hes

mutual

theorem Resolves.tree_grown : ∀ {d c w o w'}, Resolves s d c w o w' →
    ∀ {edge}, o = .ok edge → Grown s w'.queue c [d] [edge]
  | _, _, _, _, _, .tooDeep _, _, he | _, _, _, _, _, .unsettled _ _, _, he => by cases he
  | _, _, _, _, _, .deferred hdepth h hr hdefer, _, he => by
    obtain ⟨f, hbare, hcontext, ho, _, hqueue⟩ := runs_defer hdefer
    rw [ho] at he
    cases he
    have hsettles := settles_of_runs h
    exact .deferred hsettles hr (by rw [hqueue]; simp) (.here hdepth hsettles hr hbare hcontext)
      hbare hcontext .nil
  | _, _, _, _, _, .expanded _ h hr hexpand, _, he =>
    hexpand.tree_grown (.settled (settles_of_runs h)) hr he

theorem Expands.tree_grown : ∀ {r c w o w'}, Expands s r c w o w' → ∀ {d}, s.Binds d c r →
    r.deferred = false → ∀ {edge}, o = .ok edge → Grown s w'.queue c [d] [edge]
  | _, _, _, _, _, .grown hall hgrow, _, hd, hr, _, he => by
    obtain ⟨_, ho, _, hqueue⟩ := runs_grow hgrow
    rw [ho] at he
    cases he
    rw [hqueue]
    exact .expanded hd hr ⟨_, _, hall⟩ (hall.trees_grown _ rfl) .nil
  | _, _, _, _, _, .failed _ _, _, _, _, _, he => by cases he
  | _, _, _, _, _, .restored hall hp _ hexpand, _, hd, hr, _, he =>
    hexpand.tree_grown (hd.restore hr hall hp).1 (hd.restore hr hall hp).2 he

theorem ResolvesAll.trees_grown : ∀ {c ds w o w'}, ResolvesAll s c ds w o w' →
    ∀ es, o = .ok es → Grown s w'.queue c ds es
  | _, _, _, _, _, .nil, _, he => by
    cases he
    exact .nil
  | _, _, _, _, _, .failed _, _, he => by cases he
  | _, _, _, _, _, .cons (o := o) h hrest, _, he => by
    have hedge := (h.tree_grown rfl).mono fun _ hf => hrest.queues.subset hf
    have hes := hrest.trees_grown
    cases o with
    | error _ => cases he
    | ok es =>
      cases he
      exact hedge.cons (hes _ rfl)

end

end Wiring.Settings
