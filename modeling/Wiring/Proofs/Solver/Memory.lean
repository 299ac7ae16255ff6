import Wiring.Proofs.Dag.Memory
import Wiring.Proofs.Solver.Representation
import Wiring.Solver.Revision

/-!
# The memory of a solver

Solvers that take their tags from one counter have their nodes in one memory: the pool, the nodes in
the queue and the graph are among the nodes built so far, whatever a call comes to.
-/

namespace Wiring

abbrev GraphMemory := Dag.Memory Component Dependency

structure Workspace.Within (w : Workspace) (m : GraphMemory) : Prop where
  next : m.next = w.nextTag
  pool : m.Holds w.pool
  queue : ∀ f ∈ w.queue, m.nodes f.node

open Dag (Memory)

namespace Work

variable {α β : Type} {x : Work α} {f : α → Work β} {m : GraphMemory}
  {P : GraphMemory → α → Prop} {Q : GraphMemory → β → Prop} {w w' : Workspace}

/-- Started within the memory, the work ends within a larger one, and there `P` holds of its
result. -/
def Carries (x : Work α) (m : GraphMemory) (P : GraphMemory → α → Prop) : Prop :=
  ∀ w r w', w.Within m → x.Runs w r w' →
    ∃ m', m.Extends m' ∧ w'.Within m' ∧ ∀ a, r = .ok a → P m' a

theorem Carries.bind (hx : x.Carries m P)
    (hf : ∀ m' a, m.Extends m' → P m' a → (f a).Carries m' Q) : (x >>= f).Carries m Q := by
  intro w r w' hw h
  rcases runs_bind.1 h with ⟨a, v, ha, h⟩ | ⟨e, rfl, he⟩
  · obtain ⟨m', hm', hv, hP⟩ := hx _ _ _ hw ha
    obtain ⟨m'', hm'', hw', hQ⟩ := hf m' a hm' (hP a rfl) _ _ _ hv h
    exact ⟨m'', hm'.trans hm'', hw', hQ⟩
  · obtain ⟨m', hm', hw', -⟩ := hx _ _ _ hw he
    exact ⟨m', hm', hw', fun a ha => by cases ha⟩

theorem Carries.and {R : α → Prop} (hx : x.Carries m P)
    (h : ∀ w a w', w.Within m → x.Runs w (.ok a) w' → R a) :
    x.Carries m fun m' a => P m' a ∧ R a := by
  intro w r w' hw hrun
  obtain ⟨m', hm', hw', hP⟩ := hx _ _ _ hw hrun
  refine ⟨m', hm', hw', fun a ha => ⟨hP a ha, ?_⟩⟩
  subst ha
  exact h _ _ _ hw hrun

theorem carries_pure {a : α} (h : P m a) : (pure a : Work α).Carries m P := by
  rintro w r w' hw ⟨rfl, rfl⟩
  exact ⟨m, .refl m, hw, fun b hb => by cases hb; exact h⟩

theorem carries_report (es : List Event) : (report es).Carries m fun _ _ => True := by
  rintro w r w' hw ⟨rfl, rfl⟩
  exact ⟨m, .refl m, ⟨hw.next, hw.pool, hw.queue⟩, fun _ _ => trivial⟩

theorem carries_takeQueue :
    takeQueue.Carries m fun m' batch => ∀ f ∈ batch, m'.nodes f.node := by
  rintro w r w' hw ⟨rfl, rfl⟩
  refine ⟨m, .refl m, ⟨hw.next, hw.pool, fun f hf => by cases hf⟩, fun b hb => ?_⟩
  cases hb
  exact hw.queue

theorem carries_order : order.Carries m fun _ _ => True := by
  rintro w r w' hw ⟨rfl, rfl⟩
  exact ⟨m, .refl m, hw, fun _ _ => trivial⟩

theorem carries_newTurn : newTurn.Carries m fun _ _ => True := by
  rintro w r w' hw ⟨rfl, rfl⟩
  have hle : m.next ≤ w.nextTag + 1 := by
    have hnext := hw.next
    omega
  exact ⟨m.skip _ hle, m.extends_skip hle, ⟨rfl, hw.pool, hw.queue⟩, fun _ _ => trivial⟩

theorem carries_lift (a : Attempt α) : (liftM a : Work α).Carries m fun _ _ => True := by
  rintro w r w' hw ⟨rfl, rfl⟩
  exact ⟨m, .refl m, hw, fun _ _ => trivial⟩

theorem carries_build {c : Dag.Fresh α} (h : m.Allows c P) : (build c).Carries m P := by
  rintro w r w' hw ⟨rfl, rfl⟩
  obtain ⟨m', hm', hnext, hP⟩ := h
  rw [hw.next] at hnext hP
  refine ⟨m', hm', ⟨hnext, hw.pool.mono hm', fun f hf => hm'.nodes (hw.queue f hf)⟩,
    fun a ha => ?_⟩
  cases ha
  exact hP

theorem carries_merge {g : Graph} (hg : m.nodes g) :
    (merge g).Carries m fun m' node => m'.nodes node := by
  intro w r w' hw h
  obtain ⟨rfl, rfl⟩ := runs_merge.1 h
  obtain ⟨m', hm', hnext, hnode, hpool⟩ := Memory.allows_merge hw.pool hg
  rw [hw.next] at hnext hnode hpool
  refine ⟨m', hm', ⟨hnext, hpool, fun f hf => hm'.nodes (hw.queue f hf)⟩, fun a ha => ?_⟩
  cases ha
  exact hnode

end Work

open Work

namespace Settings

variable {s : Settings} {d : Desire} {c : Context} {r : Resolution} {m : GraphMemory}
  {w w' : Workspace}

/-! ## Trees -/

theorem carries_settle (d : Desire) (c : Context) :
    (s.settle d c).Carries m fun _ _ => True := by
  unfold settle
  refine carries_newTurn.bind fun m1 turn _ _ => ?_
  exact (carries_report _).bind fun m2 _ _ _ => carries_lift _

theorem carries_defer (r : Resolution) (c : Context) :
    (s.defer r c).Carries m fun m' edge => m'.nodes edge.2 := by
  have hnode : m.Allows (Dag.singleton (r.component s.catalog s.defaultPolicy) : Dag.Fresh Graph)
      fun m' g => m'.nodes g := Memory.allows_build ⟨.nil, by simp⟩ (by simp)
  unfold defer
  refine (carries_build hnode).bind fun m1 g _ hg => (carries_report _).bind fun m2 _ hm2 _ => ?_
  rintro w r w' hw ⟨rfl, rfl⟩
  refine ⟨m2, .refl m2, ⟨hw.next, hw.pool, fun f hf => ?_⟩, fun a ha => ?_⟩
  · rcases List.mem_append.1 hf with hf | hf
    · exact hw.queue f hf
    · rw [List.mem_singleton.1 hf]
      exact hm2.nodes hg
  · cases ha
    exact hm2.nodes hg

theorem carries_grow {edges : List Resolved} (hedges : ∀ e ∈ edges, m.nodes e.2) :
    (s.grow r edges).Carries m fun m' edge => m'.nodes edge.2 := by
  unfold grow
  exact (carries_build (Memory.allows_over hedges)).bind fun _ _ _ hg => carries_pure hg

mutual

theorem Resolves.within : ∀ {d c w o w'}, Resolves s d c w o w' → ∀ {m : GraphMemory},
    w.Within m → ∃ m', m.Extends m' ∧ w'.Within m' ∧ ∀ edge, o = .ok edge → m'.nodes edge.2
  | _, _, _, _, _, .tooDeep _, m, hw => ⟨m, .refl m, hw, fun _ h => by cases h⟩
  | _, _, _, _, _, .unsettled _ h, m, hw => by
    obtain ⟨m', hm', hw', -⟩ := carries_settle _ _ _ _ _ hw h
    exact ⟨m', hm', hw', fun _ h => by cases h⟩
  | _, _, _, _, _, .deferred _ h _ hdefer, m, hw => by
    obtain ⟨m1, hm1, hw1, -⟩ := carries_settle _ _ _ _ _ hw h
    obtain ⟨m2, hm2, hw2, hedge⟩ := carries_defer _ _ _ _ _ hw1 hdefer
    exact ⟨m2, hm1.trans hm2, hw2, hedge⟩
  | _, _, _, _, _, .expanded _ h _ hexpand, m, hw => by
    obtain ⟨m1, hm1, hw1, -⟩ := carries_settle _ _ _ _ _ hw h
    obtain ⟨m2, hm2, hw2, hedge⟩ := hexpand.within hw1
    exact ⟨m2, hm1.trans hm2, hw2, hedge⟩

theorem Expands.within : ∀ {r c w o w'}, Expands s r c w o w' → ∀ {m : GraphMemory},
    w.Within m → ∃ m', m.Extends m' ∧ w'.Within m' ∧ ∀ edge, o = .ok edge → m'.nodes edge.2
  | _, _, _, _, _, .grown hall hgrow, m, hw => by
    obtain ⟨m1, hm1, hw1, hedges⟩ := hall.within hw
    obtain ⟨m2, hm2, hw2, hedge⟩ := carries_grow (hedges _ rfl) _ _ _ hw1 hgrow
    exact ⟨m2, hm1.trans hm2, hw2, hedge⟩
  | _, _, _, _, _, .failed hall _, m, hw => by
    obtain ⟨m1, hm1, hw1, -⟩ := hall.within hw
    exact ⟨m1, hm1, hw1, fun _ h => by cases h⟩
  | _, _, _, _, _, .restored hall _ hreport hexpand, m, hw => by
    obtain ⟨m1, hm1, hw1, -⟩ := hall.within hw
    obtain ⟨m2, hm2, hw2, -⟩ := carries_report _ _ _ _ hw1 hreport
    obtain ⟨m3, hm3, hw3, hedge⟩ := hexpand.within hw2
    exact ⟨m3, (hm1.trans hm2).trans hm3, hw3, hedge⟩

theorem ResolvesAll.within : ∀ {c ds w a w'}, ResolvesAll s c ds w a w' → ∀ {m : GraphMemory},
    w.Within m →
    ∃ m', m.Extends m' ∧ w'.Within m' ∧ ∀ edges, a = .ok edges → ∀ e ∈ edges, m'.nodes e.2
  | _, _, _, _, _, .nil, m, hw => ⟨m, .refl m, hw, fun _ h => by cases h; simp⟩
  | _, _, _, _, _, .failed h, m, hw => by
    obtain ⟨m1, hm1, hw1, -⟩ := h.within hw
    exact ⟨m1, hm1, hw1, fun _ h => by cases h⟩
  | _, _, _, _, _, .cons (o := o) h hrest, m, hw => by
    obtain ⟨m1, hm1, hw1, hedge⟩ := h.within hw
    obtain ⟨m2, hm2, hw2, hedges⟩ := hrest.within hw1
    refine ⟨m2, hm1.trans hm2, hw2, fun edges h => ?_⟩
    cases o with
    | error _ => cases h
    | ok es =>
      cases h
      exact List.forall_mem_cons.2 ⟨hm2.nodes (hedge _ rfl), hedges _ rfl⟩

end

theorem carries_resolveFully (d : Desire) (c : Context) :
    (s.resolveFully d c).Carries m fun m' edge => m'.nodes edge.2 :=
  fun _ _ _ hw h => (resolves_of_runs h).within hw

/-! ## Deferrals -/

variable {p : Pass} {parent current child : Graph}

theorem carries_addChild (dep : Dependency) (hroot : m.nodes p.root) (hcurrent : m.nodes current)
    (hchild : m.nodes child) : (addChild parent current dep child p).Carries m
      fun m' r => m'.nodes r.1 ∧ m'.nodes r.2.root := by
  unfold addChild
  split
  · exact (carries_report _).bind fun m1 _ hm1 _ =>
      carries_pure ⟨hm1.nodes hcurrent, hm1.nodes hroot⟩
  · refine (carries_build (Memory.allows_copy hcurrent hchild)).bind fun m1 new hm1 hnew => ?_
    refine Carries.bind (P := fun m' q => m'.nodes q.root) ?_ fun m2 q hm2 hq =>
      carries_pure ⟨hm2.nodes hnew, hq⟩
    unfold Pass.replace
    refine carries_order.bind fun m2 order hm2 _ => ?_
    refine (carries_build (Memory.allows_replaceNode p.root (hm2.nodes hnew)
      (by simp [Memory.Images]) ((hm1.trans hm2).nodes hroot))).bind
        fun m3 r _ hr => carries_pure hr.1

theorem carries_expandChildren (parent : Graph) (c : Context) : ∀ (ds : List Desire)
    {current : Graph} {p : Pass} {m : GraphMemory}, m.nodes p.root → m.nodes current →
    (s.expandChildren parent c ds current p).Carries m fun m' r => m'.nodes r.2.root
  | [], _, _, _, hroot, _ => carries_pure hroot
  | d :: ds, current, p, m, hroot, hcurrent => by
    rw [expandChildren]
    refine (carries_resolveFully d c).bind fun m1 edge hm1 hedge => ?_
    refine (carries_merge hedge).bind fun m2 child hm2 hchild => ?_
    have hm := hm1.trans hm2
    refine (carries_addChild edge.1 (hm.nodes hroot) (hm.nodes hcurrent) hchild).bind
      fun m3 x _ hx => ?_
    exact (carries_expandChildren parent c ds hx.2 hx.1).bind fun _ _ _ hr => carries_pure hr

theorem carries_processDeferral {f : Deferral} (hroot : m.nodes p.root) (hf : m.nodes f.node) :
    (s.processDeferral p f).Carries m fun m' q => m'.nodes q.root := by
  unfold processDeferral
  dsimp only
  split
  · exact carries_pure hroot
  · split
    · exact carries_pure hroot
    · exact (carries_expandChildren _ _ _ hroot hf).bind fun _ _ _ hr => carries_pure hr

theorem carries_batch : ∀ (batch : List Deferral) {p : Pass} {m : GraphMemory}, m.nodes p.root →
    (∀ f ∈ batch, m.nodes f.node) →
    (batch.foldlM s.processDeferral p).Carries m fun m' q => m'.nodes q.root
  | [], _, _, hroot, _ => carries_pure hroot
  | f :: rest, p, m, hroot, hbatch => by
    rw [List.foldlM_cons]
    refine (carries_processDeferral hroot (hbatch f List.mem_cons_self)).bind fun m1 q hm1 hq => ?_
    exact carries_batch rest hq fun g hg => hm1.nodes (hbatch g (List.mem_cons_of_mem f hg))

theorem carries_generations : ∀ (n : Nat) {p : Pass} {m : GraphMemory}, m.nodes p.root →
    (s.processGenerations n p).Carries m fun m' q => m'.nodes q.root
  | 0, _, _, hroot => carries_pure hroot
  | n + 1, p, m, hroot => by
    rw [processGenerations]
    refine carries_takeQueue.bind fun m1 batch hm1 hbatch => ?_
    split
    · exact carries_pure (hm1.nodes hroot)
    · exact (carries_batch batch (hm1.nodes hroot) hbatch).bind fun m2 q _ hq =>
        carries_generations n hq

theorem carries_processDeferrals {root : Graph} {b : BackEdges} (hroot : m.nodes root) :
    (s.processDeferrals root b).Carries m fun m' r => m'.nodes r.1 :=
  (carries_generations _ hroot).bind fun _ _ _ hq => carries_pure hq

end Settings

/-! ## Revisions -/

def Revision.Within (r : Revision) (m : GraphMemory) : Prop :=
  ∀ p ∈ r.replacements, m.nodes p.2.tail

theorem Revision.Within.mono {r : Revision} {m m' : GraphMemory} (h : r.Within m)
    (hm : m.Extends m') : r.Within m' := fun p hp => hm.nodes (h p hp)

namespace Settings

variable {s : Settings} {r : Revision} {m : GraphMemory} {g : Graph}

theorem carries_anyOffer (c : Context) (chain : DesireChain) : ∀ (fs : List BindingFunction)
    {m : GraphMemory}, (s.anyOffer c chain fs).Carries m fun _ _ => True
  | [], _ => carries_pure trivial
  | f :: fs, _ => by
    rw [anyOffer]
    refine (carries_report _).bind fun m1 _ _ _ => ?_
    refine carries_newTurn.bind fun m2 turn _ _ => ?_
    refine (carries_lift _).bind fun m3 o _ _ => ?_
    split
    · exact carries_pure trivial
    · exact carries_anyOffer c chain fs

theorem carries_replaceEdge (e : GraphEdge) (c : Context) (hr : r.Within m) :
    (s.replaceEdge e c r).Carries m fun m' r' => r'.Within m' := by
  have hempty : Work.Carries (modify fun w => { w with queue := [] }) m
      fun _ (_ : Unit) => True := by
    rintro w r w' hw ⟨rfl, rfl⟩
    exact ⟨m, .refl m, ⟨hw.next, hw.pool, fun f hf => by cases hf⟩, fun _ _ => trivial⟩
  unfold replaceEdge
  refine hempty.bind fun m1 _ hm1 _ => ?_
  refine (carries_resolveFully _ c).bind fun m2 edge hm2 hedge => ?_
  refine (carries_merge hedge).bind fun m3 node hm3 hnode => ?_
  refine (carries_processDeferrals hnode).bind fun m4 out hm4 hout => carries_pure fun p hp => ?_
  rcases List.mem_append.1 hp with hp | hp
  · exact (((hm1.trans hm2).trans hm3).trans hm4).nodes (hr p hp)
  · rw [List.mem_singleton.1 hp]
    exact hout

mutual

theorem carries_reviseNode : ∀ (x : Graph) (c : Context) {r : Revision} {m : GraphMemory},
    r.Within m → (s.reviseNode x c r).Carries m fun m' r' => r'.Within m'
  | .node t h l es, c, r, m, hr => by
    rw [reviseNode]
    split
    · exact carries_pure hr
    · exact carries_reviseEdges (.node t h l es) es c hr

theorem carries_reviseEdges (x : Graph) : ∀ (es : List Resolved) (c : Context) {r : Revision}
    {m : GraphMemory}, r.Within m →
    (s.reviseEdges x es c r).Carries m fun m' r' => r'.Within m'
  | [], c, r, m, hr => by
    rw [reviseEdges]
    exact carries_pure hr
  | (dep, tail) :: rest, c, r, m, hr => by
    rw [reviseEdges]
    split
    · exact carries_reviseEdges x rest c hr
    · have hselect : Work.Carries (if dep.fixed then pure false else s.isTriggered c dep.initial) m
          fun _ _ => True := by
        split
        · exact carries_pure trivial
        · exact carries_anyOffer c _ s.triggers
      refine hselect.bind fun m1 b hm1 _ => ?_
      split
      · refine (carries_replaceEdge _ c (hr.mono hm1)).bind fun m2 r' _ hr' => ?_
        exact carries_reviseEdges x rest c hr'
      · refine (carries_reviseNode tail _ (hr.mono hm1)).bind fun m2 r' _ hr' => ?_
        exact carries_reviseEdges x rest c hr'

end

end Settings

/-! ## Calls -/

namespace Solver

variable {v : Solver} {m : GraphMemory}

structure Within (v : Solver) (m : GraphMemory) : Prop where
  graph : m.nodes v.graph
  pool : m.Holds v.pool

theorem within_ofSettings (s : Settings) (orders : Nat → BackEdges.Order) :
    m.Allows (ofSettings s orders) fun m' v => v.Within m' := by
  have hroot : m.Allows (Dag.singleton .root : Dag.Fresh Graph) fun m' g => m'.nodes g :=
    Memory.allows_build ⟨.nil, by simp⟩ (by simp)
  refine hroot.bind fun m' g _ hg => Memory.allows_pure ⟨hg, fun n hn => ?_⟩
  cases hn

theorem Within.perform {α : Type} {work : Work α} {P : GraphMemory → α → Prop} (hv : v.Within m)
    (hwork : work.Carries m P) : m.Allows (v.perform work) fun m' called =>
      called.solver.Within m' ∧ ∀ a, called.result = .ok a → P m' a := by
  have hw : (v.workspace m.next).Within m := ⟨rfl, hv.pool, nofun⟩
  obtain ⟨m', hm', hw', hP⟩ := hwork _ _ _ hw (runs_self _ _)
  exact ⟨m', hm', hw'.next, ⟨hm'.nodes hv.graph, hw'.pool⟩, hP⟩

theorem carries_resolveRoot (d : Desire) (hv : v.Within m) :
    (v.resolveRoot d).Carries m fun m' r => m'.nodes r.1 := by
  unfold resolveRoot
  refine (Settings.carries_resolveFully d .initial).bind fun m1 edge hm1 hedge => ?_
  refine (carries_merge hedge).bind fun m2 node hm2 hnode => ?_
  have hgraph : m2.nodes v.graph := (hm1.trans hm2).nodes hv.graph
  refine (carries_build (Memory.allows_copy hgraph hnode)).bind fun m3 g _ hg => ?_
  exact (Settings.carries_processDeferrals hg).bind fun _ _ _ hr => carries_pure hr

theorem Within.resolve (d : Desire) (hv : v.Within m) :
    m.Allows (v.resolve d) fun m' called => called.solver.Within m' := by
  refine (hv.perform (carries_resolveRoot d hv)).bind fun m' called _ ⟨hsolver, hresult⟩ => ?_
  split
  · rename_i r hr
    exact Memory.allows_pure ⟨hresult _ hr, hsolver.pool⟩
  · exact Memory.allows_pure hsolver

end Solver

end Wiring
