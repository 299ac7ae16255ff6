import Wiring.Proofs.Dag.Labels
import Wiring.Proofs.Solver.Completeness
import Wiring.Proofs.Solver.Paths

/-!
# Every edge stems from a binding

Trees are grown from what desires are taken for, and neither merging nor replacing nor closing a
cycle changes what an edge says. So every edge that can be come to, over edges and back-edges, says
what some desire was taken for in some context.
-/

namespace Wiring

open Work Settings
open Dag (EachBeyond)

variable {s : Settings} {D : Desire → Prop} {P : Component → Prop} {d : Desire}
  {c k : Context} {r : Resolution} {e : Resolved} {f : Deferral} {w w' : Workspace} {p p' : Pass}
  {g x current parent child : Graph}

namespace Settings

/-! ## What desires are taken for -/

/-- What a desire is taken for in a context: its rounds come to it and it is put off, or all its
dependencies are resolved. -/
inductive Takes (s : Settings) (d : Desire) (c : Context) (r : Resolution) : Prop
  | deferred : s.Settles d c r → r.deferred = true → Takes s d c r
  | grown {w w' : Workspace} {es : List Resolved} : s.Binds d c r → r.deferred = false →
      ResolvesAll s (inside r c) (r.satisfaction.dependencies s.catalog) w (.ok es) w' →
      Takes s d c r

theorem Takes.binds (h : s.Takes d c r) : s.Binds d c r := by
  cases h with
  | deferred h _ => exact .settled h
  | grown h _ _ => exact h

/-- An edge with this label, to a node with that one, is for what a desire in `D` is taken for in
some context. -/
def Stems (s : Settings) (D : Desire → Prop) (dep : Dependency) (l : Component) : Prop :=
  ∃ d c r, D d ∧ s.Takes d c r ∧ (r.dependency == dep) = true ∧
    (r.component s.catalog s.defaultPolicy == l) = true

theorem respectsEnds_stems (s : Settings) (D : Desire → Prop) : Dag.RespectsEnds (s.Stems D) := by
  rintro dep l l' ⟨d, c, r, hd, htakes, hdep, hl⟩ hll
  exact ⟨d, c, r, hd, htakes, hdep, BEq.trans hl hll⟩

structure Inherits (s : Settings) (D : Desire → Prop) (P : Component → Prop) : Prop where
  root : P .root
  component : ∀ ⦃d c r⦄, D d → s.Binds d c r → P (r.component s.catalog s.defaultPolicy)
  needs : ∀ ⦃d c r⦄, D d → s.Binds d c r → ∀ d' ∈ r.satisfaction.dependencies s.catalog, D d'

/-- The edge stems from a desire in `D`, and so do all beyond it; the nodes have labels in `P`. -/
abbrev StemsBeyond (s : Settings) (D : Desire → Prop) (P : Component → Prop) (e : Resolved) : Prop :=
  EachBeyond P (s.Stems D) e

theorem Grown.stems {q : List Deferral} {ds : List Desire} {es : List Resolved}
    (hI : s.Inherits D P) (h : Grown s q c ds es) (hds : ∀ d ∈ ds, D d) :
    ∀ e ∈ es, s.StemsBeyond D P e := by
  induction h with
  | nil => exact List.forall_mem_nil _
  | @deferred d c r f ds es h hr _ _ hbare _ _ ih =>
    obtain ⟨hd, hds⟩ := List.forall_mem_cons.1 hds
    refine List.forall_mem_cons.2 ⟨⟨?_, Dag.each_iff.2 ⟨?_, fun e he => ?_⟩⟩, ih hds⟩
    · exact ⟨d, c, r, hd, .deferred h hr, BEq.rfl, by rw [hbare.label]; exact BEq.rfl⟩
    · rw [hbare.label]
      exact hI.component hd (.settled h)
    · rw [hbare.edges] at he
      cases he
  | @expanded d c r ds es edges tag h hr hall _ _ ihin ih =>
    obtain ⟨hd, hds⟩ := List.forall_mem_cons.1 hds
    obtain ⟨w, w', hall⟩ := hall
    refine List.forall_mem_cons.2 ⟨⟨?_, ?_⟩, ih hds⟩
    · refine ⟨d, c, r, hd, .grown h hr hall, BEq.rfl, ?_⟩
      show (_ == (s.draftOf r edges).label) = true
      unfold draftOf
      rw [Dag.Draft.label_addEdges]
      exact BEq.rfl
    · exact Dag.each_over (hI.component hd h) (ihin (hI.needs hd h)) tag

theorem Resolves.stems (hI : s.Inherits D P) (hd : D d) (h : Resolves s d c w (.ok e) w') :
    s.StemsBeyond D P e :=
  (h.tree_grown rfl).stems hI (fun _ h => List.mem_singleton.1 h ▸ hd) e List.mem_cons_self

/-! ## What waits -/

structure Heir (s : Settings) (D : Desire → Prop) (P : Component → Prop) (f : Deferral) : Prop where
  label : P f.node.label
  needs : ∀ d ∈ s.catalog.needs f.node, D d

theorem PutsOff.heir (hI : s.Inherits D P) (h : s.PutsOff d c f) (hd : D d) : s.Heir D P f := by
  induction h with
  | here _ h _ hbare _ =>
    refine ⟨hbare.label ▸ hI.component hd (.settled h), fun d' hd' => ?_⟩
    unfold Catalog.needs at hd'
    rw [hbare.label] at hd'
    exact hI.needs hd (.settled h) d' hd'
  | deeper h _ hd' _ ih => exact ih (hI.needs hd h _ hd')

end Settings

/-! ## A pass -/

structure Pass.Stems (s : Settings) (D : Desire → Prop) (P : Component → Prop) (p : Pass) :
    Prop where
  root : p.root.Each P (s.Stems D)
  back : p.backEdges.AllEdges fun _ e => s.StemsBeyond D P (e.label, e.tail)
  found : ∀ x ∈ p.expanded, ∀ e ∈ x.2, s.StemsBeyond D P e

structure Workspace.Stems (s : Settings) (D : Desire → Prop) (P : Component → Prop)
    (w : Workspace) : Prop where
  pool : w.pool.Each P (s.Stems D)
  built : PoolBuilt w
  queue : ∀ f ∈ w.queue, s.Heir D P f

theorem Pass.Stems.closed (h : p.Stems s D P) (hp : p.Built) (hcurrent : current.WellBuilt)
    {dep : Dependency} (he : s.StemsBeyond D P (dep, child)) :
    (Settings.closed p current dep child).Stems s D P :=
  ⟨h.root, h.back.append hp.heads hcurrent fun _ _ _ _ he' => List.mem_singleton.1 he' ▸ he,
    h.found⟩

theorem stems_withChild (hcurrent : current.Each P (s.Stems D)) {dep : Dependency}
    (he : s.StemsBeyond D P (dep, child)) (tag : Nat) :
    (withChild current dep child tag).Each P (s.Stems D) := by
  refine Dag.each_iff.2 ⟨?_, fun f hf => ?_⟩
  · rw [withChild_label]
    exact (Dag.each_iff.1 hcurrent).1
  · rcases mem_withChild hf with hf | rfl
    · exact hcurrent.edge hf
    · exact he

theorem Pass.Stems.replaced (h : p.Stems s D P) (hp : p.Built) (hw : current.WellBuilt)
    (hcurrent : current.Each P (s.Stems D)) {dep : Dependency} (hchild : child.WellBuilt)
    (he : s.StemsBeyond D P (dep, child))
    (tag : Nat) (order : BackEdges.Order) (tag' : Nat) :
    (Settings.replaced p current (withChild current dep child tag) order tag').Stems s D P := by
  have hnode : Dag.NodeReplaced current (withChild current dep child tag) p.root .empty _ :=
    replaced_node hp.root (withChild_wellBuilt hw dep hchild tag) order tag'
  have hl : (current.label == (withChild current dep child tag).label) = true := by
    rw [withChild_label]
    exact BEq.rfl
  have hR := respectsEnds_stems s D
  have hnew := stems_withChild hcurrent he tag
  refine ⟨hnode.each hl hR h.root hnew, ?_, h.found⟩
  refine BackEdges.AllEdges.rekey (fun entry hentry => ?_) fun entry hentry e he k _ _ => ?_
  · exact hnode.imageOf_wellBuilt (hp.heads entry hentry)
  · exact hnode.each_imageOf hl hR h.root hnew (h.back entry hentry e he)

theorem Pass.Stems.repeated (h : p.Stems s D P) (hp : p.Built) {node : Graph}
    (hnode : node.WellBuilt) {children : List Resolved}
    (hchildren : p.children? node = some children) :
    (Settings.repeated p node children).Stems s D P := by
  obtain ⟨x, hx, -, rfl⟩ := p.exists_of_children? hchildren
  refine ⟨h.root, h.back.set hp.heads hnode fun _ _ _ e he => ?_, h.found⟩
  obtain ⟨edge, hedge, rfl⟩ := List.mem_map.1 he
  exact h.found x hx edge hedge

/-! ## Runs -/

theorem Workspace.Stems.merge (h : w.Stems s D P) (hg : g.Each P (s.Stems D)) (hw : g.WellBuilt)
    {o : Attempt Graph} (hrun : (Work.merge g).Runs w o w') :
    w'.Stems s D P ∧ ∃ node, o = .ok node ∧ node.Each P (s.Stems D) ∧
      (g.label == node.label) = true := by
  have hqueues := queues_merge (P := fun _ => True) hw hrun
  obtain ⟨rfl, rfl⟩ := runs_merge.1 hrun
  obtain ⟨⟨hnode, hlabel⟩, hpool⟩ :=
    Dag.Pool.Each.merge (respectsEnds_stems s D) h.pool hg w.nextTag
  exact ⟨⟨hpool, hqueues.pool h.built, h.queue⟩, _, rfl, hnode, hlabel⟩

theorem Workspace.Stems.resolves (hI : s.Inherits D P) (h : w.Stems s D P) (hd : D d)
    {o : Attempt Resolved} (hrun : Resolves s d c w o w') : w'.Stems s D P := by
  obtain ⟨hbuilt, fs, hfs, hputs⟩ := hrun.queues
  refine ⟨hrun.pool_eq ▸ h.pool, hbuilt h.built, fun f hf => ?_⟩
  rw [hfs] at hf
  rcases List.mem_append.1 hf with hf | hf
  · exact h.queue f hf
  · exact (hputs f hf).heir hI hd

theorem Workspace.Stems.of_eq (h : w.Stems s D P) (hpool : w'.pool = w.pool)
    (hqueue : w'.queue = w.queue) : w'.Stems s D P :=
  ⟨hpool ▸ h.pool, by unfold PoolBuilt; rw [hpool]; exact h.built, hqueue ▸ h.queue⟩

theorem Pass.Stems.added (h : p.Stems s D P) (hp : p.Built) (hw : current.WellBuilt)
    (hcurrent : current.Each P (s.Stems D)) {v : Workspace} {x : Graph × Pass}
    (hadded : ChildAdded s parent current c d p w e x v) (he : s.StemsBeyond D P e) :
    x.2.Stems s D P ∧ x.1.Each P (s.Stems D) := by
  rcases hadded.choice with rfl | ⟨tag, order, tag', rfl⟩
  · exact ⟨h.closed hp hw he, hcurrent⟩
  · exact ⟨h.replaced hp hw hcurrent (hadded.raw _ (.self _)).wellBuilt he tag order tag',
      stems_withChild hcurrent he tag⟩

theorem stems_of_expandChildren (hI : s.Inherits D P) (parent : Graph) (c : Context)
    {ds : List Desire} {o : Attempt (List Resolved × Pass)} (hw : w.Stems s D P)
    (hds : ∀ d ∈ ds, D d) (h : (s.expandChildren parent c ds current p).Runs w o w') :
    w'.Stems s D P ∧ ∀ children p', o = .ok (children, p') →
      p.Built → current.WellBuilt → p.Stems s D P → current.Each P (s.Stems D) →
      p'.Stems s D P ∧ ∀ e ∈ children, s.StemsBeyond D P e := by
  induction ds generalizing current p w w' o with
  | nil =>
    obtain ⟨rfl, rfl⟩ := runs_pure.1 h
    refine ⟨hw, fun children p' ho _ _ hp _ => ?_⟩
    cases ho
    exact ⟨hp, List.forall_mem_nil _⟩
  | cons d ds ih =>
    obtain ⟨hd, hds⟩ := List.forall_mem_cons.1 hds
    rw [expandChildren] at h
    rcases runs_bind.1 h with ⟨⟨dep, tree⟩, v, hresolve, h⟩ | ⟨_, rfl, hresolve⟩
    · have hresolve := resolves_of_runs hresolve
      have htree := hresolve.stems hI hd
      rcases runs_bind.1 h with ⟨child, v1, hmerge, h⟩ | ⟨_, _, hmerge⟩
      · obtain ⟨hv1, _, hnode, hchild, hlabel⟩ :=
          (hw.resolves hI hd hresolve).merge htree.tail (tree_wellBuilt hresolve) hmerge
        cases hnode
        have he : s.StemsBeyond D P (dep, child) :=
          ⟨respectsEnds_stems s D htree.edge hlabel, hchild⟩
        rcases runs_bind.1 h with ⟨x, v2, hadd, h⟩ | ⟨_, rfl, hadd⟩
        · obtain ⟨hpool, hqueue, -⟩ := runs_addChild hadd
          have hadded := childAdded_of_steps hw.built hresolve hmerge hadd
          have hv2 := hv1.of_eq hpool hqueue
          rcases runs_bind.1 h with ⟨⟨rest, p2⟩, v3, hrest, hpure⟩ | ⟨_, rfl, hrest⟩
          · obtain ⟨rfl, rfl⟩ := runs_pure.1 hpure
            obtain ⟨hend, hrest⟩ := ih hv2 hds hrest
            refine ⟨hend, fun children p' ho hb hcurrent hp heach => ?_⟩
            cases ho
            obtain ⟨hbx, hcurrent'⟩ := hadded.built hb hcurrent
            obtain ⟨hx, heach'⟩ := hp.added hb hcurrent heach hadded he
            obtain ⟨hp', hchildren⟩ := hrest _ _ rfl hbx hcurrent' hx heach'
            exact ⟨hp', List.forall_mem_cons.2 ⟨he, hchildren⟩⟩
          · exact ⟨(ih hv2 hds hrest).1, fun _ _ ho => by cases ho⟩
        · obtain ⟨hpool, hqueue, -⟩ := runs_addChild hadd
          exact ⟨hv1.of_eq hpool hqueue, fun _ _ ho => by cases ho⟩
      · cases (runs_merge.1 hmerge).1
    · exact ⟨hw.resolves hI hd (resolves_of_runs hresolve), fun _ _ ho => by cases ho⟩

theorem stems_of_processDeferral (hI : s.Inherits D P) (hw : w.Stems s D P)
    (hf : s.Heir D P f) {o : Attempt Pass} (h : (s.processDeferral p f).Runs w o w') :
    w'.Stems s D P ∧ ∀ p', o = .ok p' → p.Built → Bare f.node.label f.node → p.Stems s D P →
      p'.Stems s D P := by
  refine ⟨?_, fun p' ho hb hbare hp => ?_⟩
  · unfold processDeferral at h
    dsimp only at h
    split at h
    · exact (runs_pure.1 h).2 ▸ hw
    · split at h
      · exact (runs_pure.1 h).2 ▸ hw
      · rcases runs_bind.1 h with ⟨_, v, h, hpure⟩ | ⟨_, _, h⟩
        · exact (runs_pure.1 hpure).2 ▸ (stems_of_expandChildren hI _ _ hw hf.needs h).1
        · exact (stems_of_expandChildren hI _ _ hw hf.needs h).1
  · subst ho
    cases runs_processDeferral.1 h with
    | skipped _ => exact hp
    | repeated _ hchildren => exact hp.repeated hb hbare.wellBuilt hchildren
    | @expanded children p1 _ _ _ hexpand =>
      have hnode : f.node.Each P (s.Stems D) :=
        Dag.each_iff.2 ⟨hf.label, fun e he => by simp [hbare.edges] at he⟩
      obtain ⟨⟨hroot, hback, hfound⟩, hchildren⟩ :=
        (stems_of_expandChildren hI _ _ hw hf.needs hexpand).2 _ _ rfl hb hbare.wellBuilt hp hnode
      refine ⟨hroot, hback, fun x hx => ?_⟩
      rcases List.mem_append.1 hx with hx | hx
      · exact hfound x hx
      · exact List.mem_singleton.1 hx ▸ hchildren

theorem Settings.Drains.stems (hI : s.Inherits D P) {o : Attempt Pass} (h : Drains s p w o w')
    (hw : w.Stems s D P) (hbare : ∀ f ∈ w.queue, Bare f.node.label f.node) (hb : p.Built)
    (hp : p.Stems s D P) : w'.Stems s D P ∧ ∀ p', o = .ok p' → p'.Built ∧ p'.Stems s D P := by
  induction h with
  | done _ => exact ⟨hw, fun p' ho => by cases ho; exact ⟨hb, hp⟩⟩
  | @failed p w w' f rest e hq hrun =>
    have hw' : Workspace.Stems s D P { w with queue := rest } :=
      ⟨hw.pool, hw.built, fun g hg => hw.queue g (hq ▸ List.mem_cons_of_mem _ hg)⟩
    have hf := hw.queue f (hq ▸ List.mem_cons_self)
    exact ⟨(stems_of_processDeferral hI hw' hf hrun).1, nofun⟩
  | @next p p1 w v w' f rest o hq hrun _ ih =>
    have hw' : Workspace.Stems s D P { w with queue := rest } :=
      ⟨hw.pool, hw.built, fun g hg => hw.queue g (hq ▸ List.mem_cons_of_mem _ hg)⟩
    have hf := hw.queue f (hq ▸ List.mem_cons_self)
    have hfbare := hbare f (hq ▸ List.mem_cons_self)
    obtain ⟨hv, hstems⟩ := stems_of_processDeferral hI hw' hf hrun
    exact ih hv (bare_of_processDeferral hbare hq hrun)
      (hb.processDeferral hw'.built hfbare.wellBuilt hrun) (hstems p1 rfl hb hfbare hp)

/-! ## Calls -/

namespace Solver

variable {v : Solver} {roots : List Desire} {tag : Nat} {o : Attempt Pass}

structure Built (v : Solver) : Prop where
  pool : ∀ n ∈ v.pool.nodes, n.WellBuilt
  graph : v.graph.WellBuilt
  heads : v.backEdges.AllHeads Dag.WellBuilt

theorem Sound.built (h : v.Sound) : v.Built := ⟨h.pool, h.wellBuilt, h.heads⟩

structure Stems (D : Desire → Prop) (P : Component → Prop) (v : Solver) : Prop where
  graph : v.graph.Each P (v.settings.Stems D)
  back : v.backEdges.AllEdges fun _ e => v.settings.StemsBeyond D P (e.label, e.tail)
  pool : v.pool.Each P (v.settings.Stems D)

theorem Calls.stems (hI : v.settings.Inherits D P) (hv : v.Built) (h : v.Stems D P) (hd : D d)
    (hcalls : v.Calls d (v.workspace tag) o w') :
    w'.Stems v.settings D P ∧ ∀ p, o = .ok p → p.Stems v.settings D P := by
  have hw : Workspace.Stems v.settings D P (v.workspace tag) :=
    ⟨h.pool, hv.pool, List.forall_mem_nil _⟩
  cases hcalls with
  | unresolved htree => exact ⟨hw.resolves hI hd htree, nofun⟩
  | @drained edge node root o w1 w2 w3 w' htree hmerge hbuild hdrains =>
    have hedge := htree.stems hI hd
    obtain ⟨hw2, _, hnode, hchild, hlabel⟩ :=
      (hw.resolves hI hd htree).merge hedge.tail (tree_wellBuilt htree) hmerge
    obtain ⟨_, hnode', -, hraw, -, hqueue2⟩ := raw_of_merge (htree.queues.pool hv.pool)
      ((htree.tree_grown rfl).raw edge List.mem_cons_self) hmerge
    cases hnode
    cases hnode'
    obtain ⟨hroot, rfl⟩ := runs_build.1 hbuild
    cases hroot
    have hbare : ∀ f ∈ w2.queue, Bare f.node.label f.node :=
      fun f hf => (deeper_of_resolves rfl htree f (hqueue2 ▸ hf)).bare
    have hbuilt : Pass.Built
        { root := withChild v.graph edge.1 node w2.nextTag, backEdges := v.backEdges } :=
      ⟨withChild_wellBuilt hv.graph edge.1 (hraw node (.self _)).wellBuilt _, hv.heads⟩
    have he : v.settings.StemsBeyond D P (edge.1, node) :=
      ⟨respectsEnds_stems _ D hedge.edge hlabel, hchild⟩
    obtain ⟨hw', hpass⟩ := hdrains.stems hI (hw2.of_eq rfl rfl) hbare hbuilt
      ⟨stems_withChild h.graph he _, h.back, List.forall_mem_nil _⟩
    exact ⟨hw', fun p ho => (hpass p ho).2⟩

theorem stems_ofSettings (hI : s.Inherits D P) (orders : Nat → BackEdges.Order) (tag : Nat) :
    ((ofSettings s orders).run tag).1.Stems D P :=
  ⟨Dag.each_iff.2 ⟨hI.root, nofun⟩, nofun, nofun⟩

theorem Stems.resolve (h : v.Stems D P) (hI : v.settings.Inherits D P) (hv : v.Built) (hd : D d)
    (tag : Nat) : ((v.resolve d).run tag).1.solver.Stems D P := by
  obtain ⟨o, w', hcalls, -, hsolver⟩ := v.exists_calls d tag
  obtain ⟨hw', hpass⟩ := hcalls.stems hI hv h hd
  rw [hsolver]
  cases o with
  | error e => exact ⟨h.graph, h.back, hw'.pool⟩
  | ok p => exact ⟨(hpass p rfl).root, (hpass p rfl).back, hw'.pool⟩

theorem After.stems (hI : s.Inherits D P) (h : After s roots v) (hroots : ∀ d ∈ roots, D d) :
    v.Stems D P := by
  induction h with
  | fresh orders tag => exact stems_ofSettings hI orders tag
  | @resolve roots v d tag h ih =>
    obtain ⟨hd, hroots⟩ := List.forall_mem_cons.1 hroots
    obtain ⟨hsound, rfl⟩ := h.reachable.sound
    exact (ih hroots).resolve hI hsound.built hd tag

def edgesFrom (v : Solver) (x : Graph) : List Resolved :=
  x.edges ++ (v.backEdges.edgesOf x).map fun e => (e.label, e.tail)

section Edges

variable {R : Dependency → Component → Prop}

theorem linked_each {b : BackEdges} (hg : g.Each P R)
    (hb : b.AllEdges fun _ e => EachBeyond P R (e.label, e.tail)) (hx : Linked b g x) :
    x.Each P R := by
  induction hx with
  | root => exact hg
  | edge _ he ih => exact (ih.edge he).tail
  | back _ he _ =>
    obtain ⟨_, _, hbeyond⟩ := hb.edgesOf he
    exact hbeyond.tail

theorem eachBeyond_edgesFrom (hg : g.Each P R)
    (hb : v.backEdges.AllEdges fun _ e => EachBeyond P R (e.label, e.tail))
    (hx : Linked v.backEdges g x) (he : e ∈ v.edgesFrom x) : EachBeyond P R e := by
  rcases List.mem_append.1 he with he | he
  · exact (linked_each hg hb hx).edge he
  · obtain ⟨b, hmem, rfl⟩ := List.mem_map.1 he
    obtain ⟨_, _, hbeyond⟩ := hb.edgesOf hmem
    exact hbeyond

end Edges

theorem Stems.edgesFrom (h : v.Stems D P) (hx : Linked v.backEdges v.graph x)
    (he : e ∈ v.edgesFrom x) : v.settings.StemsBeyond D P e :=
  eachBeyond_edgesFrom h.graph h.back hx he

theorem After.takes (h : After s roots v) (hx : Linked v.backEdges v.graph x)
    (he : e ∈ v.edgesFrom x) : ∃ d k r, s.Takes d k r ∧ (r.dependency == e.1) = true ∧
      (r.component s.catalog s.defaultPolicy == e.2.label) = true := by
  have hI : s.Inherits (fun _ => True) fun _ => True :=
    ⟨trivial, fun _ _ _ _ _ => trivial, fun _ _ _ _ _ _ _ => trivial⟩
  obtain ⟨⟨d, k, r, -, htakes, hdep, hl⟩, -⟩ := (h.stems hI fun _ _ => trivial).edgesFrom hx he
  rw [h.reachable.sound.2] at htakes hl
  exact ⟨d, k, r, htakes, hdep, hl⟩

end Solver

end Wiring
