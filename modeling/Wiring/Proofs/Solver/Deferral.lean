import Wiring.Proofs.Solver.Pass

/-!
# What looking at a deferral keeps

A deferral is skipped, gets the children found for an equal node before, or is expanded. Either way
no node loses what it has, and the node of the deferral is done with.
-/

namespace Wiring

open Work Settings Catalog

variable {c : Catalog} {s : Settings} {q : List Deferral} {p p' : Pass} {f : Deferral}
  {current parent child y : Graph} {dep : Dependency} {d : Desire} {ds rest : List Desire}
  {context : Context} {w w' : Workspace} {children : List Resolved}

abbrev Pass.Idle (c : Catalog) (q : List Deferral) (p : Pass) : Prop :=
  p.Sound c (fun _ => False) q

def PoolBuilt (w : Workspace) : Prop := ∀ n ∈ w.pool.nodes, n.WellBuilt

/-! ## Expanding a node -/

theorem Catalog.Raw.mono {P Q : Graph → Prop} (h : c.Raw P y) (hPQ : P y → Q y) : c.Raw Q y :=
  ⟨h.wellBuilt, h.declared, h.complete.imp_right fun ⟨hedges, hy⟩ => ⟨hedges, hPQ hy⟩⟩

theorem raw_of_merge {tree : Graph} {o : Attempt Graph} (hpool : PoolBuilt w)
    (htree : ∀ y, tree.Has y → c.Raw (Waits q) y) (h : (merge tree).Runs w o w') :
    ∃ child, o = .ok child ∧ (tree == child) = true ∧ (∀ y, child.Has y → c.Raw (Waits q) y) ∧
      PoolBuilt w' ∧ w'.queue = w.queue := by
  obtain ⟨rfl, rfl⟩ := runs_merge.1 h
  have htw := (htree tree (.self _)).wellBuilt
  obtain ⟨hbeq, hwell, hpool'⟩ := Dag.Pool.merge_spec hpool htw w.nextTag
  refine ⟨_, rfl, Dag.beq_symm hwell hbeq, fun y hy => ?_, hpool', rfl⟩
  obtain ⟨z, hz, hyz⟩ := hy.congr hbeq
  have hzy := Dag.beq_symm (hy.wellBuilt hwell) hyz
  exact (htree z hz).of_beq (hy.wellBuilt hwell) hzy
    fun ⟨f, hf, hfz⟩ => ⟨f, hf, Dag.beq_trans hfz hzy⟩

structure ChildAdded (s : Settings) (parent current : Graph) (context : Context) (d : Desire)
    (p : Pass) (w : Workspace) (edge : Resolved) (x : Graph × Pass) (v : Workspace) : Prop where
  resolves : ∃ tree w', Resolves s d context w (.ok (edge.1, tree)) w' ∧ (tree == edge.2) = true
  initial : edge.1.initial = d
  raw : ∀ y, edge.2.Has y → s.catalog.Raw (Waits v.queue) y
  pool : PoolBuilt v
  queue : ∀ f ∈ w.queue, f ∈ v.queue
  leads : edge.2.reaches parent = true ∧ x = (current, closed p current edge.1 edge.2) ∨
    edge.2.reaches parent = false ∧ ∃ tag order tag', x = (withChild current edge.1 edge.2 tag,
      replaced p current (withChild current edge.1 edge.2 tag) order tag')

theorem ChildAdded.choice {edge : Resolved} {x : Graph × Pass} {v : Workspace}
    (h : ChildAdded s parent current context d p w edge x v) :
    x = (current, closed p current edge.1 edge.2) ∨
      ∃ tag order tag', x = (withChild current edge.1 edge.2 tag,
        replaced p current (withChild current edge.1 edge.2 tag) order tag') :=
  h.leads.imp And.right And.right

theorem childAdded_of_steps {tree : Graph} {x : Graph × Pass} {v v1 v2 : Workspace}
    (hpool : PoolBuilt w) (hd : Resolves s d context w (.ok (dep, tree)) v)
    (hmerge : (merge tree).Runs v (.ok child) v1)
    (hadd : (addChild parent current dep child p).Runs v1 (.ok x) v2) :
    ChildAdded s parent current context d p w (dep, child) x v2 := by
  have hgrown := hd.tree_grown rfl
  have hdep : dep.initial = d := by
    cases hgrown.initial with
    | cons h _ => exact h
  obtain ⟨_, ho, hbeq, hchild, hpool1, hq1⟩ := raw_of_merge (hd.queues.pool hpool)
    (hgrown.raw (dep, tree) (by simp)) hmerge
  cases ho
  obtain ⟨hpool2, hq2, hchoice⟩ := runs_addChild hadd
  have hqueue : v2.queue = v.queue := hq2.trans hq1
  refine ⟨⟨tree, v, hd, hbeq⟩, hdep, ?_, ?_, ?_, ?_⟩
  · rw [hqueue]
    exact hchild
  · unfold PoolBuilt
    rwa [hpool2]
  · rw [hqueue]
    exact fun f => hd.queues.subset
  · rcases hchoice with ⟨hreach, he⟩ | ⟨hreach, tag, order, tag', he⟩
    · exact .inl ⟨hreach, Except.ok.inj he⟩
    · exact .inr ⟨hreach, tag, order, tag', Except.ok.inj he⟩

theorem childAdded_of_runs (hpool : PoolBuilt w)
    (h : (s.expandChildren parent context (d :: ds) current p).Runs w (.ok (children, p')) w') :
    ∃ edge x v rest, ChildAdded s parent current context d p w edge x v ∧
      (s.expandChildren parent context ds x.1 x.2).Runs v (.ok (rest, p')) w' ∧
      children = edge :: rest := by
  rw [expandChildren] at h
  simp only [runs_bind_ok] at h
  obtain ⟨⟨dep, tree⟩, v, hd, child, v1, hmerge, x, v2, hadd, ⟨rest, p2⟩, v3, hrest, hpure⟩ := h
  obtain ⟨he, rfl⟩ := runs_pure.1 hpure
  cases he
  exact ⟨(dep, child), x, v2, rest,
    childAdded_of_steps hpool (resolves_of_runs hd) hmerge hadd, hrest, rfl⟩

structure Pass.Built (p : Pass) : Prop where
  root : p.root.WellBuilt
  heads : p.backEdges.AllHeads Dag.WellBuilt

theorem ChildAdded.built {edge : Resolved} {x : Graph × Pass} {v : Workspace}
    (h : ChildAdded s parent current context d p w edge x v) (hp : p.Built)
    (hcurrent : current.WellBuilt) : x.2.Built ∧ x.1.WellBuilt := by
  rcases h.choice with rfl | ⟨tag, order, tag', rfl⟩
  · exact ⟨⟨hp.root, hp.heads.append hcurrent⟩, hcurrent⟩
  · have hnew : (withChild current edge.1 edge.2 tag).WellBuilt :=
      withChild_wellBuilt hcurrent edge.1 (h.raw edge.2 (.self _)).wellBuilt tag
    have hr : Dag.NodeReplaced current (withChild current edge.1 edge.2 tag) p.root .empty _ :=
      replaced_node hp.root hnew order tag'
    have hheads : (p.backEdges.rekey order _).AllHeads Dag.WellBuilt :=
      BackEdges.AllHeads.rekey fun entry hentry => hr.imageOf_wellBuilt (hp.heads entry hentry)
    exact ⟨⟨hr.wellBuilt, hheads⟩, hnew⟩

theorem ChildAdded.growing {edge : Resolved} {x : Graph × Pass} {v : Workspace}
    (h : ChildAdded s parent current context d p w edge x v)
    (hg : Growing s.catalog w.queue p current (d :: ds)) (hd : d ∈ s.catalog.needs current) :
    Growing s.catalog v.queue x.2 x.1 ds ∧ x.1.label = current.label ∧
      x.2.expanded = p.expanded := by
  have hg := hg.mono h.queue
  rcases h.choice with rfl | ⟨tag, order, tag', rfl⟩
  · exact ⟨hg.closed hd h.initial fun y hy => (h.raw y hy).mono fun _ => trivial, rfl, rfl⟩
  · exact ⟨hg.replaced hd h.initial h.raw tag order tag', withChild_label .., rfl⟩

theorem gathers_of_expandChildren
    {I : List Deferral → Pass → Graph → List Resolved → List Desire → Prop}
    {parent : Graph} {context : Context}
    (hstep : ∀ {d ds current p done edge x w v},
      ChildAdded s parent current context d p w edge x v → I w.queue p current done (d :: ds) →
      I v.queue x.2 x.1 (done ++ [edge]) ds) :
    ∀ (ds : List Desire) (done : List Resolved) {current : Graph} {p : Pass}
      {children : List Resolved} {w : Workspace}, PoolBuilt w →
    (s.expandChildren parent context ds current p).Runs w (.ok (children, p')) w' →
    I w.queue p current done ds →
    (∃ current', I w'.queue p' current' (done ++ children) []) ∧
      List.Forall₂ (fun d e => e.1.initial = d ∧ RawTree s.catalog e.2) ds children
  | [], _, current, _, _, _, _, h, hI => by
    obtain ⟨he, rfl⟩ := runs_pure.1 h
    cases he
    exact ⟨⟨current, by simpa using hI⟩, .nil⟩
  | d :: ds, _, _, _, _, _, hpool, h, hI => by
    obtain ⟨edge, x, v, rest, hadded, hrest, rfl⟩ := childAdded_of_runs hpool h
    obtain ⟨⟨current', hend⟩, hchildren⟩ :=
      gathers_of_expandChildren hstep ds _ hadded.pool hrest (hstep hadded hI)
    have hraw : RawTree s.catalog edge.2 := fun y hy => (hadded.raw y hy).mono fun _ => trivial
    exact ⟨⟨current', by simpa using hend⟩, .cons ⟨hadded.initial, hraw⟩ hchildren⟩

theorem keeps_of_expandChildren {I : List Deferral → Pass → Graph → List Desire → Prop}
    {parent : Graph} {context : Context}
    (hstep : ∀ {d ds current p edge x w v}, ChildAdded s parent current context d p w edge x v →
      I w.queue p current (d :: ds) → I v.queue x.2 x.1 ds) (ds : List Desire) {current : Graph}
    {p : Pass} {children : List Resolved} {w : Workspace} (hpool : PoolBuilt w)
    (h : (s.expandChildren parent context ds current p).Runs w (.ok (children, p')) w')
    (hI : I w.queue p current ds) :
    (∃ current', I w'.queue p' current' []) ∧
      List.Forall₂ (fun d e => e.1.initial = d ∧ RawTree s.catalog e.2) ds children :=
  gathers_of_expandChildren (I := fun q p current _ ds => I q p current ds) hstep ds [] hpool h hI

theorem foundChildren {node : Graph}
    (h : List.Forall₂ (fun d e => e.1.initial = d ∧ RawTree c e.2) (c.needs node) children) :
    FoundChildren c node children where
  declared e he := by
    obtain ⟨d, hd, hed, -⟩ := Dag.exists_of_forall₂ h.flip e he
    exact ⟨d, hd, hed ▸ BEq.rfl⟩
  complete d hd := by
    obtain ⟨e, he, hed, -⟩ := Dag.exists_of_forall₂ h d hd
    exact ⟨e, he, hed ▸ BEq.rfl⟩
  tree e he := by
    obtain ⟨d, -, -, htree⟩ := Dag.exists_of_forall₂ h.flip e he
    exact htree

/-! ## One deferral -/

theorem Pass.Sound.bare_not_root {busy : Graph → Prop} (h : p.Sound c busy q) (hy : y.edges = []) :
    (y == p.root) = false := by
  rw [Bool.eq_false_iff]
  intro hroot
  exact h.rooted ((Dag.edges_eq_nil_iff hroot).1 hy)

theorem Pass.Sound.start (h : p.Idle c (f :: q)) (hbare : Bare f.node.label f.node)
    (hreach : p.root.reaches f.node = true) : Growing c q p f.node (c.needs f.node) := by
  have hne : (f.node == p.root) = false := h.bare_not_root hbare.edges
  have hfilling := h.tending.start hbare.wellBuilt hreach
  refine ⟨⟨⟨h.wellBuilt, h.needs, fun y hy hyr => ?_, fun e he => ?_, h.edge⟩, h.rooted,
    h.children⟩, hbare.wellBuilt, Dag.under_of_reaches hreach hne, ?_, hfilling.done⟩
  · exact ⟨(h.node y hy hyr).1, hfilling.node trivial y hy⟩
  · obtain ⟨hw, hunder, hcovered⟩ := h.head e he
    exact ⟨hw, hunder, .inl (hcovered.resolve_right id)⟩
  · intro e he
    simp [hbare.edges] at he

theorem Growing.finish (h : Growing c q p current []) : p.Idle c q := by
  have htending := h.filling.finish
  refine ⟨⟨h.sound.wellBuilt, h.sound.needs, fun y hy hyr => ?_, fun e he => ?_, h.sound.edge⟩,
    h.sound.rooted, h.sound.children⟩
  · exact ⟨(h.sound.node y hy hyr).1, htending.node trivial y hy⟩
  · obtain ⟨hw, hunder, -⟩ := h.sound.head e he
    exact ⟨hw, hunder, (htending.head e he).2⟩

theorem Pass.Sound.drop (h : p.Idle c (f :: q))
    (hskip : (p.backEdges.contains f.node || !p.root.reaches f.node) = true) : p.Idle c q := by
  refine ⟨⟨h.wellBuilt, h.needs, fun y hy hyr => ?_, h.head, h.edge⟩, h.rooted, h.children⟩
  exact ⟨(h.node y hy hyr).1, (h.tending.drop hskip).node trivial y hy⟩

theorem Pass.exists_of_children? {node : Graph} (h : p.children? node = some children) :
    ∃ x ∈ p.expanded, (x.1 == node) = true ∧ x.2 = children := by
  unfold children? at h
  obtain ⟨x, hx, rfl⟩ := Option.map_eq_some_iff.1 h
  exact ⟨x, List.mem_of_find?_eq_some hx, by simpa using List.find?_some hx, rfl⟩

theorem FoundChildren.of_beq {node x : Graph} (h : FoundChildren c x children)
    (hx : (x == node) = true) : FoundChildren c node children where
  declared e he := by
    obtain ⟨d, hd, hed⟩ := h.declared e he
    obtain ⟨d', hd', hdd⟩ := needs_of_beq hx hd
    exact ⟨d', hd', BEq.trans hed hdd⟩
  complete d hd := by
    obtain ⟨d', hd', hdd⟩ := needs_of_label (BEq.symm (Dag.label_beq hx)) hd
    obtain ⟨e, he, hed⟩ := h.complete d' hd'
    exact ⟨e, he, BEq.trans hed (BEq.symm hdd)⟩
  tree := h.tree

theorem Pass.Sound.again (h : p.Idle c (f :: q)) (hbare : Bare f.node.label f.node)
    (hreach : p.root.reaches f.node = true) (hchildren : p.children? f.node = some children) :
    (repeated p f.node children).Idle c q := by
  have hg := h.start hbare hreach
  have hfw := hbare.wellBuilt
  have hheads := h.heads
  obtain ⟨x, hx, hxf, rfl⟩ := p.exists_of_children? hchildren
  have hfound := (h.children x hx).of_beq hxf
  have htending := h.tending.again hfw hfound.complete
  have hback : (repeated p f.node x.2).backEdges.AllHeads (p.root.Under ·) :=
    BackEdges.AllHeads.set (fun e he => (h.head e he).2.1) hg.reached
  refine ⟨⟨h.wellBuilt, h.needs, fun y hy hyr => ?_, fun e he => ?_, ?_⟩, h.rooted, h.children⟩
  · exact ⟨(h.node y hy hyr).1, htending.node trivial y hy⟩
  · obtain ⟨hw, hcovered⟩ := htending.head e he
    exact ⟨hw, hback e he, hcovered⟩
  · refine h.edge.set hheads hfw fun k hkw hk e he => ?_
    obtain ⟨edge, hedge, rfl⟩ := List.mem_map.1 he
    have hfk := Dag.beq_symm hkw hk
    have htree := hfound.tree edge hedge
    exact ⟨hfk, (hfound.of_beq hfk).declared edge hedge, (htree edge.2 (.self _)).wellBuilt,
      .inr htree⟩

theorem Pass.Sound.processDeferral (h : p.Idle s.catalog (f :: w.queue)) (hpool : PoolBuilt w)
    (hbare : Bare f.node.label f.node) (hrun : (s.processDeferral p f).Runs w (.ok p') w') :
    p'.Idle s.catalog w'.queue := by
  cases runs_processDeferral.1 hrun with
  | skipped hskip => exact h.drop hskip
  | repeated hskip hchildren => exact h.again hbare (reaches_of_skip hskip) hchildren
  | @expanded children p1 _ hskip _ hexpand =>
    have hstep : ∀ {d ds current p2 edge x w v},
        ChildAdded s f.node current f.context d p2 w edge x v →
        (Growing s.catalog w.queue p2 current (d :: ds) ∧ p2.expanded = p.expanded ∧
          ∀ d' ∈ d :: ds, d' ∈ s.catalog.needs current) →
        Growing s.catalog v.queue x.2 x.1 ds ∧ x.2.expanded = p.expanded ∧
          ∀ d' ∈ ds, d' ∈ s.catalog.needs x.1 := by
      intro d ds current p2 edge x w v hadded ⟨hg, hexpanded, hds⟩
      obtain ⟨hgx, hlabel, hexpandedx⟩ := hadded.growing hg (hds d List.mem_cons_self)
      exact ⟨hgx, hexpandedx.trans hexpanded,
        fun d' hd' => needs_congr hlabel ▸ hds d' (List.mem_cons_of_mem _ hd')⟩
    obtain ⟨⟨current, hgrowing, hexpanded, -⟩, hchildren⟩ :=
      keeps_of_expandChildren (I := fun q p' current ds => Growing s.catalog q p' current ds ∧
        p'.expanded = p.expanded ∧ ∀ d ∈ ds, d ∈ s.catalog.needs current) hstep _ hpool hexpand
        ⟨h.start hbare (reaches_of_skip hskip), rfl, fun _ hd => hd⟩
    have hidle := hgrowing.finish
    refine ⟨hidle.toWired, hidle.rooted, fun e he => ?_⟩
    rcases List.mem_append.1 he with he | he
    · exact hidle.children e he
    · cases List.mem_singleton.1 he
      exact foundChildren hchildren

theorem Pass.Built.processDeferral (h : p.Built) (hpool : PoolBuilt w) (hf : f.node.WellBuilt)
    (hrun : (s.processDeferral p f).Runs w (.ok p') w') : p'.Built := by
  cases runs_processDeferral.1 hrun with
  | skipped _ => exact h
  | repeated _ _ => exact ⟨h.root, h.heads.set hf⟩
  | expanded _ _ hexpand =>
    obtain ⟨⟨_, hp', -⟩, -⟩ := keeps_of_expandChildren
      (I := fun _ p current _ => p.Built ∧ current.WellBuilt)
      (fun hadded h => hadded.built h.1 h.2) _ hpool hexpand ⟨h, hf⟩
    exact ⟨hp'.root, hp'.heads⟩

/-! ## The whole queue -/

theorem Settings.Drains.pool {o : Attempt Pass} (h : Drains s p w o w') (hpool : PoolBuilt w) :
    PoolBuilt w' := by
  induction h with
  | done _ => exact hpool
  | failed _ hrun => exact (queues_processDeferral hrun).pool hpool
  | next _ hrun _ ih => exact ih ((queues_processDeferral hrun).pool hpool)

theorem bare_of_processDeferral {o : Attempt Pass} {rest : List Deferral}
    (hbare : ∀ g ∈ w.queue, Bare g.node.label g.node) (hq : w.queue = f :: rest)
    (hrun : (s.processDeferral p f).Runs { w with queue := rest } o w') :
    ∀ g ∈ w'.queue, Bare g.node.label g.node := by
  obtain ⟨-, fs, hfs, hdeeper⟩ := queues_processDeferral hrun
  intro g hg
  rw [hfs] at hg
  rcases List.mem_append.1 hg with hg | hg
  · exact hbare g (hq ▸ List.mem_cons_of_mem _ hg)
  · exact (hdeeper g hg).bare

theorem Settings.Drains.keeps {I : List Deferral → Pass → Prop}
    (hstep : ∀ {p p' f w w'}, PoolBuilt w → Bare f.node.label f.node → I (f :: w.queue) p →
      (s.processDeferral p f).Runs w (.ok p') w' → I w'.queue p')
    {o : Attempt Pass} (h : Drains s p w o w') (hpool : PoolBuilt w)
    (hbare : ∀ f ∈ w.queue, Bare f.node.label f.node) (hI : I w.queue p) (ho : o = .ok p') :
    I [] p' := by
  induction h with
  | done hempty =>
    cases ho
    exact hempty ▸ hI
  | failed _ _ => cases ho
  | @next p p1 w v w' f rest o hq hrun _ ih =>
    have hnext := bare_of_processDeferral hbare hq hrun
    rw [hq] at hbare hI
    have hI1 := hstep (w := { w with queue := rest }) hpool (hbare f List.mem_cons_self) hI hrun
    exact ih ((queues_processDeferral hrun).pool hpool) hnext hI1 ho

/-- A pass that can go on: the pool is well built, what waits is bare, and no node is being
expanded. -/
structure Pass.Ready (s : Settings) (w : Workspace) (p : Pass) : Prop where
  pool : PoolBuilt w
  bare : ∀ f ∈ w.queue, Bare f.node.label f.node
  idle : p.Idle s.catalog w.queue

theorem Pass.Ready.next {rest : List Deferral} (h : p.Ready s w) (hq : w.queue = f :: rest)
    (hrun : (s.processDeferral p f).Runs { w with queue := rest } (.ok p') w') : p'.Ready s w' := by
  obtain ⟨hpool, hbare, hidle⟩ := h
  have hnext := bare_of_processDeferral hbare hq hrun
  rw [hq] at hbare hidle
  exact ⟨(queues_processDeferral hrun).pool hpool, hnext,
    Pass.Sound.processDeferral (w := { w with queue := rest }) hidle hpool
      (hbare f List.mem_cons_self) hrun⟩

theorem Settings.Drains.sound {o : Attempt Pass} (h : Drains s p w o w') (hp : p.Ready s w)
    (ho : o = .ok p') : p'.Idle s.catalog [] :=
  h.keeps (fun hpool hbare hidle hrun => hidle.processDeferral hpool hbare hrun) hp.pool hp.bare
    hp.idle ho

end Wiring
