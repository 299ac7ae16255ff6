import Wiring.Proofs.Solver.Beside
import Wiring.Proofs.Solver.Steps

/-!
# Passes that go side by side

A pass that succeeds is followed step by step by one that has further edges and back-edges beside
it: that one succeeds too and adds the same to what it has.
-/

namespace Wiring

open Work Settings Catalog BackEdges

variable {s : Settings} {c : Catalog} {K : Components} {edges : List Resolved}
  {entries : List (Graph × List GraphEdge)} {p q p' : Pass} {ds : List Desire} {d : Desire}
  {current current' child child' parent parent' x y : Graph} {dep dep' : Dependency}
  {context : Context} {w v w' v' : Workspace} {f f' : Deferral} {roots : List Desire}

/-! ## Children -/

theorem Dag.Includes.withChild (h : Dag.Includes edges x y) (hdep : (dep == dep') = true)
    (hchild : Dag.SameNode child child') (tag tag' : Nat) :
    Dag.Includes edges (withChild x dep child tag) (withChild y dep' child' tag') := by
  have hleft := withChild_wellBuilt h.left dep hchild.left tag
  have hright := withChild_wellBuilt h.right dep' hchild.right tag'
  refine ⟨?_, hleft, hright, fun e he => ?_, fun f hf => ?_⟩
  · rw [withChild_label, withChild_label]
    exact h.label
  · have hold : ∀ e ∈ x.edges ++ edges,
        ∃ f ∈ (Settings.withChild y dep' child' tag').edges, Dag.SameEdge e f := by
      intro e he
      obtain ⟨f, hf, hef⟩ := h.edge e he
      exact ⟨f, subset_withChild hf, hef⟩
    rcases List.mem_append.1 he with he | he
    · rcases mem_withChild he with he | rfl
      · exact hold e (List.mem_append_left _ he)
      · obtain ⟨f, hf, hfd, hfc⟩ := exists_withChild y dep' child' tag'
        have htail : Dag.SameNode f.2 child' := ⟨hfc, hright.tail hf, hchild.right⟩
        exact ⟨f, hf, .of_tail (BEq.trans hdep (BEq.symm hfd)) (hchild.trans htail.symm)⟩
    · exact hold e (List.mem_append_right _ he)
  · rcases mem_withChild hf with hf | rfl
    · obtain ⟨e, he, hef⟩ := h.origin f hf
      refine ⟨e, ?_, hef⟩
      rcases List.mem_append.1 he with he | he
      · exact List.mem_append_left _ (subset_withChild he)
      · exact List.mem_append_right _ he
    · obtain ⟨e, he, hed, hec⟩ := exists_withChild x dep child tag
      have htail : Dag.SameNode e.2 child := ⟨hec, hleft.tail he, hchild.left⟩
      exact ⟨e, List.mem_append_left _ he, .of_tail (BEq.trans hed hdep) (htail.trans hchild)⟩

theorem Dag.SameNode.includes (h : Dag.SameNode x y) : Dag.Includes [] x y := by
  refine ⟨h.label, h.left, h.right, fun e he => ?_, fun f hf => ?_⟩
  · exact h.edge ((List.append_nil _).subst he)
  · obtain ⟨e, he, hfe⟩ := h.symm.edge hf
    exact ⟨e, List.mem_append_left _ he, hfe.symm⟩

theorem Dag.SameNode.withChild (h : Dag.SameNode x y) (hdep : (dep == dep') = true)
    (hchild : Dag.SameNode child child') (tag tag' : Nat) :
    Dag.SameNode (withChild x dep child tag) (withChild y dep' child' tag') :=
  (h.includes.withChild hdep hchild tag tag').same

/-! ## One child -/

structure BothGrowing (s : Settings) (edges : List Resolved)
    (entries : List (Graph × List GraphEdge)) (context : Context) (w v : Workspace) (p q : Pass)
    (current current' : Graph) (ds : List Desire) : Prop where
  beside : Beside edges entries p q
  node : Dag.SameNode current current'
  label : current.label = current'.label
  left : Growing s.catalog w.queue p current ds
  right : Growing s.catalog v.queue q current' ds
  needs : ∀ d ∈ ds, d ∈ s.catalog.needs current
  resolved : s.ResolvedIn context current
  pools : PoolBuilt w ∧ PoolBuilt v
  queue : List.Forall₂ SameDeferral w.queue v.queue

theorem Beside.closed (h : Beside edges entries p q) (ha : Aside c K edges entries)
    (hK : K.has current.label) (hnode : Dag.SameNode current current')
    (hdep : (dep == dep') = true) (hchild : Dag.SameNode child child') :
    Beside edges entries (closed p current dep child) (closed q current' dep' child') :=
  ⟨h.root, h.back.append hnode (ha.noHead hK) (.of_forall₂ (.cons ⟨hnode, hchild, hdep⟩ .nil)),
    h.expanded⟩

theorem Beside.repeated (h : Beside edges entries p q) (ha : Aside c K edges entries)
    (hK : K.has x.label) (hnode : Dag.SameNode x y) {es fs : List Resolved}
    (hes : List.Forall₂ Dag.SameEdge es fs) :
    Beside edges entries (repeated p x es) (repeated q y fs) := by
  refine ⟨h.root, h.back.set hnode (ha.noHead hK) (.of_forall₂ ?_), h.expanded⟩
  rw [List.forall₂_map_left_iff, List.forall₂_map_right_iff]
  exact hes.imp fun _ _ hef => ⟨hnode, hef.tail, hef.label⟩

theorem BothGrowing.replaced
    (h : BothGrowing s edges entries context w v p q current current' (d :: ds))
    (ha : Aside s.catalog K edges entries) (hK : K.Spans p.root) {x x' : Graph}
    (hnew : Dag.SameNode x x') (hl : x.label = current.label)
    (hsame : s.catalog.Complete current → (current == x) = true)
    (order order' : Order) (tag tag' : Nat) :
    Beside edges entries (replaced p current x order tag) (replaced q current' x' order' tag') := by
  have hleft : Dag.NodeReplaced current x p.root .empty _ :=
    replaced_node h.left.sound.wellBuilt hnew.left order tag
  have hright : Dag.NodeReplaced current' x' q.root .empty _ :=
    replaced_node h.right.sound.wellBuilt hnew.right order' tag'
  have hboth : BothReplaced s.catalog K edges entries p q current current' x x' _ _ :=
    ⟨h.beside, ha, hK, hleft, hright, h.node, hnew, h.left.reached, hsame⟩
  exact ⟨hboth.root, hboth.back h.left.sound h.right.sound hl order order', h.beside.expanded⟩

theorem exists_merged (hs : s.Unscripted) (hpool : PoolBuilt w) (hpool' : PoolBuilt v)
    {tree : Graph} {w1 w2 : Workspace} (hd : Resolves s d context w (.ok (dep, tree)) w1)
    (hmerge : (merge tree).Runs w1 (.ok child) w2) :
    ∃ dep' tree' child' v1 v2, Resolves s d context v (.ok (dep', tree')) v1 ∧
      (merge tree').Runs v1 (.ok child') v2 ∧ Dag.SameEdge (dep, child) (dep', child') ∧
      PutAlike w w2 v v2 := by
  have hd' := resolves_of_runs (runs_self (s.resolveFully d context) v)
  have halike := hd.alike hs rfl hd'
  have hputs := hd.putAlike hs hd'
  revert hd' halike hputs
  generalize ((s.resolveFully d context).run.run v).1 = o
  generalize ((s.resolveFully d context).run.run v).2 = v1
  intro hd' halike hputs
  rcases o with _ | ⟨dep', tree'⟩
  · exact halike.elim
  have htree : Dag.SameEdge (dep, tree) (dep', tree') := halike
  obtain ⟨_, ho, hbeq, hchild, -, hqueue⟩ := raw_of_merge (hd.queues.pool hpool)
    ((hd.tree_grown rfl).raw (dep, tree) (by simp)) hmerge
  cases ho
  have hmerge' := runs_self (merge tree') v1
  obtain ⟨child', ho, hbeq', hchild', -, hqueue'⟩ := raw_of_merge (hd'.queues.pool hpool')
    ((hd'.tree_grown rfl).raw (dep', tree') (by simp)) hmerge'
  rw [ho] at hmerge'
  have hleft : Dag.SameNode tree child := ⟨hbeq, htree.left, (hchild child (.self _)).wellBuilt⟩
  have hright : Dag.SameNode tree' child' :=
    ⟨hbeq', htree.right, (hchild' child' (.self _)).wellBuilt⟩
  exact ⟨dep', tree', child', v1, _, hd', hmerge',
    .of_tail htree.label (hleft.symm.trans (htree.tail.trans hright)),
    hputs.trans (.of_eq hqueue hqueue')⟩

theorem BothGrowing.addChild (hs : s.Unscripted) (hplain : s.catalog.Plain)
    (h : BothGrowing s edges entries context w v p q current current' (d :: ds))
    (ha : Aside s.catalog K edges entries) (hK : K.Spans p.root)
    (hparent : Dag.SameNode parent parent') {tree : Graph} {w1 w2 : Workspace} {x : Graph × Pass}
    (hd : Resolves s d context w (.ok (dep, tree)) w1)
    (hmerge : (merge tree).Runs w1 (.ok child) w2)
    (hadd : (Settings.addChild parent current dep child p).Runs w2 (.ok x) w') :
    ∃ dep' tree' child' y v1 v2 v', Resolves s d context v (.ok (dep', tree')) v1 ∧
      (merge tree').Runs v1 (.ok child') v2 ∧
      (Settings.addChild parent' current' dep' child' q).Runs v2 (.ok y) v' ∧
      Dag.SameEdge (dep, child) (dep', child') ∧
      BothGrowing s edges entries context w' v' x.2 y.2 x.1 y.1 ds := by
  obtain ⟨hpool, hpool'⟩ := h.pools
  have hneeds := h.needs d List.mem_cons_self
  have hneeds' : d ∈ s.catalog.needs current' := needs_congr h.label ▸ hneeds
  obtain ⟨dep', tree', child', v1, v2, hd', hmerge', hedge, hputs⟩ :=
    exists_merged hs hpool hpool' hd hmerge
  obtain ⟨_, ho, hbeq, -⟩ := raw_of_merge (hd.queues.pool hpool)
    ((hd.tree_grown rfl).raw (dep, tree) (by simp)) hmerge
  cases ho
  obtain ⟨y, v', hadd'⟩ := exists_addChild parent' current' child' dep' q v2
  refine ⟨dep', tree', child', y, v1, v2, v', hd', hmerge', hadd', hedge, ?_⟩
  have hadded := childAdded_of_steps hpool hd hmerge hadd
  have hadded' := childAdded_of_steps hpool' hd' hmerge' hadd'
  obtain ⟨hg, hl, -⟩ := hadded.growing h.left hneeds
  obtain ⟨hg', hl', -⟩ := hadded'.growing h.right hneeds'
  obtain ⟨-, hq, hchoice⟩ := runs_addChild hadd
  obtain ⟨-, hq', hchoice'⟩ := runs_addChild hadd'
  have hmore : List.Forall₂ SameDeferral w'.queue v'.queue := by
    rw [hq, hq']
    exact hputs.same h.queue
  have hrest : ∀ e ∈ ds, e ∈ s.catalog.needs x.1 :=
    fun e he => needs_congr hl ▸ h.needs e (List.mem_cons_of_mem _ he)
  have hreach : child.reaches parent = child'.reaches parent' := hedge.tail.reaches_congr hparent
  have hsame := fun tag =>
    withChild_beq hs hplain h.resolved h.node.left hneeds hd hbeq hedge.left tag
  have hboth : Beside edges entries x.2 y.2 ∧ Dag.SameNode x.1 y.1 ∧
      s.ResolvedIn context x.1 := by
    rcases hchoice with ⟨hcloses, ho⟩ | ⟨hcloses, tag, order, tag', ho⟩
    · cases ho
      rcases hchoice' with ⟨-, ho'⟩ | ⟨hopen, -⟩
      · cases ho'
        exact ⟨h.beside.closed ha (hK current h.left.reached) h.node hedge.label hedge.tail, h.node,
          h.resolved⟩
      · simp [← hreach, hcloses] at hopen
    · cases ho
      rcases hchoice' with ⟨hopen, -⟩ | ⟨-, tag₂, order', tag₂', ho'⟩
      · simp [← hreach, hcloses] at hopen
      · cases ho'
        have hnew := h.node.withChild hedge.label hedge.tail tag tag₂
        exact ⟨h.replaced ha hK hnew (withChild_label ..) (hsame tag) order order' tag' tag₂',
           hnew, h.resolved.withChild hneeds hd hbeq tag⟩
  exact ⟨hboth.1, hboth.2.1, hl.trans (h.label.trans hl'.symm), hg, hg', hrest, hboth.2.2,
    ⟨hadded.pool, hadded'.pool⟩, hmore⟩

/-! ## One deferral -/

theorem Components.keeps (K : Components) (s : Settings) : s.Keeps fun p => ¬ K.Spans p.root where
  closed _ _ _ h := h
  repeated _ _ h := h
  noted _ h := h
  replaced := @fun _ p current _ _ child dep tag order tag' hg hchild h => by
    have hnew := withChild_wellBuilt hg.wellBuilt dep hchild tag
    have hnode : Dag.NodeReplaced current (withChild current dep child tag) p.root .empty _ :=
      replaced_node hg.sound.wellBuilt hnew order tag'
    have hbelow : ∀ e ∈ current.edges, (withChild current dep child tag).reaches e.2 = true :=
      fun e he => Dag.reaches_of_edge (subset_withChild he) (Dag.Has.self _).reaches
    refine mt (fun hK => ?_) h
    rintro y ⟨e, he, hey⟩
    obtain ⟨z, hz, hyz⟩ := Dag.reaches_iff.1 hey
    have hzw := hz.wellBuilt (hg.sound.wellBuilt.tail he)
    have himage := hnode.under_imageOf hbelow hzw hg.sound.wellBuilt hg.reached.not_beq
      ⟨e, he, hz.reaches⟩
    have hlabel := BEq.trans (Dag.label_beq hyz) (label_imageOf hnode (withChild_label ..) z)
    exact (K.iff hlabel).2 (hK _ himage)

theorem beside_of_expandChildren (hs : s.Unscripted) (hplain : s.catalog.Plain)
    (ha : Aside s.catalog K edges entries) (hparent : Dag.SameNode parent parent') :
    ∀ (ds : List Desire) {current current' : Graph} {p q p' : Pass} {w v w' : Workspace}
      {children : List Resolved},
      (s.expandChildren parent context ds current p).Runs w (.ok (children, p')) w' →
      BothGrowing s edges entries context w v p q current current' ds → K.Spans p'.root →
      ∃ children' q' v',
        (s.expandChildren parent' context ds current' q).Runs v (.ok (children', q')) v' ∧
        List.Forall₂ Dag.SameEdge children children' ∧ Beside edges entries p' q' ∧
        List.Forall₂ SameDeferral w'.queue v'.queue
  | [], _, _, _, q, _, _, v, _, _, hrun, h, _ => by
    obtain ⟨he, rfl⟩ := runs_pure.1 hrun
    cases he
    exact ⟨[], q, v, ⟨rfl, rfl⟩, .nil, h.beside, h.queue⟩
  | d :: ds, _, _, _, _, _, _, _, _, _, hrun, h, hK => by
    have hKp := not_imp_not.1
      ((K.keeps s).expandChildren parent _ _ h.pools.1 hrun h.left h.needs) hK
    rw [Settings.expandChildren] at hrun
    simp only [runs_bind_ok] at hrun
    obtain ⟨⟨dep, tree⟩, w1, hd, child, w2, hmerge, x, w3, hadd, ⟨rest, _⟩, _, hrest, hpure⟩ := hrun
    obtain ⟨he, rfl⟩ := runs_pure.1 hpure
    cases he
    obtain ⟨dep', tree', child', y, v1, v2, v3, hd', hmerge', hadd', hedge, hboth⟩ :=
      h.addChild hs hplain ha hKp hparent (resolves_of_runs hd) hmerge hadd
    obtain ⟨rest', q', v', hrest', hedges, hbeside, hqueue⟩ :=
      beside_of_expandChildren hs hplain ha hparent ds hrest hboth hK
    refine ⟨(dep', child') :: rest', q', v', ?_, .cons hedge hedges, hbeside, hqueue⟩
    rw [Settings.expandChildren]
    simp only [runs_bind_ok]
    exact ⟨_, v1, runs_of_resolves hd', _, v2, hmerge', y, v3, hadd', _, v', hrest', rfl, rfl⟩

theorem children?_same {es fs : List (Graph × List Resolved)} (h : List.Forall₂ SameFound es fs)
    (hxy : Dag.SameNode x y) :
    Option.Rel (List.Forall₂ Dag.SameEdge) ((es.find? fun e => e.1 == x).map (·.2))
      ((fs.find? fun e => e.1 == y).map (·.2)) := by
  induction h with
  | nil => exact .none
  | @cons e f _ _ hef _ ih =>
    rw [List.find?_cons, List.find?_cons, hef.node.beq_congr hxy]
    cases f.1 == y with
    | true => exact .some hef.children
    | false => exact ih

theorem Beside.contains_of_bare (h : Beside edges entries p q) (ha : Aside c K edges entries)
    {g : Resolved} (hg : g ∈ edges) (hy : g.2.Has y) (hxy : Dag.SameNode x y)
    (hbare : x.edges = []) (hneeds : c.needs x ≠ []) : q.backEdges.contains x = true := by
  obtain ⟨d, hd⟩ := List.exists_mem_of_ne_nil _ hneeds
  obtain ⟨d', hd', -⟩ := needs_of_beq hxy.beq hd
  have hempty : y.edges = [] := (Dag.edges_eq_nil_iff hxy.beq).1 hbare
  rcases ha.covered g hg y hy d' hd' with ⟨e, he, -⟩ | ⟨e, he, -⟩
  · simp [hempty] at he
  · obtain ⟨entry, hentry, hbeq, -⟩ := mem_edgesOf he
    obtain ⟨entry', hentry', hsame⟩ := h.back.exists_right (List.mem_append_left _ hentry)
    refine BackEdges.contains_iff.2 ⟨entry', hentry', ?_⟩
    exact Dag.beq_trans hsame.head.symm.beq (Dag.beq_trans hbeq hxy.symm.beq)

structure BothIdle (s : Settings) (edges : List Resolved) (entries : List (Graph × List GraphEdge))
    (f f' : Deferral) (w v : Workspace) (p q : Pass) : Prop where
  beside : Beside edges entries p q
  left : p.Idle s.catalog (f :: w.queue)
  right : q.Idle s.catalog (f' :: v.queue)
  same : SameDeferral f f'
  bare : Bare f.node.label f.node
  bare' : Bare f'.node.label f'.node
  needs : edges ≠ [] → s.catalog.needs f.node ≠ []
  pools : PoolBuilt w ∧ PoolBuilt v
  queue : List.Forall₂ SameDeferral w.queue v.queue

theorem BothIdle.skips (ha : Aside s.catalog K edges entries)
    (h : BothIdle s edges entries f f' w v p q) (hK : K.Spans p.root) :
    (p.backEdges.contains f.node || !p.root.reaches f.node) =
      (q.backEdges.contains f'.node || !q.root.reaches f'.node) := by
  have hnode := h.same.node
  have hunder := fun hreach => Dag.under_of_reaches hreach (h.left.bare_not_root h.bare.edges)
  have hunder' := fun hreach => Dag.under_of_reaches hreach (h.right.bare_not_root h.bare'.edges)
  by_cases hreach : p.root.reaches f.node = true
  · have hno := ha.noHead (hK f.node (hunder hreach))
    have hreach' := (h.beside.root.under hnode (hunder hreach)).reaches
    rw [h.beside.back.contains_eq hnode hno, hreach, hreach']
  · -- Where only the second graph has the node it is aside, and then it has back-edges there.
    have hskip : (q.backEdges.contains f'.node || !q.root.reaches f'.node) = true := by
      rw [Bool.or_eq_true]
      by_cases hreach' : q.root.reaches f'.node = true
      · rcases h.beside.root.under_cases hnode (hunder' hreach') with hin | ⟨g, hg, z, hz, hyz⟩
        · exact absurd hin.reaches hreach
        · refine .inl (h.beside.contains_of_bare ha hg hz hyz h.bare'.edges ?_)
          exact needs_congr h.same.label ▸ h.needs (List.ne_nil_of_mem hg)
      · exact .inr (by simpa using hreach')
    rw [hskip]
    simp [hreach]

theorem BothIdle.growing (h : BothIdle s edges entries f f' w v p q)
    (hreach : p.root.reaches f.node = true) (hreach' : q.root.reaches f'.node = true) :
    BothGrowing s edges entries f.context w v p q f.node f'.node (s.catalog.needs f.node) where
  beside := h.beside
  node := h.same.node
  label := h.same.label
  left := h.left.start h.bare hreach
  right := needs_congr h.same.label ▸ h.right.start h.bare' hreach'
  needs _ hd := hd
  resolved e he := by simp [h.bare.edges] at he
  pools := h.pools
  queue := h.queue

theorem BothIdle.follows (hs : s.Unscripted) (hplain : s.catalog.Plain)
    (ha : Aside s.catalog K edges entries) (h : BothIdle s edges entries f f' w v p q)
    (hrun : (s.processDeferral p f).Runs w (.ok p') w') (hK : K.Spans p'.root) :
    ∃ q' v', (s.processDeferral q f').Runs v (.ok q') v' ∧ Beside edges entries p' q' ∧
      List.Forall₂ SameDeferral w'.queue v'.queue := by
  have hnode := h.same.node
  have hKp := not_imp_not.1 ((K.keeps s).processDeferral h.pools.1 h.left h.bare hrun) hK
  have hskips := h.skips ha hKp
  have hchildren : Option.Rel (List.Forall₂ Dag.SameEdge) (p.children? f.node)
      (q.children? f'.node) := children?_same h.beside.expanded hnode
  have hunder := fun hreach => Dag.under_of_reaches hreach (h.left.bare_not_root h.bare.edges)
  cases runs_processDeferral.1 hrun with
  | skipped hskip =>
    exact ⟨q, v, runs_processDeferral.2 (.skipped (hskips ▸ hskip)), h.beside, h.queue⟩
  | @repeated es hskip hfound =>
    have hK := hKp f.node (hunder (reaches_of_skip hskip))
    rw [hfound] at hchildren
    cases hq : q.children? f'.node with
    | none =>
      rw [hq] at hchildren
      cases hchildren
    | some fs =>
      rw [hq] at hchildren
      cases hchildren with
      | some hes =>
        exact ⟨repeated q f'.node fs, v, runs_processDeferral.2 (.repeated (hskips ▸ hskip) hq),
          h.beside.repeated ha hK hnode hes, h.queue⟩
  | expanded hskip hfound hexpand =>
    have hreach := reaches_of_skip hskip
    have hreach' := (h.beside.root.under hnode (hunder hreach)).reaches
    obtain ⟨children', q1, v1, hexpand', hsame, hbeside, hqueue⟩ :=
      beside_of_expandChildren hs hplain ha hnode _ hexpand (h.growing hreach hreach') hK
    rw [needs_congr h.same.label, h.same.context] at hexpand'
    rw [hfound] at hchildren
    cases hq : q.children? f'.node with
    | some _ =>
      rw [hq] at hchildren
      cases hchildren
    | none =>
      exact ⟨_, v1, runs_processDeferral.2 (.expanded (hskips ▸ hskip) hq hexpand'),
        ⟨hbeside.root, hbeside.back, List.rel_append hbeside.expanded
          (.cons ⟨hnode, hsame⟩ .nil)⟩, hqueue⟩

/-! ## The whole queue -/

theorem Settings.Drains.beside (hs : s.Unscripted) (hplain : s.catalog.Plain)
    (ha : Aside s.catalog K edges entries)
    (hneeds : edges ≠ [] → ∀ f, s.Queued roots f → s.catalog.needs f.node ≠ [])
    {o : Attempt Pass} (h : Drains s p w o w') (ho : o = .ok p') (hK : K.Spans p'.root)
    (hb : Beside edges entries p q) (hp : p.Ready s w) (hq : q.Ready s v)
    (hqueue : List.Forall₂ SameDeferral w.queue v.queue)
    (hqueued : ∀ f ∈ w.queue, s.Queued roots f) :
    ∃ q' v', Drains s q v (.ok q') v' ∧ Beside edges entries p' q' := by
  induction h generalizing q v with
  | done hempty =>
    cases ho
    rw [hempty] at hqueue
    exact ⟨q, v, .done (List.forall₂_nil_left_iff.1 hqueue), hb⟩
  | failed _ _ => cases ho
  | @next p p1 w v1 w' f rest o hfront hrun hdrains ih =>
    have hready := hp.next hfront hrun
    have hK1 := not_imp_not.1 ((K.keeps s).drains hdrains hready ho) hK
    rw [hfront] at hqueue hqueued
    obtain ⟨f', rest', hsame, hrest, hfront'⟩ := List.forall₂_cons_left_iff.1 hqueue
    have hf := hqueued f List.mem_cons_self
    have hbare := hp.bare f (hfront ▸ List.mem_cons_self)
    have hboth : BothIdle s edges entries f f' { w with queue := rest } { v with queue := rest' }
        p q :=
      ⟨hb, hfront ▸ hp.idle, hfront' ▸ hq.idle, hsame, hbare, hsame.bare hbare,
        fun hedges => hneeds hedges f hf, ⟨hp.pool, hq.pool⟩, hrest⟩
    obtain ⟨q1, v2, hrun', hb1, hqueue1⟩ := hboth.follows hs hplain ha hrun hK1
    have hqueued1 := queued_of_processDeferral (w := { w with queue := rest }) hrun hqueued
    obtain ⟨q', v', hdrains', hb'⟩ := ih ho hb1 hready (hq.next hfront' hrun') hqueue1 hqueued1
    exact ⟨q', v', .next hfront' hrun' hdrains', hb'⟩

/-! ## Calls -/

namespace Solver

structure Beside (edges : List Resolved) (entries : List (Graph × List GraphEdge))
    (v u : Solver) : Prop where
  root : Dag.Includes edges v.graph u.graph
  back : BackEdges.Joined entries v.backEdges u.backEdges

variable {v u : Solver} {w w' v' : Workspace}

theorem exists_linked (hs : v.settings.Unscripted) (hsettings : u.settings = v.settings)
    (hv : v.Sound) (hu : u.Sound) (hb : Beside edges entries v u) {w1 w2 w3 v0 : Workspace}
    (hpool : PoolBuilt w) (hpool' : PoolBuilt v0) (hw : w.queue = []) (hv0 : v0.queue = [])
    {edge : Resolved} {node root : Graph} (hd : Resolves v.settings d .initial w (.ok edge) w1)
    (hmerge : (merge edge.2).Runs w1 (.ok node) w2)
    (hbuild : (build (v.graph.copy.addEdge edge.1 node).build).Runs w2 (.ok root) w3) :
    ∃ edge' node' root' v1 v2 v3, Resolves u.settings d .initial v0 (.ok edge') v1 ∧
      (merge edge'.2).Runs v1 (.ok node') v2 ∧
      (build (u.graph.copy.addEdge edge'.1 node').build).Runs v2 (.ok root') v3 ∧
      Wiring.Beside edges entries { root, backEdges := v.backEdges }
        { root := root', backEdges := u.backEdges } ∧
      Pass.Ready v.settings w3 { root, backEdges := v.backEdges } ∧
      Pass.Ready v.settings v3 { root := root', backEdges := u.backEdges } ∧
      List.Forall₂ SameDeferral w3.queue v3.queue ∧
      ∀ f ∈ w3.queue, v.settings.Queued [d] f := by
  obtain ⟨dep, tree⟩ := edge
  obtain ⟨dep', tree', node', v1, v2, hd', hmerge', hedge, hputs⟩ :=
    exists_merged hs hpool hpool' hd hmerge
  obtain ⟨_, ho, -, hnode, hpool2, hqueue⟩ := raw_of_merge (hd.queues.pool hpool)
    ((hd.tree_grown rfl).raw (dep, tree) (by simp)) hmerge
  cases ho
  obtain ⟨_, ho, -, hnode', hpool2', hqueue'⟩ := raw_of_merge (hd'.queues.pool hpool')
    ((hd'.tree_grown rfl).raw (dep', tree') (by simp)) hmerge'
  cases ho
  obtain ⟨hroot, rfl⟩ := runs_build.1 hbuild
  cases hroot
  have hlinked : Wiring.Beside edges entries
      { root := withChild v.graph dep node w2.nextTag, backEdges := v.backEdges }
      { root := withChild u.graph dep' node' v2.nextTag, backEdges := u.backEdges } :=
    ⟨hb.root.withChild hedge.label hedge.tail _ _, hb.back, .nil⟩
  have hsame : List.Forall₂ SameDeferral w2.queue v2.queue := by
    refine hputs.same ?_
    rw [hw, hv0]
    exact .nil
  have hqueued : ∀ f ∈ w2.queue, v.settings.Queued [d] f :=
    fun f hf => .tree List.mem_cons_self (hd.putsOff hw f (hqueue ▸ hf))
  have hready := hv.ready hd hw hnode { w2 with nextTag := w2.nextTag + 1 } hpool2 hqueue dep
    w2.nextTag
  have hready' := hu.ready (hsettings ▸ hd') hv0 (hsettings ▸ hnode')
    { v2 with nextTag := v2.nextTag + 1 } hpool2' hqueue' dep' v2.nextTag
  rw [hsettings] at hready'
  rw [← hsettings] at hd'
  exact ⟨_, node', _, v1, v2, _, hd', hmerge', runs_build.2 ⟨rfl, rfl⟩, hlinked, hready, hready',
    hsame, hqueued⟩

theorem Calls.beside (hs : v.settings.Unscripted) (hplain : v.settings.catalog.Plain)
    (ha : Aside v.settings.catalog K edges entries)
    (hneeds : edges ≠ [] → ∀ f, v.settings.Queued [d] f → v.settings.catalog.needs f.node ≠ [])
    (hsettings : u.settings = v.settings) (hv : v.Sound) (hu : u.Sound)
    (hb : Beside edges entries v u) {w2 : Workspace} (hpool : PoolBuilt w) (hpool' : PoolBuilt w2)
    (hw : w.queue = []) (hw2 : w2.queue = []) (h : v.Calls d w (.ok p) w') (hK : K.Spans p.root) :
    ∃ q v', u.Calls d w2 (.ok q) v' ∧ Wiring.Beside edges entries p q := by
  rcases h with _ | ⟨hd, hmerge, hbuild, hdrains⟩
  obtain ⟨edge', node', root', v1, v2, v3, hd', hmerge', hbuild', hlinked, hready, hready', hsame,
    hqueued⟩ := exists_linked hs hsettings hv hu hb hpool hpool' hw hw2 hd hmerge hbuild
  obtain ⟨q, v', hdrains', hpq⟩ :=
    hdrains.beside hs hplain ha hneeds rfl hK hlinked hready hready' hsame hqueued
  rw [← hsettings] at hdrains'
  exact ⟨q, v', .drained hd' hmerge' hbuild' hdrains', hpq⟩

theorem resolve_beside (hs : v.settings.Unscripted) (hplain : v.settings.catalog.Plain)
    (ha : Aside v.settings.catalog K edges entries)
    (hneeds : edges ≠ [] → ∀ f, v.settings.Queued [d] f → v.settings.catalog.needs f.node ≠ [])
    (hsettings : u.settings = v.settings) (hv : v.Sound) (hu : u.Sound)
    (hb : Beside edges entries v u) {tag : Nat} (hok : ((v.resolve d).run tag).1.result = .ok ())
    (hK : K.Spans ((v.resolve d).run tag).1.solver.graph) (tag' : Nat) :
    ((u.resolve d).run tag').1.result = .ok () ∧
      Beside edges entries ((v.resolve d).run tag).1.solver ((u.resolve d).run tag').1.solver := by
  obtain ⟨o, w, hcalls, hresult, hsolver⟩ := v.exists_calls d tag
  obtain ⟨o', w', hcalls', hresult', hsolver'⟩ := u.exists_calls d tag'
  rw [hresult] at hok
  rw [hsolver] at hK ⊢
  rw [hresult', hsolver']
  cases o with
  | error e => cases hok
  | ok p =>
    obtain ⟨q, v', hfollows, hpq⟩ := hcalls.beside hs hplain ha hneeds hsettings hv hu hb
      (hv.poolBuilt tag) (hu.poolBuilt tag') rfl rfl hK
    obtain ⟨rfl, -⟩ := hcalls'.unique hfollows
    exact ⟨rfl, hpq.root, hpq.back⟩

end Solver

end Wiring
