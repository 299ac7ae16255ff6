import Wiring.Proofs.Solver.Calls
import Wiring.Proofs.Solver.Origin
import Wiring.Proofs.Solver.Steps

/-!
# Nodes that are expanded without closing cycles

While there are no back-edges every node that was put off is expanded once in a pass, in the context
of one of its deferrals, and keeps the edges it gets.
-/

namespace Wiring

open Work Settings Catalog

variable {s : Settings} {roots ds : List Desire} {q : List Deferral} {p p' : Pass} {f : Deferral}
  {current parent child : Graph} {dep : Dependency} {d : Desire} {context : Context}
  {w w' : Workspace} {children : List Resolved} {edge : Resolved} {x : Graph × Pass}
  {v : Workspace}

/-! ## No back-edges -/

theorem keeps_entries (s : Settings) : s.Keeps fun p => ¬ p.backEdges.entries = [] where
  closed _ _ _ _ := BackEdges.updateEntries_ne_nil _ _ _
  repeated _ _ _ := BackEdges.updateEntries_ne_nil _ _ _
  noted _ h := h
  replaced _ _ _ _ _ _ h := mt BackEdges.entries_of_rekey h

/-! ## Expanding a node -/

/-- Among the declared dependencies of a node none equals another. -/
def Catalog.Plain (c : Catalog) : Prop :=
  ∀ g, ∀ d ∈ c.needs g, ∀ d' ∈ c.needs g, (d == d') = true → d = d'

/-- The edges of the node are what its declared dependencies are resolved to in the context. -/
def Settings.ResolvedIn (s : Settings) (context : Context) (current : Graph) : Prop :=
  ∀ e ∈ current.edges, ∃ d ∈ s.catalog.needs current, ∃ w w' tree,
    Resolves s d context w (.ok (e.1, tree)) w' ∧ (tree == e.2) = true

structure Expanding (s : Settings) (roots : List Desire) (f : Deferral) (p : Pass)
    (current : Graph) : Prop where
  root : s.BuiltIn roots p.root .initial
  node : s.BuiltIn roots current f.context
  label : current.label = f.node.label
  resolved : s.ResolvedIn f.context current

theorem beq_withChild_of_mem (hw : current.WellBuilt) (hchild : child.WellBuilt)
    (he : edge ∈ current.edges) (hdep : (edge.1 == dep) = true) (htail : (edge.2 == child) = true)
    (tag : Nat) : (current == withChild current dep child tag) = true := by
  have hadd : current.copy.addEdge dep child = current.copy := by
    unfold Dag.Draft.addEdge
    refine if_pos (List.any_eq_true.2 ⟨edge, he, ?_⟩)
    rw [Bool.and_eq_true]
    exact ⟨hdep, htail⟩
  have hnew : (withChild current dep child tag).WellBuilt :=
    withChild_wellBuilt hw dep hchild tag
  refine Dag.beq_of_forall₂ hw hnew ?_ ?_
  · rw [withChild_label]
    exact BEq.rfl
  · unfold withChild
    rw [hadd]
    exact List.forall₂_same.2 fun e _ => (Dag.edge_beq_iff e e).2 ⟨BEq.rfl, Dag.same_refl e.2⟩

theorem withChild_beq (hs : s.Unscripted) (hplain : s.catalog.Plain)
    (hresolved : s.ResolvedIn context current) (hw : current.WellBuilt)
    (hd : d ∈ s.catalog.needs current) {tree : Graph}
    (hresolves : Resolves s d context w (.ok (dep, tree)) w') (htree : (tree == child) = true)
    (hchild : child.WellBuilt) (tag : Nat) (hcomplete : s.catalog.Complete current) :
    (current == withChild current dep child tag) = true := by
  obtain ⟨e, hec, hed⟩ := hcomplete d hd
  obtain ⟨d', hd', v, v', tree', hresolves', htree'⟩ := hresolved e hec
  have hinitial : e.1.initial = d' := by
    cases (hresolves'.tree_grown rfl).initial with
    | cons h _ => exact h
  have hdd : d' = d := hplain current d' hd' d hd (hinitial ▸ hed)
  subst hdd
  have hsame : Dag.SameEdge (e.1, tree') (dep, tree) := hresolves'.alike hs rfl hresolves
  obtain ⟨hdep, htrees⟩ := (Dag.edge_beq_iff _ _).1 hsame.beq
  have htail := Dag.beq_trans (Dag.beq_symm hsame.left htree') (Dag.beq_trans htrees htree)
  exact beq_withChild_of_mem hw hchild hec hdep htail tag

theorem Settings.ResolvedIn.withChild (h : s.ResolvedIn context current)
    (hd : d ∈ s.catalog.needs current) {tree : Graph}
    (hresolves : Resolves s d context w (.ok (dep, tree)) w') (htree : (tree == child) = true)
    (tag : Nat) : s.ResolvedIn context (withChild current dep child tag) := by
  intro e hec
  rw [needs_withChild]
  rcases mem_withChild hec with hec | rfl
  · exact h e hec
  · exact ⟨d, hd, w, w', tree, hresolves, htree⟩

theorem Expanding.replaced (hs : s.Unscripted) (hplain : s.catalog.Plain) (hf : s.Queued roots f)
    (he : Expanding s roots f p current) (hg : Growing s.catalog q p current (d :: ds))
    (hd : d ∈ s.catalog.needs current) {tree : Graph}
    (hresolves : Resolves s d f.context w (.ok (dep, tree)) w') (htree : (tree == child) = true)
    (hchild : child.WellBuilt) (tag : Nat) (order : BackEdges.Order) (tag' : Nat) :
    Expanding s roots f (Settings.replaced p current (withChild current dep child tag) order tag')
      (withChild current dep child tag) := by
  have hnew : (withChild current dep child tag).WellBuilt :=
    withChild_wellBuilt hg.wellBuilt dep hchild tag
  have h : Dag.NodeReplaced current (withChild current dep child tag) p.root .empty _ :=
    replaced_node hg.sound.wellBuilt hnew order tag'
  have hl := withChild_label current dep child tag
  have hneeds : d ∈ s.catalog.needs f.node := needs_congr he.label ▸ hd
  have hedge : s.EdgeBuilt roots f.context (dep, tree) := by
    refine (hresolves.tree_grown rfl).edgeBuilt hs (fun d' hd' f' hf' => ?_) _ (by simp)
    rw [List.mem_singleton.1 hd'] at hf'
    exact .expansion hf hneeds hf'
  have hnode : s.BuiltIn roots (withChild current dep child tag) f.context := by
    refine builtIn_iff.2 fun e hec => ?_
    rcases mem_withChild hec with hec | rfl
    · exact builtIn_iff.1 he.node e hec
    · exact hedge.of_beq (tree_wellBuilt hresolves) hchild BEq.rfl htree
  refine ⟨?_, hnode, hl.trans he.label, he.resolved.withChild hd hresolves htree tag⟩
  obtain ⟨i, hi, hir, himage⟩ := h.image
  have hlabel : (f.node.label == current.label) = true := by
    rw [he.label]
    exact BEq.rfl
  have hsame := withChild_beq hs hplain he.resolved hg.wellBuilt hd hresolves htree hchild tag
  rcases BuiltIn.image h hl hsame hg.sound.wellBuilt hg.wellBuilt hg.reached.reaches hf hlabel
    hnode he.root hg.sound.wellBuilt hi hir with hbuilt | ⟨hroot, _⟩
  · rw [himage] at hbuilt
    exact hbuilt
  · simp [hg.reached.not_beq] at hroot

theorem Expanding.root_of_runs (hs : s.Unscripted) (hplain : s.catalog.Plain)
    (hf : s.Queued roots f) : ∀ (ds : List Desire) {current : Graph} {p : Pass}
    {children : List Resolved} {w : Workspace}, PoolBuilt w →
      (s.expandChildren parent f.context ds current p).Runs w (.ok (children, p')) w' →
      Growing s.catalog w.queue p current ds → (∀ d ∈ ds, d ∈ s.catalog.needs current) →
      Expanding s roots f p current → p'.backEdges.entries = [] →
      s.BuiltIn roots p'.root .initial
  | [], _, _, _, _, _, h, _, _, he, _ => by
    obtain ⟨hp, _⟩ := runs_pure.1 h
    cases hp
    exact he.root
  | d :: ds, current, _, _, _, hpool, h, hg, hds, he, hb => by
    obtain ⟨edge, x, v, rest, hadded, hrest, rfl⟩ := childAdded_of_runs hpool h
    obtain ⟨hgx, hlabel, _⟩ := hadded.growing hg (hds d List.mem_cons_self)
    have hds' : ∀ d ∈ ds, d ∈ s.catalog.needs x.1 :=
      fun d hd => needs_congr hlabel ▸ hds d (List.mem_cons_of_mem _ hd)
    have hx := not_imp_not.1
      ((keeps_entries s).expandChildren parent _ ds hadded.pool hrest hgx hds') hb
    have hex : Expanding s roots f x.2 x.1 := by
      rcases hadded.choice with rfl | ⟨tag, order, tag', rfl⟩
      · exact absurd hx (BackEdges.updateEntries_ne_nil _ _ _)
      · obtain ⟨tree, w', hresolves, htree⟩ := hadded.resolves
        exact he.replaced hs hplain hf hg (hds d List.mem_cons_self) hresolves htree
          (hadded.raw _ (.self _)).wellBuilt tag order tag'
    exact root_of_runs hs hplain hf ds hadded.pool hrest hgx hds' hex hb

/-! ## The whole queue -/

theorem builtIn_of_processDeferral (hs : s.Unscripted) (hplain : s.catalog.Plain)
    (hf : s.Queued roots f) (hbare : Bare f.node.label f.node)
    (hp : p.Idle s.catalog (f :: w.queue)) (hpool : PoolBuilt w)
    (hroot : s.BuiltIn roots p.root .initial) (h : (s.processDeferral p f).Runs w (.ok p') w')
    (hb : p'.backEdges.entries = []) : s.BuiltIn roots p'.root .initial := by
  cases runs_processDeferral.1 h with
  | skipped _ => exact hroot
  | repeated _ _ => exact hroot
  | @expanded _ p1 _ hskip _ hexpand =>
    have hb1 : p1.backEdges.entries = [] := hb
    have hexpanding : Expanding s roots f p f.node :=
      ⟨hroot, builtIn_iff.2 fun e he => by simp [hbare.edges] at he, rfl,
        fun e he => by simp [hbare.edges] at he⟩
    have hroot1 := Expanding.root_of_runs hs hplain hf _ hpool hexpand
      (hp.start hbare (reaches_of_skip hskip)) (fun d hd => hd) hexpanding hb1
    exact hroot1

theorem queued_of_processDeferral (h : (s.processDeferral p f).Runs w (.ok p') w')
    (hqueued : ∀ g ∈ f :: w.queue, s.Queued roots g) : ∀ g ∈ w'.queue, s.Queued roots g := by
  obtain ⟨-, fs, hfs, hputs⟩ := putsOff_processDeferral h
  intro g hg
  rw [hfs] at hg
  rcases List.mem_append.1 hg with hg | hg
  · exact hqueued g (List.mem_cons_of_mem _ hg)
  · obtain ⟨d, hd, hg⟩ := hputs g hg
    exact .expansion (hqueued f List.mem_cons_self) hd hg

theorem Settings.Drains.builtIn (hs : s.Unscripted) (hplain : s.catalog.Plain) {o : Attempt Pass}
    (h : Drains s p w o w') (hp : p.Ready s w) (hqueued : ∀ f ∈ w.queue, s.Queued roots f)
    (hroot : s.BuiltIn roots p.root .initial) (ho : o = .ok p')
    (hb : p'.backEdges.entries = []) : s.BuiltIn roots p'.root .initial := by
  induction h with
  | done _ =>
    cases ho
    exact hroot
  | failed _ _ => cases ho
  | @next p p1 w v w' f rest o hq hrun hdrains ih =>
    have hbare := hp.bare f (hq ▸ List.mem_cons_self)
    have hidle : p.Idle s.catalog (f :: rest) := hq ▸ hp.idle
    rw [hq] at hqueued
    have hready := hp.next hq hrun
    have hb1 := not_imp_not.1 ((keeps_entries s).drains hdrains hready ho) hb
    have hroot' := builtIn_of_processDeferral (w := { w with queue := rest }) hs hplain
      (hqueued f List.mem_cons_self) hbare hidle hp.pool hroot hrun hb1
    have hqueued' := queued_of_processDeferral (w := { w with queue := rest }) hrun hqueued
    exact ih hready hqueued' hroot' ho

end Wiring
