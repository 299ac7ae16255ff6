import Wiring.Proofs.Dag.Labels
import Wiring.Proofs.Solver.Representation

/-!
# What edges beside the graph are for

An edge is kept beside the graph in two cases. Its end leads back to the node that is being
expanded, or the node equals one that was expanded before in the pass and gets the same children.
In the first case the edge closes a cycle. In the second it need not: the node that was expanded has
become another one by then, and the bare copy is not below it. The graph then has a node with the
same component that has edges, and one of its edges is like the edge of the copy.
-/

namespace Wiring

open Settings Catalog

variable {s : Settings} {l : Component} {e f : Resolved} {d : Desire} {rest : List Desire}
  {b : BackEdges} {root g k x node current child parent : Graph} {dep : Dependency}
  {q : List Deferral} {p p' : Pass} {busy : Graph → Prop} {context : Context}
  {w w' : Workspace} {done : List Resolved} {deferral : Deferral}

def Meets (g : Graph) (l : Component) : Prop := ∃ y, g.Has y ∧ (y.label == l) = true

/-- A node has an edge or a back-edge with the same label to a node with the same component. -/
def HasLike (b : BackEdges) (x : Graph) (e : Resolved) : Prop :=
  (∃ f ∈ x.edges, (f.1 == e.1) = true ∧ (f.2.label == e.2.label) = true) ∨
    ∃ f ∈ b.edgesOf x, (f.label == e.1) = true ∧ (f.tail.label == e.2.label) = true

structure Twin (root : Graph) (b : BackEdges) (l : Component) (e : Resolved) (x : Graph) :
    Prop where
  wellBuilt : x.WellBuilt
  reached : root.Under x
  label : (x.label == l) = true
  grown : x.edges ≠ []
  like : HasLike b x e

/-! ## While back-edges change -/

theorem HasLike.append {es : List GraphEdge} (h : HasLike b x e) (hb : b.AllHeads Dag.WellBuilt)
    (hk : k.WellBuilt) : HasLike (b.append k es) x e := by
  refine h.imp_right fun ⟨f, hf, hlabel⟩ => ⟨f, ?_, hlabel⟩
  rw [BackEdges.edgesOf_append hb hk]
  split
  · exact List.mem_append_left _ hf
  · exact hf

theorem Twin.append {es : List GraphEdge} (h : Twin root b l e x) (hb : b.AllHeads Dag.WellBuilt)
    (hk : k.WellBuilt) : Twin root (b.append k es) l e x :=
  ⟨h.wellBuilt, h.reached, h.label, h.grown, h.like.append hb hk⟩

theorem Twin.set {es : List GraphEdge} (h : Twin root b l e x) (hb : b.AllHeads Dag.WellBuilt)
    (hk : k.WellBuilt) (hbare : k.edges = []) : Twin root (b.set k es) l e x := by
  refine ⟨h.wellBuilt, h.reached, h.label, h.grown, h.like.imp_right fun ⟨f, hf, hlabel⟩ => ?_⟩
  refine ⟨f, ?_, hlabel⟩
  have hne : (k == x) = false := by
    rw [Bool.eq_false_iff]
    exact fun hkx => h.grown ((Dag.edges_eq_nil_iff hkx).1 hbare)
  rwa [BackEdges.edgesOf_set hb hk, hne, if_neg Bool.false_ne_true]

theorem Twin.link (ht : Twin g b l e x) (dep : Dependency)
    (child : Graph) (tag : Nat) : Twin (withChild g dep child tag) b l e x := by
  obtain ⟨f, hf, hfx⟩ := ht.reached
  exact ⟨ht.wellBuilt, ⟨f, subset_withChild hf, hfx⟩, ht.label, ht.grown, ht.like⟩

/-! ## While a node is replaced -/

section Replace

variable {r : Graph × Dag.Memo Component Dependency} {order : BackEdges.Order}
  {tag : Nat}

theorem Meets.image {new : Graph} (h : Dag.NodeReplaced current new root .empty r)
    (hl : (current.label == new.label) = true)
    (hbelow : ∀ e ∈ current.edges, new.reaches e.2 = true) (hg : g.WellBuilt) (hmeets : Meets g l) :
    Meets (r.2.imageOf g) l := by
  obtain ⟨y, hy, hyl⟩ := hmeets
  rcases r.2.imageOf_cases g with ⟨i, hi, hig, himage⟩ | ⟨-, himage⟩
  · have hreach := h.image_reaches hbelow (hy.wellBuilt hg) hy hg (Dag.same_refl y) hi hig
    obtain ⟨z, hz, hyz⟩ := Dag.reaches_iff.1 hreach
    rw [himage]
    exact ⟨z, hz, BEq.trans (BEq.symm (Dag.label_beq hyz))
      (BEq.trans (BEq.symm (h.imageOf_label hl y)) hyl)⟩
  · rw [himage]
    exact ⟨y, hy, hyl⟩

theorem HasLike.image {new : Graph} (hlike : HasLike b x e)
    (h : Dag.NodeReplaced current new root .empty r)
    (hl : (current.label == new.label) = true) (hedges : ∀ e ∈ current.edges, e ∈ new.edges)
    (hb : b.AllHeads Dag.WellBuilt) : HasLike (b.rekey order r.2) (r.2.imageOf x) e := by
  rcases hlike with ⟨f, hf, hlabel, htail⟩ | ⟨f, hf, hlabel, htail⟩
  · obtain ⟨f', hf', hlabel', htail'⟩ := h.imageOf_edge hl hedges hf
    exact .inl ⟨f', hf', BEq.trans hlabel' hlabel, BEq.trans htail' htail⟩
  · obtain ⟨entry, hentry, hentryx, hf⟩ := BackEdges.mem_edgesOf hf
    have himages : ∀ entry ∈ b.entries, (r.2.imageOf entry.1).WellBuilt :=
      fun entry hentry => h.imageOf_wellBuilt (hb entry hentry)
    refine .inr ⟨BackEdges.moved r.2 entry.1 f, ?_, hlabel,
      BEq.trans (BEq.symm (h.imageOf_label hl f.tail)) htail⟩
    rw [BackEdges.edgesOf_rekey himages]
    refine List.mem_flatMap.2 ⟨entry, BackEdges.Order.mem_arrange.2 hentry, ?_⟩
    rw [if_pos (Dag.Memo.imageOf_congr (hb entry hentry) hentryx)]
    exact List.mem_map_of_mem hf

theorem Twin.image {new : Graph} (ht : Twin root b l e x)
    (h : Dag.NodeReplaced current new root .empty r)
    (hl : (current.label == new.label) = true) (hedges : ∀ e ∈ current.edges, e ∈ new.edges)
    (hb : b.AllHeads Dag.WellBuilt) (hroot : root.WellBuilt) (hne : (root == current) = false) :
    Twin r.1 (b.rekey order r.2) l e (r.2.imageOf x) := by
  have hbelow : ∀ e ∈ current.edges, new.reaches e.2 = true :=
    fun e he => Dag.reaches_of_edge (hedges e he) (Dag.Has.self _).reaches
  refine ⟨h.imageOf_wellBuilt ht.wellBuilt,
    h.under_imageOf hbelow ht.wellBuilt hroot hne ht.reached,
    BEq.trans (BEq.symm (h.imageOf_label hl x)) ht.label, ?_, ht.like.image h hl hedges hb⟩
  obtain ⟨f, hf⟩ := List.exists_mem_of_ne_nil _ ht.grown
  obtain ⟨f', hf', -⟩ := h.imageOf_edge hl hedges hf
  exact List.ne_nil_of_mem hf'

end Replace

theorem Twin.of_like (ht : Twin root b l e x) (hlabel : (e.1 == f.1) = true)
    (htail : (e.2.label == f.2.label) = true) : Twin root b l f x :=
  ⟨ht.wellBuilt, ht.reached, ht.label, ht.grown,
    ht.like.imp (fun ⟨f', hf', hl, ht⟩ => ⟨f', hf', BEq.trans hl hlabel, BEq.trans ht htail⟩)
      fun ⟨f', hf', hl, ht⟩ => ⟨f', hf', BEq.trans hl hlabel, BEq.trans ht htail⟩⟩

theorem Twin.of_label {l' : Component} (ht : Twin root b l e x) (hl : (l == l') = true) :
    Twin root b l' e x :=
  ⟨ht.wellBuilt, ht.reached, BEq.trans ht.label hl, ht.grown, ht.like⟩

/-! ## A pass -/

/-- An edge beside the graph closes a cycle, or its head is bare and has a twin that is not being
expanded. -/
def Closes (busy : Graph → Prop) (root : Graph) (b : BackEdges) (k : Graph) (e : GraphEdge) :
    Prop :=
  Meets e.tail k.label ∨
    k.edges = [] ∧ ¬ busy k ∧ ∃ x, Twin root b k.label (e.label, e.tail) x

/-- A node that was expanded in the pass has back-edges, or a twin for each of the children found
for it. -/
structure Opened (busy : Graph → Prop) (root : Graph) (b : BackEdges) (node : Graph)
    (children : List Resolved) : Prop where
  wellBuilt : node.WellBuilt
  bare : node.edges = []
  idle : ¬ busy node
  like : b.edgesOf node ≠ [] ∨ ∀ e ∈ children, ∃ x, Twin root b node.label e x

structure Pass.Closing (busy : Graph → Prop) (p : Pass) : Prop where
  back : p.backEdges.AllEdges (Closes busy p.root p.backEdges)
  opened : ∀ x ∈ p.expanded, Opened busy p.root p.backEdges x.1 x.2

structure Gathering (s : Settings) (q : List Deferral) (node : Graph) (p : Pass) (current : Graph)
    (done : List Resolved) (rest : List Desire) : Prop where
  growing : Growing s.catalog q p current rest
  needs : ∀ d ∈ rest, d ∈ s.catalog.needs current
  label : current.label = node.label
  grown : current = node ∨ current.edges ≠ []
  closing : p.Closing fun y => (y == current) = true
  like : ∀ e ∈ done, HasLike p.backEdges current e

/-! ## Adding a child -/

theorem Meets.of_label {l' : Component} (h : Meets g l) (hl : (l == l') = true) : Meets g l' := by
  obtain ⟨y, hy, hyl⟩ := h
  exact ⟨y, hy, BEq.trans hyl hl⟩

theorem Gathering.closed (h : Gathering s q node p current done (d :: rest)) (dep : Dependency)
    (hreach : child.reaches node = true) :
    (Settings.closed p current dep child).Closing (fun y => (y == current) = true) ∧
      ∀ e ∈ done ++ [(dep, child)],
        HasLike (Settings.closed p current dep child).backEdges current e := by
  have hb := h.growing.sound.heads
  have hw := h.growing.wellBuilt
  have hmeets : Meets child current.label := by
    obtain ⟨y, hy, hny⟩ := Dag.reaches_iff.1 hreach
    exact ⟨y, hy, h.label ▸ BEq.symm (Dag.label_beq hny)⟩
  refine ⟨⟨?_, fun x hx => ?_⟩, fun e he => ?_⟩
  · refine BackEdges.AllEdges.append (fun entry hentry e he => ?_) hb hw fun k hkw hk e he => ?_
    · refine (h.closing.back entry hentry e he).imp_right fun ⟨hbare, hidle, x, hx⟩ => ?_
      exact ⟨hbare, hidle, x, hx.append hb hw⟩
    · cases List.mem_singleton.1 he
      exact .inl (hmeets.of_label (BEq.symm (Dag.label_beq hk)))
  · obtain ⟨hxw, hbare, hidle, hlike⟩ := h.closing.opened x hx
    refine ⟨hxw, hbare, hidle, hlike.imp (fun hne => ?_) fun hall e he => ?_⟩
    · show (p.backEdges.append current _).edgesOf x.1 ≠ []
      rw [BackEdges.edgesOf_append hb hw]
      split
      · exact List.append_ne_nil_of_left_ne_nil hne _
      · exact hne
    · obtain ⟨y, hy⟩ := hall e he
      exact ⟨y, hy.append hb hw⟩
  · rcases List.mem_append.1 he with he | he
    · exact (h.like e he).append hb hw
    · cases List.mem_singleton.1 he
      refine .inr ⟨⟨current, child, dep⟩, ?_, BEq.rfl, BEq.rfl⟩
      show _ ∈ (p.backEdges.append current _).edgesOf current
      rw [BackEdges.edgesOf_append hb hw, if_pos (Dag.same_refl current)]
      exact List.mem_append_right _ (List.mem_singleton_self _)

theorem imageOf_bare {new : Graph} {r : Graph × Dag.Memo Component Dependency}
    (h : Dag.NodeReplaced current new root .empty r) (hcurrent : current.WellBuilt)
    (hbare : k.edges = []) (hne : ¬ (k == current) = true) : (r.2.imageOf k == k) = true := by
  refine h.imageOf_kept (Bool.eq_false_iff.2 fun hreach => ?_)
  obtain ⟨z, hz, hcz⟩ := Dag.reaches_iff.1 hreach
  rcases hz.eq_or_below with rfl | ⟨e, he, -⟩
  · exact hne (Dag.beq_symm hcurrent hcz)
  · simp [hbare] at he

theorem Gathering.replaced (h : Gathering s q node p current done (d :: rest)) (dep : Dependency)
    (hchild : child.WellBuilt) (tag : Nat) (order : BackEdges.Order) (tag' : Nat) :
    (Settings.replaced p current (withChild current dep child tag) order tag').Closing
      (fun y => (y == withChild current dep child tag) = true) ∧
      ∀ e ∈ done ++ [(dep, child)], HasLike
        (Settings.replaced p current (withChild current dep child tag) order tag').backEdges
        (withChild current dep child tag) e := by
  have hb := h.growing.sound.heads
  have hw := h.growing.wellBuilt
  have hroot := h.growing.sound.wellBuilt
  have hne := h.growing.reached.not_beq
  generalize hnew : withChild current dep child tag = new
  have hnode : Dag.NodeReplaced current new p.root .empty _ :=
    replaced_node hroot (hnew ▸ withChild_wellBuilt hw dep hchild tag) order tag'
  have hl : (current.label == new.label) = true := by
    rw [← hnew, withChild_label]
    exact BEq.rfl
  have hedges : ∀ e ∈ current.edges, e ∈ new.edges := fun e he => hnew ▸ subset_withChild he
  obtain ⟨f, hf, hfdep, hfchild⟩ := hnew ▸ exists_withChild current dep child tag
  have hbelow : ∀ e ∈ current.edges, new.reaches e.2 = true :=
    fun e he => Dag.reaches_of_edge (hedges e he) (Dag.Has.self _).reaches
  have hidle : ∀ k : Graph, k.edges = [] → ¬ (k == new) = true :=
    fun k hbare hk => List.ne_nil_of_mem hf ((Dag.edges_eq_nil_iff hk).1 hbare)
  have himages : ∀ entry ∈ p.backEdges.entries, Dag.WellBuilt _ :=
    fun entry hentry => hnode.imageOf_wellBuilt (hb entry hentry)
  refine ⟨⟨?_, fun x hx => ?_⟩, fun e he => ?_⟩
  · refine BackEdges.AllEdges.rekey himages fun entry hentry e he k hkw hk => ?_
    have hklabel : (entry.1.label == k.label) = true :=
      BEq.trans (hnode.imageOf_label hl entry.1) (BEq.symm (Dag.label_beq hk))
    rcases h.closing.back entry hentry e he with hmeets | ⟨hbare, hbusy, x, hx⟩
    · have htail := (h.growing.sound.edge entry hentry e he).wellBuilt
      exact .inl ((hmeets.image hnode hl hbelow htail).of_label hklabel)
    · have hkbare : k.edges = [] :=
        (Dag.edges_eq_nil_iff (Dag.beq_trans hk (imageOf_bare hnode hw hbare hbusy))).2 hbare
      exact .inr ⟨hkbare, hidle k hkbare, _,
        ((hx.image hnode hl hedges hb hroot hne).of_label hklabel).of_like BEq.rfl
          (hnode.imageOf_label hl e.tail)⟩
  · obtain ⟨hxw, hbare, hbusy, hlike⟩ := h.closing.opened x hx
    refine ⟨hxw, hbare, hidle x.1 hbare, hlike.imp (fun hne => ?_) fun hall e he => ?_⟩
    · obtain ⟨e, he⟩ := List.exists_mem_of_ne_nil _ hne
      obtain ⟨e', he', -⟩ := BackEdges.moved_mem_edgesOf_rekey himages hb he
        (imageOf_bare hnode hw hbare hbusy)
      exact List.ne_nil_of_mem he'
    · obtain ⟨y, hy⟩ := hall e he
      exact ⟨_, hy.image hnode hl hedges hb hroot hne⟩
  · rcases List.mem_append.1 he with he | he
    · have hlike : HasLike (p.backEdges.rekey order _) _ e :=
        (h.like e he).image hnode hl hedges hb
      rwa [hnode.imageOf_old hroot hw h.growing.reached.reaches] at hlike
    · cases List.mem_singleton.1 he
      exact .inl ⟨f, hf, hfdep, Dag.label_beq hfchild⟩

theorem Gathering.added {v : Workspace} {x : Graph × Pass}
    (h : Gathering s w.queue node p current done (d :: rest))
    (hadded : ChildAdded s node current context d p w e x v) :
    Gathering s v.queue node x.2 x.1 (done ++ [e]) rest := by
  obtain ⟨hgrowing, hlabel, -⟩ := hadded.growing h.growing (h.needs d List.mem_cons_self)
  have hneeds : ∀ d ∈ rest, d ∈ s.catalog.needs x.1 :=
    fun d hd => Catalog.needs_congr hlabel ▸ h.needs d (List.mem_cons_of_mem _ hd)
  rcases hadded.leads with ⟨hreach, rfl⟩ | ⟨-, tag, order, tag', rfl⟩
  · obtain ⟨hclosing, hlike⟩ := h.closed e.1 hreach
    exact ⟨hgrowing, hneeds, h.label, h.grown, hclosing, hlike⟩
  · have hchild := (hadded.raw _ (.self _)).wellBuilt
    obtain ⟨hclosing, hlike⟩ := h.replaced e.1 hchild tag order tag'
    obtain ⟨f, hf, -⟩ := exists_withChild current e.1 e.2 tag
    exact ⟨hgrowing, hneeds, hlabel.trans h.label, .inr (List.ne_nil_of_mem hf), hclosing, hlike⟩

/-! ## One deferral -/

/-- Between two deferrals every edge beside the graph closes a cycle or has a twin. -/
abbrev Pass.Closed (p : Pass) : Prop := p.Closing fun _ => False

theorem Pass.Closed.start (hp : p.Closed) (hidle : p.Idle s.catalog (deferral :: q))
    (hbare : Bare deferral.node.label deferral.node)
    (hskip : (p.backEdges.contains deferral.node || !p.root.reaches deferral.node) = false)
    (hchildren : p.children? deferral.node = none) :
    Gathering s q deferral.node p deferral.node [] (s.catalog.needs deferral.node) := by
  refine ⟨hidle.start hbare (reaches_of_skip hskip), fun _ hd => hd, rfl, .inl rfl,
    ⟨fun entry hentry e he => ?_, fun x hx => ?_⟩, List.forall_mem_nil _⟩
  · refine (hp.back entry hentry e he).imp_right fun ⟨hedges, _, htwin⟩ => ⟨hedges, ?_, htwin⟩
    intro hk
    rw [BackEdges.contains_iff.2 ⟨entry, hentry, hk⟩] at hskip
    cases hskip
  · obtain ⟨hxw, hedges, -, hlike⟩ := hp.opened x hx
    refine ⟨hxw, hedges, fun hxh => ?_, hlike⟩
    unfold Pass.children? at hchildren
    have hnone := List.find?_eq_none.1 (Option.map_eq_none_iff.1 hchildren) x hx
    exact hnone hxh

theorem Gathering.finish {children : List Resolved} (ho : Gathering s q node p current children [])
    (hw : node.WellBuilt) (hbare : node.edges = []) :
    Pass.Closed { p with expanded := p.expanded ++ [(node, children)] } := by
  refine ⟨fun entry hentry e he => ?_, fun x hx => ?_⟩
  · refine (ho.closing.back entry hentry e he).imp_right fun ⟨hedges, _, htwin⟩ => ?_
    exact ⟨hedges, id, htwin⟩
  · rcases List.mem_append.1 hx with hx | hx
    · obtain ⟨hxw, hedges, -, hlike⟩ := ho.closing.opened x hx
      exact ⟨hxw, hedges, id, hlike⟩
    · cases List.mem_singleton.1 hx
      refine ⟨hw, hbare, id, ?_⟩
      rcases ho.grown with rfl | hgrown
      · cases children with
        | nil => exact .inr (List.forall_mem_nil _)
        | cons e children =>
          -- The first child is not below the bare node, so it is beside the graph.
          rcases ho.like e List.mem_cons_self with ⟨f, hf, -⟩ | ⟨f, hf, -⟩
          · simp [hbare] at hf
          · exact .inl (List.ne_nil_of_mem hf)
      · exact .inr fun e he => ⟨current, ho.growing.wellBuilt, ho.growing.reached,
          ho.label ▸ BEq.rfl, hgrown, ho.like e he⟩

/-- The node that was expanded has no back-edges, or the equal node would have been skipped. So it
has a twin for each child. -/
theorem Pass.Closed.repeated {children : List Resolved} (hp : p.Closed)
    (hheads : p.backEdges.AllHeads Dag.WellBuilt) (hw : node.WellBuilt) (hbare : node.edges = [])
    (hskip : p.backEdges.contains node = false) (hchildren : p.children? node = some children) :
    (Settings.repeated p node children).Closed := by
  obtain ⟨x, hx, hxnode, rfl⟩ := p.exists_of_children? hchildren
  have hnone : p.backEdges.edgesOf node = [] := by
    refine List.eq_nil_iff_forall_not_mem.2 fun e he => ?_
    obtain ⟨entry, hentry, hentrynode, -⟩ := BackEdges.mem_edgesOf he
    rw [BackEdges.contains_iff.2 ⟨entry, hentry, hentrynode⟩] at hskip
    cases hskip
  refine ⟨?_, fun y hy => ?_⟩
  · refine BackEdges.AllEdges.set (fun entry hentry e he => ?_) hheads hw fun k hkw hk e he => ?_
    · refine (hp.back entry hentry e he).imp_right fun ⟨hedges, hidle, y, htwin⟩ => ?_
      exact ⟨hedges, hidle, y, htwin.set hheads hw hbare⟩
    · obtain ⟨child, hchild, rfl⟩ := List.mem_map.1 he
      obtain ⟨hxw, -, -, hlike⟩ := hp.opened x hx
      have hall := hlike.resolve_left fun hne => hne (BackEdges.edgesOf_congr hxw hxnode ▸ hnone)
      obtain ⟨y, htwin⟩ := hall child hchild
      have hl := BEq.trans (Dag.label_beq hxnode) (BEq.symm (Dag.label_beq hk))
      exact .inr ⟨(Dag.edges_eq_nil_iff hk).2 hbare, id, y,
        (htwin.of_label hl).set hheads hw hbare⟩
  · obtain ⟨hyw, hedges, hidle, hlike⟩ := hp.opened y hy
    refine ⟨hyw, hedges, hidle, hlike.imp (fun hne => ?_) fun hall e he => ?_⟩
    · have hother : (node == y.1) = false := by
        rw [Bool.eq_false_iff]
        exact fun h => hne (BackEdges.edgesOf_congr hw h ▸ hnone)
      show (p.backEdges.set node _).edgesOf y.1 ≠ []
      rwa [BackEdges.edgesOf_set hheads hw, hother, if_neg Bool.false_ne_true]
    · obtain ⟨z, htwin⟩ := hall e he
      exact ⟨z, htwin.set hheads hw hbare⟩

theorem Pass.Closed.processDeferral (hp : p.Closed) (hidle : p.Idle s.catalog (deferral :: w.queue))
    (hpool : PoolBuilt w) (hbare : Bare deferral.node.label deferral.node)
    (hrun : (s.processDeferral p deferral).Runs w (.ok p') w') : p'.Closed := by
  cases runs_processDeferral.1 hrun with
  | skipped _ => exact hp
  | repeated hskip hchildren =>
    exact hp.repeated hidle.heads hbare.wellBuilt hbare.edges (Bool.or_eq_false_iff.1 hskip).1
      hchildren
  | expanded hskip hchildren hexpand =>
    obtain ⟨⟨current, hgathering⟩, -⟩ := gathers_of_expandChildren
      (I := fun q p current done ds => Gathering s q deferral.node p current done ds)
      (fun hadded hgathering => hgathering.added hadded) _ [] hpool hexpand
      (hp.start hidle hbare hskip hchildren)
    exact hgathering.finish hbare.wellBuilt hbare.edges

/-! ## Calls -/

namespace Solver

variable {v : Solver}

theorem Reachable.closed (hv : Reachable s v) :
    v.backEdges.AllEdges (Closes (fun _ => False) v.graph v.backEdges) := by
  induction hv with
  | fresh _ _ => exact nofun
  | @resolve v d tag hv ih =>
    obtain ⟨hsound, rfl⟩ := hv.sound
    obtain ⟨o, w', hcalls, -, hsolver⟩ := v.exists_calls d tag
    rw [hsolver]
    cases o with
    | error e => exact ih
    | ok p =>
      obtain ⟨edge, node, tag, w1, w2, -, -, -, -, hready, hdrains⟩ :=
        hcalls.linked hsound (hsound.poolBuilt _) rfl
      have hlinked : Pass.Closed
          { root := withChild v.graph edge.1 node tag, backEdges := v.backEdges } := by
        refine ⟨fun entry hentry e he => ?_, nofun⟩
        refine (ih entry hentry e he).imp_right fun ⟨hedges, hidle, x, htwin⟩ => ?_
        exact ⟨hedges, hidle, x, htwin.link edge.1 node tag⟩
      have hend := hdrains.keeps (I := fun q p => p.Idle v.settings.catalog q ∧ p.Closed)
        (fun hpool hbare hI hrun => ⟨hI.1.processDeferral hpool hbare hrun,
          hI.2.processDeferral hI.1 hpool hbare hrun⟩)
        hready.pool hready.bare ⟨hready.idle, hlinked⟩ rfl
      exact hend.2.back

theorem Reachable.closes_or_copies (hv : Reachable s v) {entry : Graph × List GraphEdge}
    (hentry : entry ∈ v.backEdges.entries) {e : GraphEdge} (he : e ∈ entry.2) :
    Meets e.tail entry.1.label ∨
      entry.1.edges = [] ∧ ∃ x, v.graph.reaches x = true ∧ (x.label == entry.1.label) = true ∧
        x.edges ≠ [] ∧ HasLike v.backEdges x (e.label, e.tail) :=
  (hv.closed entry hentry e he).imp_right fun ⟨hedges, _, x, htwin⟩ =>
    ⟨hedges, x, htwin.reached.reaches, htwin.label, htwin.grown, htwin.like⟩

/-- After any calls every edge beside the graph closes a cycle over the edges of the graph, or it
leaves a bare node although a node of the graph with the same component has edges, one of them like
it. Where no component is on a bare node and on one that has edges, every edge beside the graph
closes a cycle. -/
theorem closes_of_reachable (hv : Reachable s v) :
    (∀ entry ∈ v.backEdges.entries, ∀ e ∈ entry.2, Meets e.tail entry.1.label ∨
      entry.1.edges = [] ∧ ∃ x, v.graph.reaches x = true ∧ (x.label == entry.1.label) = true ∧
        x.edges ≠ [] ∧ HasLike v.backEdges x (e.label, e.tail)) ∧
    ((∀ x y, v.graph.reaches x = true → v.graph.reaches y = true → (x.label == y.label) = true →
        y.edges = [] → x.edges = []) →
      ∀ entry ∈ v.backEdges.entries, ∀ e ∈ entry.2, Meets e.tail entry.1.label) := by
  refine ⟨fun entry hentry e he => hv.closes_or_copies hentry he, fun hapart entry hentry e he =>
    (hv.closes_or_copies hentry he).resolve_right ?_⟩
  rintro ⟨hedges, x, hx, hlabel, hgrown, -⟩
  obtain ⟨hsound, -⟩ := hv.sound
  obtain ⟨-, hunder, -⟩ := hsound.head entry hentry
  exact hgrown (hapart x entry.1 hx hunder.reaches hlabel hedges)

/-- A class with a provider, needed directly and again behind another provider. -/
theorem closes_of_two_copies :
    let c : Catalog := .freeze [
      ⟨.named "M", true, [], [⟨some (.named "M"), "x", .provider (.named "N"), none, false⟩], {},
        .noPreference, none, none⟩,
      ⟨.named "N", true, [], [], {}, .noPreference, none, none⟩,
      ⟨.named "R", true, [], [⟨some (.named "R"), "m", .named "M", none, false⟩,
        ⟨some (.named "R"), "h", .provider (.named "H"), none, false⟩], {}, .noPreference, none,
        none⟩,
      ⟨.named "H", true, [], [⟨some (.named "H"), "m", .named "M", none, false⟩], {},
        .noPreference, none, none⟩] []
    let s : Settings := .ofConfig c [] {}
    let v := ((((ofSettings s).run 0).1.resolve (c.rootDesire (.named "R") none)).run 1).1.solver
    Reachable s v ∧ ∀ entry ∈ v.backEdges.entries, ∀ e ∈ entry.2, Meets e.tail entry.1.label ∨
      entry.1.edges = [] ∧ ∃ x, v.graph.reaches x = true ∧ (x.label == entry.1.label) = true ∧
        x.edges ≠ [] ∧ HasLike v.backEdges x (e.label, e.tail) := by
  intro c s v
  have hv : Reachable s v := .resolve (c.rootDesire (.named "R") none) 1 (.fresh _ 0)
  exact ⟨hv, (closes_of_reachable hv).1⟩

end Solver

end Wiring
