import Wiring.Proofs.Solver.Representation

/-!
# Back-edges of several graphs

A revision keeps the back-edges of every tree it resolves again beside those of the solver's own
graph. A pass over one of the trees takes what is stored for a node to what the node becomes, also
where the node is in another graph that stays as it was. So no back-edge is lost, but it may end up
under a head that its graph does not have.
-/

namespace Wiring

open Work Settings Catalog

variable {c : Catalog} {s : Settings} {whole : Prop} {q : List Deferral} {p p' : Pass}
  {f : Deferral} {x y z k root current child parent node : Graph} {dep : Dependency} {d : Desire}
  {context : Context} {w w' : Workspace} {b b' b'' before : BackEdges}

/-! ## Where entries go -/

/-- What a node becomes while nodes at or below it are given more edges, one by one. -/
inductive Becomes (x : Graph) : Graph → Prop
  | refl : Becomes x x
  | equal {y z : Graph} : Becomes x y → (y == z) = true → Becomes x z
  | replaced {y root current child : Graph} {dep : Dependency} {tag : Nat}
      {r : Graph × Dag.Memo Component Dependency} : Becomes x y →
      Dag.NodeReplaced current (withChild current dep child tag) root .empty r →
      Becomes x (r.2.imageOf y)

theorem Becomes.trans (h : Becomes x y) (h' : Becomes y z) : Becomes x z := by
  induction h' with
  | refl => exact h
  | equal _ hyz ih => exact ih.equal hyz
  | replaced _ hr ih => exact ih.replaced hr

theorem Becomes.of_beq (hxy : (x == y) = true) (h : Becomes y z) : Becomes x z :=
  (Becomes.refl.equal hxy).trans h

/-- What was stored for a node is stored for what the node has become. -/
def Retains (b b' : BackEdges) : Prop :=
  ∀ x d, HasBackEdge b x d → ∃ y, Becomes x y ∧ HasBackEdge b' y d

theorem Retains.refl (b : BackEdges) : Retains b b := fun x _ h => ⟨x, .refl, h⟩

theorem Retains.trans (h : Retains b b') (h' : Retains b' b'') : Retains b b'' := by
  intro x d hx
  obtain ⟨y, hxy, hy⟩ := h x d hx
  obtain ⟨z, hyz, hz⟩ := h' y d hy
  exact ⟨z, hxy.trans hyz, hz⟩

theorem retains_append (hheads : b.AllHeads Dag.WellBuilt) (hk : k.WellBuilt)
    (es : List GraphEdge) : Retains b (b.append k es) :=
  fun x _ h => ⟨x, .refl, h.append hheads hk⟩

theorem retains_rekey {tag : Nat} {r : Graph × Dag.Memo Component Dependency}
    {order : BackEdges.Order} (hheads : b.AllHeads Dag.WellBuilt)
    (h : Dag.NodeReplaced current (withChild current dep child tag) root .empty r) :
    Retains b (b.rekey order r.2) :=
  fun x _ hx => ⟨r.2.imageOf x, .replaced .refl h,
    hx.rekey hheads (fun e he => h.imageOf_wellBuilt (hheads e he)) (Dag.same_refl _)⟩

theorem retains_set (hheads : b.AllHeads Dag.WellBuilt) (hnode : node.WellBuilt)
    (hnew : b.contains node = false) (es : List GraphEdge) : Retains b (b.set node es) := by
  rintro x d ⟨e, he, hed⟩
  refine ⟨x, .refl, e, ?_, hed⟩
  have hne : ¬ (node == x) = true := by
    intro hx
    obtain ⟨entry, hentry, hk, -⟩ := BackEdges.mem_edgesOf he
    have := BackEdges.contains_iff.2
      ⟨entry, hentry, Dag.beq_trans hk (Dag.beq_symm hnode hx)⟩
    simp [hnew] at this
  rwa [BackEdges.edgesOf_set hheads hnode, if_neg hne]

/-- Every declared dependency has an edge, or a back-edge under what the node has become. -/
def Catalog.Kept (c : Catalog) (b : BackEdges) (y : Graph) : Prop :=
  ∀ d ∈ c.needs y, HasEdge y d ∨ ∃ k, Becomes y k ∧ HasBackEdge b k d

theorem Catalog.Covered.kept (h : c.Covered b y) : c.Kept b y :=
  fun d hd => (h d hd).imp_right fun hback => ⟨y, .refl, hback⟩

theorem Catalog.Kept.mono (h : c.Kept b y) (hb : Retains b b') : c.Kept b' y := by
  intro d hd
  refine (h d hd).imp_right ?_
  rintro ⟨k, hk, hback⟩
  obtain ⟨k', hk', hback'⟩ := hb k d hback
  exact ⟨k', hk.trans hk', hback'⟩

theorem Catalog.Kept.of_beq (h : c.Kept b y) (hy : y.WellBuilt) (hz : (y == z) = true) :
    c.Kept b z := by
  intro d hd
  obtain ⟨d', hd', hdd⟩ := needs_of_beq (Dag.beq_symm hy hz) hd
  rcases h d' hd' with hedge | ⟨k, hk, e, he, hed⟩
  · exact .inl (hedge.of_beq hz (BEq.symm hdd))
  · exact .inr ⟨k, hk.of_beq (Dag.beq_symm hy hz), e, he, BEq.trans hed (BEq.symm hdd)⟩

/-! ## A pass -/

structure Pass.Holds (c : Catalog) (whole : Prop) (before : BackEdges) (q : List Deferral)
    (p : Pass) : Prop where
  tending : Tending.Idle c whole q p.root p.backEdges
  retains : Retains before p.backEdges
  children : ∀ e ∈ p.expanded, FoundChildren c e.1 e.2

structure Pass.Fills (c : Catalog) (whole : Prop) (before : BackEdges)
    (found : List (Graph × List Resolved)) (q : List Deferral) (p : Pass) (current : Graph)
    (rest : List Desire) : Prop where
  filling : Filling c whole q p.root p.backEdges current rest
  retains : Retains before p.backEdges
  expanded : p.expanded = found

theorem Pass.Fills.added {found : List (Graph × List Resolved)} {ds : List Desire}
    {edge : Resolved} {x : Graph × Pass} {v : Workspace}
    (h : ChildAdded s parent current context d p w edge x v)
    (hp : p.Fills s.catalog whole before found w.queue current (d :: ds)) :
    x.2.Fills s.catalog whole before found v.queue x.1 ds := by
  have hg := hp.filling.mono h.queue
  rcases h.choice with rfl | ⟨tag, order, tag', rfl⟩
  · exact ⟨hg.closed h.initial edge.2, hp.retains.trans (retains_append hg.heads hg.built _),
      hp.expanded⟩
  · have hnew := withChild_wellBuilt hg.built edge.1 (h.raw edge.2 (.self _)).wellBuilt tag
    have hr : Dag.NodeReplaced current (withChild current edge.1 edge.2 tag) p.root .empty _ :=
      replaced_node hg.wellBuilt hnew order tag'
    exact ⟨hg.replaced hr h.initial h.raw, hp.retains.trans (retains_rekey hg.heads hr),
      hp.expanded⟩

theorem Pass.Holds.processDeferral (h : p.Holds s.catalog whole before (f :: w.queue))
    (hpool : PoolBuilt w) (hbare : Bare f.node.label f.node)
    (hrun : (s.processDeferral p f).Runs w (.ok p') w') :
    p'.Holds s.catalog whole before w'.queue := by
  have hf := hbare.wellBuilt
  cases runs_processDeferral.1 hrun with
  | skipped hskip => exact ⟨h.tending.drop hskip, h.retains, h.children⟩
  | repeated hskip hchildren =>
    obtain ⟨x, hx, hxf, rfl⟩ := p.exists_of_children? hchildren
    have hfound := (h.children x hx).of_beq hxf
    have hnew : p.backEdges.contains f.node = false := (Bool.or_eq_false_iff.1 hskip).1
    exact ⟨h.tending.again hf hfound.complete,
      h.retains.trans (retains_set h.tending.heads hf hnew _), h.children⟩
  | expanded hskip _ hexpand =>
    have hstart := h.tending.start hf (reaches_of_skip hskip)
    obtain ⟨⟨_, hfills⟩, hchildren⟩ := keeps_of_expandChildren (I := fun q p' current ds =>
      p'.Fills s.catalog whole before p.expanded q current ds)
      (fun hadded hp => hp.added hadded) _ hpool hexpand ⟨hstart, h.retains, rfl⟩
    refine ⟨hfills.filling.finish, hfills.retains, fun e he => ?_⟩
    rcases List.mem_append.1 he with he | he
    · exact h.children e (hfills.expanded ▸ he)
    · cases List.mem_singleton.1 he
      exact foundChildren hchildren

theorem Settings.Drains.holds {o : Attempt Pass} (h : Drains s p w o w') (hpool : PoolBuilt w)
    (hbare : ∀ f ∈ w.queue, Bare f.node.label f.node)
    (hp : p.Holds s.catalog whole before w.queue) (ho : o = .ok p') :
    p'.Holds s.catalog whole before [] :=
  h.keeps (fun hpool hbare hp hrun => hp.processDeferral hpool hbare hrun) hpool hbare hp ho

end Wiring
