import Wiring.Proofs.Export.Closure

/-!
# What is exported

Every node that edges and back-edges lead to is exported once, but for root nodes where these are
left out. Every edge and back-edge of an exported node is exported once if the node it leads to is,
so none is lost but those that lead to a root node left out.
-/

namespace Wiring

open Dag

variable {b : BackEdges} {g n x y : Graph} {nodes : List Graph} {ids : List (Graph × String)}
  {includeRoot : Bool} {a : GraphEdge × Bool} {source id : String}

/-! ## Nodes -/

def isShown (includeRoot : Bool) (n : Graph) : Bool := includeRoot || !n.label.isRoot

theorem Component.isRoot_of_beq {c k : Component} (h : (c == k) = true) : c.isRoot = k.isRoot := by
  have h := (Satisfaction.beq_iff _ _).mp ((beq_iff c k).mp h).1
  unfold isRoot
  cases hc : c.satisfaction <;> cases hk : k.satisfaction <;>
    simp_all [Satisfaction.essence]

theorem isShown_of_beq (h : (x == y) = true) : isShown includeRoot x = isShown includeRoot y := by
  rw [isShown, isShown, Component.isRoot_of_beq (label_beq h)]

structure ShownNodes (b : BackEdges) (g : Graph) (includeRoot : Bool) (nodes : List Graph) :
    Prop where
  once : ∀ x, Linked b g x → isShown includeRoot x = true → nodes.countP (x == ·) = 1
  only : ∀ x ∈ nodes, Linked b g x ∧ isShown includeRoot x = true

theorem shownNodes_allNodes (hg : g.WellBuilt) (hheads : b.AllHeads WellBuilt)
    (htails : b.AllEdges fun _ e => e.tail.WellBuilt) (includeRoot : Bool) (o : PartOrder) :
    ShownNodes b g includeRoot ((allNodes g b o).filter (isShown includeRoot)) := by
  have hlisting := listing_allNodes hheads g o
  refine ⟨fun x hx hshown => ?_, fun x hx => ?_⟩
  · rw [List.countP_filter, ← hlisting.once hg htails hx]
    refine List.countP_congr fun y _ => ?_
    rw [Bool.and_eq_true, and_iff_left_iff_imp]
    exact fun hxy => isShown_of_beq hxy ▸ hshown
  · obtain ⟨hx, hshown⟩ := List.mem_filter.mp hx
    exact ⟨hlisting.linked x (.inl hx), hshown⟩

/-! ## Ids -/

theorem map_fst_withIds (nodes : List Graph) : (withIds nodes).map (·.1) = nodes := by
  simp [withIds, Function.comp_def]

theorem fst_mem_of_mem_withIds (h : (n, id) ∈ withIds nodes) : n ∈ nodes := by
  rw [← map_fst_withIds nodes]
  exact List.mem_map_of_mem h

theorem repr_inj {i j : Nat} (h : i.repr = j.repr) : i = j := by
  rw [Nat.repr_eq_ofList_toDigits, Nat.repr_eq_ofList_toDigits, String.ofList_inj] at h
  have hread (n : Nat) : Nat.ofDigitChars 10 (Nat.toDigits 10 n) 0 = n :=
    Nat.ofDigitChars_toDigits (by decide) (by decide)
  rw [← hread i, h, hread]

theorem exportId_inj {c k : Component} {i j : Nat} (h : exportId c i = exportId k j) :
    i = j ∨ c.isRoot = true ∧ k.isRoot = true := by
  have hroot : ∀ n : Nat, "root" ≠ "n" ++ toString n := by
    intro n h
    have := congrArg String.toList h
    simp at this
  unfold exportId at h
  split at h <;> split at h
  · exact .inr ⟨‹_›, ‹_›⟩
  · exact absurd h (hroot j)
  · exact absurd h.symm (hroot i)
  · exact .inl (repr_inj (by simpa using h))

theorem withIds_inj {s t : Graph × String} (hs : s ∈ withIds nodes) (ht : t ∈ withIds nodes)
    (h : s.2 = t.2) : s = t ∨ s.1.label.isRoot = true ∧ t.1.label.isRoot = true := by
  obtain ⟨⟨x, i⟩, hx, rfl⟩ := List.mem_map.mp hs
  obtain ⟨⟨y, j⟩, hy, rfl⟩ := List.mem_map.mp ht
  refine (exportId_inj h).imp_left fun hij => ?_
  dsimp only at hij
  subst hij
  rw [List.mk_mem_zipIdx_iff_getElem?] at hx hy
  rw [Option.some.inj (hx.symm.trans hy)]

/-! ## Links -/

/-- The edges of a node and the back-edges stored under it, with a mark on the latter. -/
def arrowsOf (b : BackEdges) (n : Graph) : List (GraphEdge × Bool) :=
  n.outgoing.map (·, false) ++ (b.edgesOf n).map fun e => (⟨n, e.tail, e.label⟩, true)

/-- The link goes from the node of an arrow to the exported node that equals its tail, and says of
the arrow what there is to say. -/
structure ExportLink.Shows (ids : List (Graph × String)) (l : ExportLink) (a : GraphEdge × Bool) :
    Prop where
  source : (a.1.head, l.source) ∈ ids
  target : ∃ n, (n, l.target) ∈ ids ∧ (n == a.1.tail) = true
  injectionPoint : l.injectionPoint = a.1.label.initial.point.text
  qualifier : l.qualifier = a.1.label.initial.point.qualifier.map (·.text)
  fixed : l.fixed = a.1.label.fixed
  backEdge : l.backEdge = a.2

theorem exportLinks_eq (b : BackEdges) (ids : List (Graph × String)) (n : Graph) (source : String) :
    exportLinks b ids n source =
      (arrowsOf b n).filterMap fun a => exportLink ids source a.1.label a.1.tail a.2 := by
  simp [exportLinks, arrowsOf, Dag.outgoing, List.filterMap_append, List.filterMap_map,
    Function.comp_def]

theorem head_of_mem_arrowsOf (h : a ∈ arrowsOf b n) : a.1.head = n := by
  simp only [arrowsOf, Dag.outgoing, List.map_map, List.mem_append, List.mem_map,
    Function.comp_apply] at h
  rcases h with ⟨e, -, rfl⟩ | ⟨e, -, rfl⟩ <;> rfl

theorem linked_of_mem_arrowsOf (hn : Linked b g n) (h : a ∈ arrowsOf b n) :
    Linked b g a.1.tail := by
  simp only [arrowsOf, Dag.outgoing, List.map_map, List.mem_append, List.mem_map,
    Function.comp_apply] at h
  rcases h with ⟨e, he, rfl⟩ | ⟨e, he, rfl⟩
  · exact .edge hn he
  · show Linked b g e.tail
    exact .back hn he

theorem exists_of_idOf? (h : idOf? ids x = some id) : ∃ n, (n, id) ∈ ids ∧ (n == x) = true := by
  obtain ⟨⟨n, _⟩, hfind, rfl⟩ := Option.map_eq_some_iff.mp h
  exact ⟨n, List.mem_of_find?_eq_some hfind, by simpa using List.find?_some hfind⟩

theorem isSome_idOf? : (idOf? ids x).isSome = ids.any (·.1 == x) := by
  rw [idOf?, Option.isSome_map, List.isSome_find?]

theorem exportLink_of_shown (hnodes : ShownNodes b g includeRoot nodes) (ha : a.1.tail.WellBuilt)
    (hlinked : Linked b g a.1.tail) (hshown : isShown includeRoot a.1.tail = true)
    (hsource : (a.1.head, source) ∈ withIds nodes) :
    ∃ l, exportLink (withIds nodes) source a.1.label a.1.tail a.2 = some l ∧
      l.Shows (withIds nodes) a := by
  have hone := hnodes.once a.1.tail hlinked hshown
  obtain ⟨z, hz, htail⟩ := List.countP_pos_iff.mp (hone ▸ Nat.one_pos)
  have hsome : (idOf? (withIds nodes) a.1.tail).isSome = true := by
    rw [← map_fst_withIds nodes] at hz
    obtain ⟨i, hi, rfl⟩ := List.mem_map.mp hz
    rw [isSome_idOf?]
    exact List.any_eq_true.mpr ⟨i, hi, beq_symm ha htail⟩
  obtain ⟨target, htarget⟩ := Option.isSome_iff_exists.mp hsome
  refine ⟨_, by rw [exportLink, htarget, Option.map_some], ?_⟩
  exact ⟨hsource, exists_of_idOf? htarget, rfl, rfl, rfl, rfl⟩

theorem exportLink_of_hidden (hnodes : ShownNodes b g includeRoot nodes)
    (hhidden : isShown includeRoot x = false) (d : Dependency) (backEdge : Bool) :
    exportLink (withIds nodes) source d x backEdge = none := by
  rw [exportLink, Option.map_eq_none_iff, Option.eq_none_iff_forall_ne_some]
  intro target htarget
  obtain ⟨n, hn, hnx⟩ := exists_of_idOf? htarget
  have hshown := (hnodes.only n (fst_mem_of_mem_withIds hn)).2
  rw [isShown_of_beq hnx, hhidden] at hshown
  cases hshown

theorem forall₂_filterMap {α β : Type} {R : β → α → Prop} {f : α → Option β} {p : α → Bool}
    {as : List α} (hkeep : ∀ a ∈ as, p a = true → ∃ b, f a = some b ∧ R b a)
    (hdrop : ∀ a ∈ as, p a = false → f a = none) :
    List.Forall₂ R (as.filterMap f) (as.filter p) := by
  induction as with
  | nil => exact .nil
  | cons a as ih =>
    obtain ⟨hkeep, hkeeps⟩ := List.forall_mem_cons.mp hkeep
    obtain ⟨hdrop, hdrops⟩ := List.forall_mem_cons.mp hdrop
    cases hp : p a with
    | true =>
      obtain ⟨b, hb, hba⟩ := hkeep hp
      rw [List.filterMap_cons_some hb, List.filter_cons_of_pos hp]
      exact .cons hba (ih hkeeps hdrops)
    | false =>
      rw [List.filterMap_cons_none (hdrop hp), List.filter_cons_of_neg (by simp [hp])]
      exact ih hkeeps hdrops

theorem forall₂_flatMap {α β γ : Type} {R : β → γ → Prop} {f : α → List β} {f' : α → List γ}
    {as : List α} (h : ∀ a ∈ as, List.Forall₂ R (f a) (f' a)) :
    List.Forall₂ R (as.flatMap f) (as.flatMap f') := by
  induction as with
  | nil => exact .nil
  | cons a as ih =>
    obtain ⟨ha, has⟩ := List.forall_mem_cons.mp h
    exact List.rel_append ha (ih has)

def shownArrows (b : BackEdges) (includeRoot : Bool) (nodes : List Graph) :
    List (GraphEdge × Bool) :=
  (nodes.flatMap (arrowsOf b)).filter fun a => isShown includeRoot a.1.tail

theorem links_show (hg : g.WellBuilt) (htails : b.AllEdges fun _ e => e.tail.WellBuilt)
    (hnodes : ShownNodes b g includeRoot nodes) :
    List.Forall₂ (ExportLink.Shows (withIds nodes))
      ((withIds nodes).flatMap fun i => exportLinks b (withIds nodes) i.1 i.2)
      (shownArrows b includeRoot nodes) := by
  have harrows : shownArrows b includeRoot nodes = (withIds nodes).flatMap fun i =>
      (arrowsOf b i.1).filter fun a => isShown includeRoot a.1.tail := by
    conv_lhs => rw [shownArrows, ← map_fst_withIds nodes, List.flatMap_map, List.filter_flatMap]
  rw [harrows]
  refine forall₂_flatMap fun i hi => ?_
  obtain ⟨hlinked, -⟩ := hnodes.only i.1 (fst_mem_of_mem_withIds hi)
  rw [exportLinks_eq]
  apply forall₂_filterMap
  · intro a ha hshown
    have htail := linked_of_mem_arrowsOf hlinked ha
    apply exportLink_of_shown hnodes (linked_wellBuilt hg htails htail) htail hshown
    rw [head_of_mem_arrowsOf ha]
    exact hi
  · intro a _ hhidden
    exact exportLink_of_hidden hnodes hhidden _ _

/-! ## The export -/

theorem countP_backEdge {ls : List ExportLink} {as : List (GraphEdge × Bool)}
    (h : List.Forall₂ (ExportLink.Shows ids) ls as) : ls.countP (·.backEdge) = as.countP (·.2) := by
  induction h with
  | nil => rfl
  | cons hla _ ih => rw [List.countP_cons, List.countP_cons, ih, hla.backEdge]

theorem CachePolicy.text_beq_memoize (p : CachePolicy) :
    (p.text == memoize.text) = (p == memoize) := by
  cases p <;> decide

/-- The exported node says of a node with so many in front of it what there is to say. -/
structure ExportNode.Shows (b : BackEdges) (m : ExportNode) (n : Graph × Nat) : Prop where
  id : m.id = if n.1.label.isRoot then "root" else "n" ++ toString n.2
  typeName : m.typeName = n.1.label.satisfaction.type.text
  kind : m.kind = n.1.label.satisfaction.kind
  cachePolicy : m.cachePolicy = n.1.label.policy.text
  label : m.label = n.1.label.text
  facts : m.facts =
    ((b.get? n.1).map fun es => ("back_edges", toString es.length)).toList ++
      [("dependencies", toString n.1.edges.length)]

theorem ExportNode.shows_iff {m : ExportNode} {n : Graph × Nat} :
    m.Shows b n ↔ m = exportNode b n.1 (exportId n.1.label n.2) := by
  constructor
  · rintro ⟨hid, htype, hkind, hpolicy, hlabel, hfacts⟩
    obtain ⟨_, _, _, _, _, _⟩ := m
    subst hid htype hkind hpolicy hlabel hfacts
    rfl
  · rintro rfl
    exact ⟨rfl, rfl, rfl, rfl, rfl, rfl⟩

def GraphExport.named (x : GraphExport) (ns : List Graph) : List (Graph × String) :=
  ns.zip (x.nodes.map (·.id))

/-- The graph with its back-edges is exported as its nodes, numbered, and their edges and
back-edges. -/
structure GraphExport.Of (g : Graph) (b : BackEdges) (includeRoot : Bool) (ns : List Graph)
    (x : GraphExport) : Prop where
  shown : ShownNodes b g includeRoot ns
  nodes : List.Forall₂ (ExportNode.Shows b) x.nodes ns.zipIdx
  ids : ∀ s ∈ x.named ns, ∀ t ∈ x.named ns, s.2 = t.2 →
    s = t ∨ s.1.label.isRoot = true ∧ t.1.label.isRoot = true
  links : List.Forall₂ (ExportLink.Shows (x.named ns)) x.links (shownArrows b includeRoot ns)
  nodeCount : x.nodeCount = ns.length
  linkCount : x.linkCount = (shownArrows b includeRoot ns).length
  backEdgeCount : x.backEdgeCount = (shownArrows b includeRoot ns).countP (·.2)
  memoizedCount : x.memoizedCount = ns.countP (·.label.policy == .memoize)

theorem forall₂_shows_iff {ms : List ExportNode} :
    List.Forall₂ (ExportNode.Shows b) ms nodes.zipIdx ↔
      ms = (withIds nodes).map fun i => exportNode b i.1 i.2 := by
  have hmap : (withIds nodes).map (fun i => exportNode b i.1 i.2) =
      nodes.zipIdx.map fun n => exportNode b n.1 (exportId n.1.label n.2) := by
    rw [withIds, List.map_map]
    rfl
  rw [hmap, ← List.forall₂_eq_eq_eq, List.forall₂_map_right_iff]
  exact ⟨fun h => h.imp fun _ _ => ExportNode.shows_iff.mp,
    fun h => h.imp fun _ _ => ExportNode.shows_iff.mpr⟩

theorem GraphExport.named_eq {x : GraphExport}
    (h : x.nodes = (withIds nodes).map fun i => exportNode b i.1 i.2) :
    x.named nodes = withIds nodes := by
  have hids : x.nodes.map (·.id) = (withIds nodes).map (·.2) := by
    rw [h, List.map_map]
    rfl
  have hunzip := List.zip_unzip (withIds nodes)
  rwa [List.unzip_eq_map, map_fst_withIds, ← hids] at hunzip

/-- An export has each node that edges and back-edges lead to once, and each of their edges and
back-edges once, but for root nodes that are left out and what leads to them. The counts are those
of the nodes and the links. -/
theorem exportGraph_exact (hg : g.WellBuilt) (hheads : b.AllHeads WellBuilt)
    (htails : b.AllEdges fun _ e => e.tail.WellBuilt) (includeRoot : Bool) :
    ∃ ns, (exportGraph g b includeRoot).Of g b includeRoot ns := by
  let ns := (allNodes g b .lastFound).filter (isShown includeRoot)
  have hnodes : ShownNodes b g includeRoot ns :=
    shownNodes_allNodes hg hheads htails includeRoot .lastFound
  have hlinks : List.Forall₂ (ExportLink.Shows (withIds ns)) (exportGraph g b includeRoot).links
      (shownArrows b includeRoot ns) := links_show hg htails hnodes
  have hnamed : (exportGraph g b includeRoot).named ns = withIds ns := GraphExport.named_eq rfl
  refine ⟨ns, hnodes, forall₂_shows_iff.mpr rfl, ?_, hnamed ▸ hlinks, ?_, hlinks.length_eq, ?_, ?_⟩
  · rw [hnamed]
    exact fun s hs t ht => withIds_inj hs ht
  · show ((withIds ns).map _).length = ns.length
    simp [withIds]
  · rw [GraphExport.backEdgeCount, ← List.countP_eq_length_filter, countP_backEdge hlinks]
  · show (((withIds ns).map _).filter _).length = _
    rw [← List.countP_eq_length_filter, List.countP_map]
    conv_rhs => rw [← map_fst_withIds ns, List.countP_map]
    refine List.countP_congr fun i _ => ?_
    simp only [Function.comp_apply, exportNode, CachePolicy.text_beq_memoize]

/-- A class that needs itself over another: the far end of the back-edge is not below the root, but
it is exported too, and once. -/
theorem exportGraph_exact_cycle :
    let part (t : String) : Component := ⟨.construct (.named t), .memoize⟩
    let need (t : String) : Dependency :=
      ⟨.singleton ⟨⟨none, t, .named t, none, false⟩, .named t, some (part t).satisfaction⟩, false⟩
    let bare : Graph := ((Draft.ofLabel (part "A")).build.run 0).1
    let inner : Graph := ((Draft.ofLabel (part "B")).build.run 1).1
    let outer : Graph :=
      (((Draft.ofLabel (part "A")).addEdges [(need "B", inner)]).build.run 2).1
    let g : Graph :=
      (((Draft.ofLabel Component.root).addEdges [(need "A", outer)]).build.run 3).1
    let b : BackEdges := ⟨[(inner, [⟨inner, bare, need "A"⟩])]⟩
    g.WellBuilt ∧ b.AllHeads WellBuilt ∧ (b.AllEdges fun _ e => e.tail.WellBuilt) ∧
      ∃ ns, (exportGraph g b false).Of g b false ns ∧ ns.countP (bare == ·) = 1 := by
  intro part need bare inner outer g b
  have hbare : bare.WellBuilt := (Draft.ready_ofLabel (part "A")).build 0
  have hinner : inner.WellBuilt := (Draft.ready_ofLabel (part "B")).build 1
  have houter : outer.WellBuilt :=
    ((Draft.ready_ofLabel _).addEdges (List.forall_mem_singleton.mpr hinner)).build 2
  have hg : g.WellBuilt :=
    ((Draft.ready_ofLabel _).addEdges (List.forall_mem_singleton.mpr houter)).build 3
  have hheads : b.AllHeads WellBuilt := List.forall_mem_singleton.mpr hinner
  have htails : b.AllEdges fun _ e => e.tail.WellBuilt :=
    List.forall_mem_singleton.mpr (List.forall_mem_singleton.mpr hbare)
  obtain ⟨ns, hns⟩ := exportGraph_exact hg hheads htails false
  have hlinked : Linked b g bare := by
    have houter : Linked b g outer := .edge (e := (need "A", outer)) .root (.head _)
    have hinner : Linked b g inner := .edge (e := (need "B", inner)) houter (.head _)
    have hback : ⟨inner, bare, need "A"⟩ ∈ b.edgesOf inner := by
      rw [BackEdges.edgesOf_cons, same_refl, if_pos rfl]
      exact .head _
    exact .back hinner hback
  exact ⟨hg, hheads, htails, ns, hns, hns.shown.once bare hlinked rfl⟩

end Wiring
