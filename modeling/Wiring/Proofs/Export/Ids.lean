import Wiring.Proofs.Solver.Assignable
import Wiring.Proofs.Solver.RootNode

/-!
# Ids of exported nodes

Nodes are numbered, but all nodes labelled as root have the same id. So ids tell nodes apart as long
as no more than one such node is shown, and then the ids of a link look up what the link was made
for.
-/

namespace Wiring

open Dag

variable {b : BackEdges} {g n : Graph} {nodes : List Graph} {includeRoot : Bool} {x : GraphExport}
  {m : ExportNode} {l : ExportLink} {a : GraphEdge × Bool} {id : String}
  {types : List TypeSpec} {qualifiers : List QualifierSpec} {given : List ScopedRule}
  {config : Config} {roots : List Desire} {v : Solver}

/-! ## When ids differ -/

theorem nodup_withIds_iff : ((withIds nodes).map (·.2)).Nodup ↔
    nodes.Pairwise fun y z => ¬(y.label.isRoot = true ∧ z.label.isRoot = true) := by
  rw [withIds, List.map_map, List.Nodup, List.pairwise_map, List.pairwise_iff_getElem,
    List.pairwise_iff_getElem]
  simp only [List.length_zipIdx, List.getElem_zipIdx, Function.comp_apply, Nat.zero_add]
  refine forall₅_congr fun i j hi hj hij => not_congr ⟨fun h => ?_, fun h => ?_⟩
  · exact (exportId_inj h).resolve_left hij.ne
  · rw [exportId, exportId, if_pos h.1, if_pos h.2]

theorem exportGraph_ids (g : Graph) (b : BackEdges) (includeRoot : Bool) :
    (exportGraph g b includeRoot).nodes.map (·.id) =
      (withIds ((allNodes g b .lastFound).filter (isShown includeRoot))).map (·.2) := by
  show ((withIds _).map _).map _ = _
  rw [List.map_map]
  rfl

theorem nodup_exportGraph_iff (hg : g.WellBuilt) (hheads : b.AllHeads WellBuilt)
    (htails : b.AllEdges fun _ e => e.tail.WellBuilt) (hroot : g.label.isRoot = true) :
    ((exportGraph g b includeRoot).nodes.map (·.id)).Nodup ↔
      (includeRoot = true → RootAlone b g) := by
  rw [exportGraph_ids, nodup_withIds_iff]
  have hshown : ShownNodes b g includeRoot _ :=
    shownNodes_allNodes hg hheads htails includeRoot .lastFound
  have hdistinct := (listing_allNodes hheads g .lastFound).distinct.filter (isShown includeRoot)
  constructor
  · rintro hpair rfl
    -- A root node is listed under an equal one, and so is the graph itself: both are the same.
    have hlisted : ∀ y, Linked b g y → y.label.isRoot = true →
        ∃ z ∈ (allNodes g b .lastFound).filter (isShown true),
          (y == z) = true ∧ z.label.isRoot = true := by
      intro y hy hroot
      have hone := hshown.once y hy rfl
      obtain ⟨z, hz, hyz⟩ := List.countP_pos_iff.mp (hone ▸ Nat.one_pos)
      exact ⟨z, hz, hyz, Component.isRoot_of_beq (label_beq hyz) ▸ hroot⟩
    intro y hy hyroot
    obtain ⟨z, hz, hyz, hzroot⟩ := hlisted y hy hyroot
    obtain ⟨w, hw, hgw, hwroot⟩ := hlisted g .root hroot
    have : Std.Symm fun y z : Graph => ¬(y.label.isRoot = true ∧ z.label.isRoot = true) :=
      ⟨fun _ _ h h' => h h'.symm⟩
    obtain rfl : z = w := by
      by_contra hne
      exact hpair.forall hz hw hne ⟨hzroot, hwroot⟩
    exact beq_trans hyz (beq_symm hg hgw)
  · intro halone
    refine hdistinct.imp_of_mem fun {y z} hy hz hne hroots => ?_
    obtain ⟨hyroot, hzroot⟩ := hroots
    obtain ⟨hylinked, hyshown⟩ := hshown.only y hy
    obtain ⟨hzlinked, -⟩ := hshown.only z hz
    have halone := halone (by simpa [isShown, hyroot] using hyshown)
    have hyg := halone y hylinked hyroot
    have hzy := beq_trans (halone z hzlinked hzroot)
      (beq_symm (linked_wellBuilt hg htails hylinked) hyg)
    rw [hzy] at hne
    cases hne

/-! ## Looking up ids -/

theorem GraphExport.node?_of_mem (h : (x.nodes.map (·.id)).Nodup) (hm : m ∈ x.nodes) :
    x.node? m.id = some m := by
  unfold node?
  cases hfind : x.nodes.find? (·.id == m.id) with
  | none => exact absurd BEq.rfl (List.find?_eq_none.mp hfind m hm)
  | some k =>
    have hid : k.id = m.id := by simpa using List.find?_some hfind
    rw [List.inj_on_of_nodup_map h (List.mem_of_find?_eq_some hfind) hm hid]

theorem GraphExport.Of.node?_eq (h : x.Of g b includeRoot nodes)
    (hnodup : (x.nodes.map (·.id)).Nodup) (hn : (n, id) ∈ x.named nodes) :
    x.node? id = some (exportNode b n id) := by
  have hnodes := forall₂_shows_iff.mp h.nodes
  rw [GraphExport.named_eq hnodes] at hn
  exact x.node?_of_mem hnodup (hnodes ▸ List.mem_map_of_mem hn)

structure ExportLink.Finds (b : BackEdges) (x : GraphExport) (l : ExportLink)
    (a : GraphEdge × Bool) : Prop where
  source : x.node? l.source = some (exportNode b a.1.head l.source)
  target : ∃ n, (n == a.1.tail) = true ∧ x.node? l.target = some (exportNode b n l.target)

theorem GraphExport.Of.finds (h : x.Of g b includeRoot nodes)
    (hnodup : (x.nodes.map (·.id)).Nodup) :
    List.Forall₂ (ExportLink.Finds b x) x.links (shownArrows b includeRoot nodes) := by
  refine h.links.imp fun l a hshows => ?_
  obtain ⟨n, hn, htail⟩ := hshows.target
  exact ⟨h.node?_eq hnodup hshows.source, n, htail, h.node?_eq hnodup hn⟩

/-! ## Solvers -/

theorem Solver.Reachable.nodup_ids_iff {s : Settings} (h : Solver.Reachable s v)
    (includeRoot : Bool) : ((exportGraph v.graph v.backEdges includeRoot).nodes.map (·.id)).Nodup ↔
      (includeRoot = true → RootAlone v.backEdges v.graph) :=
  nodup_exportGraph_iff h.sound.1.wellBuilt h.sound.1.heads h.sound.1.tails h.isRoot

/-- After any calls, the ids of the exported graph differ if and only if no node but that of the
graph itself is labelled as root, or root nodes are left out. Then the ids of each link look up the
nodes that the link was made for. No other node is labelled as root where neither a rule nor a root
desire asks for the null of the root. -/
theorem nodup_ids_iff_of_after
    (h : Solver.After (.ofConfig (.freeze types qualifiers) given config) roots v)
    (includeRoot : Bool) :
    let x := exportGraph v.graph v.backEdges includeRoot
    ((x.nodes.map (·.id)).Nodup ↔ (includeRoot = true → RootAlone v.backEdges v.graph)) ∧
    ((x.nodes.map (·.id)).Nodup → ∃ nodes, x.Of v.graph v.backEdges includeRoot nodes ∧
      List.Forall₂ (ExportLink.Finds v.backEdges x) x.links
        (shownArrows v.backEdges includeRoot nodes)) ∧
    ((∀ a ∈ given, a.rule.target.Rootless) → (∀ d ∈ roots, d.Rootless) →
      RootAlone v.backEdges v.graph) := by
  intro x
  obtain ⟨hsound, -⟩ := h.reachable.sound
  obtain ⟨nodes, hof⟩ := exportGraph_exact hsound.wellBuilt hsound.heads hsound.tails includeRoot
  exact ⟨h.reachable.nodup_ids_iff includeRoot, fun hnodup => ⟨nodes, hof, hof.finds hnodup⟩,
    h.rootAlone⟩

/-- A class with one dependency, exported with the root node. -/
theorem nodup_ids_iff_of_nested :
    let nested : Catalog := .freeze [⟨.named "A", true, [], [⟨none, "b", .named "B", none, false⟩],
      {}, .noPreference, none, none⟩, ⟨.named "B", true, [], [], {}, .noPreference, none, none⟩] []
    let d := nested.rootDesire (.named "A") none
    let v := ((((Solver.ofSettings (.ofConfig nested [] {})).run 0).1.resolve d).run 1).1.solver
    let x := exportGraph v.graph v.backEdges true
    v.graph.edges ≠ [] ∧ (x.nodes.map (·.id)).Nodup ∧
      ∃ nodes, x.Of v.graph v.backEdges true nodes ∧
        List.Forall₂ (ExportLink.Finds v.backEdges x) x.links
          (shownArrows v.backEdges true nodes) := by
  intro nested d v x
  have hv : Solver.After (.ofConfig nested [] {}) [d] v := .resolve d 1 (.fresh _ 0)
  have hd : d.Rootless := nested.rootless_desire _ _
  have hedges : v.graph.edges.isEmpty = false := by
    subst x v d nested
    decide +kernel
  obtain ⟨hiff, hfinds, halone⟩ := nodup_ids_iff_of_after hv true
  have hnodup : (x.nodes.map (·.id)).Nodup :=
    hiff.mpr fun _ => halone nofun (List.forall_mem_singleton.mpr hd)
  exact ⟨by simpa using hedges, hnodup, hfinds hnodup⟩

/-- A rule that gives null for the type of the root makes a second node with the id of the root
node. -/
theorem not_nodup_ids_of_null :
    let given : List ScopedRule :=
      [⟨.any, .root, .default, .satisfaction (.null .root), .noPreference, {}⟩]
    let c : Catalog := .freeze [] []
    let d := c.rootDesire .root none
    let v := ((((Solver.ofSettings (.ofConfig c given {})).run 0).1.resolve d).run 1).1.solver
    v.graph.edges ≠ [] ∧ ¬((exportGraph v.graph v.backEdges true).nodes.map (·.id)).Nodup := by
  intro given c d v
  have hv : Solver.After (.ofConfig c given {}) [d] v := .resolve d 1 (.fresh _ 0)
  have hedges : v.graph.edges.isEmpty = false := by
    subst v d c given
    decide +kernel
  have htaken : ∀ e ∈ v.graph.edges,
      sameOptional e.1.chain.current.satisfaction? (some (.null .root)) = true := by
    subst v d c given
    decide +kernel
  obtain ⟨e, he⟩ := List.exists_mem_of_ne_nil _ (by simpa using hedges)
  obtain ⟨a, ha, hlabel⟩ := satisfaction_of_edgesFrom hv .root (List.mem_append_left _ he)
  have hnull := htaken e he
  rw [ha] at hnull
  have hnull : (e.2.label == ⟨.null .root, e.2.label.policy⟩) = true :=
    (Component.beq_iff _ _).mpr ⟨BEq.trans (BEq.symm hlabel) hnull, rfl⟩
  have hroot : e.2.label.isRoot = true := Component.isRoot_of_beq hnull
  refine ⟨by simpa using hedges, fun hnodup => ?_⟩
  have hsame := (hv.reachable.nodup_ids_iff true).mp hnodup rfl e.2 (.edge .root he) hroot
  rw [Has.not_root hv.reachable.sound.1.wellBuilt (.self _) he (.self _)] at hsame
  cases hsame

end Wiring
