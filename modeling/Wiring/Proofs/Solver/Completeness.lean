import Wiring.Container
import Wiring.Injector
import Wiring.Proofs.Solver.Representation

/-!
# Nothing is missing

Every node that can be come to over edges and back-edges has all its declared dependencies if and
only if no bare node that needs something is left below the far end of a back-edge alone. Below such
an end there may be nodes that were put off: as it was when the cycle was closed, the tree is not
touched again, and only what the graph leads to by edges is expanded.
-/

namespace Wiring

open Settings Catalog

variable {s : Settings} {v : Solver} {b : BackEdges} {g x y : Graph} {d : Desire}

/-- The nodes that a graph leads to over edges and back-edges. -/
inductive Linked (b : BackEdges) (g : Graph) : Graph → Prop
  | root : Linked b g g
  | edge {x : Graph} {e : Resolved} : Linked b g x → e ∈ x.edges → Linked b g e.2
  | back {x : Graph} {e : GraphEdge} : Linked b g x → e ∈ b.edgesOf x → Linked b g e.tail

theorem linked_of_has (h : Linked b g x) (hy : x.Has y) : Linked b g y := by
  induction hy with
  | self _ => exact h
  | step he _ ih => exact ih (.edge h he)

/-- All nodes below a graph, and those below the far ends of back-edges. -/
def BackEdges.region (b : BackEdges) (g : Graph) : List Graph :=
  g.subnodes ++ b.entries.flatMap fun entry => entry.2.flatMap (·.tail.subnodes)

theorem BackEdges.mem_region :
    x ∈ b.region g ↔ g.Has x ∨ ∃ entry ∈ b.entries, ∃ e ∈ entry.2, e.tail.Has x := by
  simp [region, Dag.mem_subnodes]

theorem Linked.mem_region (h : Linked b g x) : x ∈ b.region g := by
  rw [BackEdges.mem_region]
  induction h with
  | root => exact .inl (.self g)
  | edge _ he ih =>
    rcases ih with hx | ⟨entry, hentry, f, hf, hx⟩
    · exact .inl (hx.edge he)
    · exact .inr ⟨entry, hentry, f, hf, hx.edge he⟩
  | back _ he _ =>
    obtain ⟨entry, hentry, -, he⟩ := BackEdges.mem_edgesOf he
    exact .inr ⟨entry, hentry, _, he, .self _⟩

def Source.dependencies? : Source → Option Dependencies
  | .satisfaction _ deps => some deps
  | .memoized _ inner => inner.dependencies?
  | .sequence _ => none

theorem newMaker_dependencies? (k : Container) (g : Graph) (b : BackEdges) :
    (k.newMaker g b).1.source.dependencies? =
      some ⟨g.edges ++ (b.edgesOf g).map fun e => (e.label, e.tail), b⟩ := by
  unfold Container.newMaker
  dsimp only
  split
  · rfl
  · rfl

theorem find?_of_covered (h : HasEdge g d ∨ HasBackEdge b g d) :
    let deps : Dependencies := ⟨g.edges ++ (b.edgesOf g).map fun e => (e.label, e.tail), b⟩
    (deps.find? (· == d)).isSome = true ∧
      (deps.find? (·.point.name == d.point.name)).isSome = true := by
  have hmem : ∃ e ∈ g.edges ++ (b.edgesOf g).map fun e => (e.label, e.tail),
      (e.1.initial == d) = true := by
    rcases h with ⟨e, he, hed⟩ | ⟨e, he, hed⟩
    · exact ⟨e, List.mem_append_left _ he, hed⟩
    · exact ⟨(e.label, e.tail), List.mem_append_right _ (List.mem_map_of_mem he), hed⟩
  obtain ⟨e, he, hed⟩ := hmem
  refine ⟨List.find?_isSome.2 ⟨e, he, hed⟩, List.find?_isSome.2 ⟨e, he, ?_⟩⟩
  show (e.1.initial.point.name == d.point.name) = true
  rw [Desire.point_of_beq hed]
  exact BEq.rfl

theorem linked_wellBuilt (hg : g.WellBuilt) (hb : b.AllEdges fun _ e => e.tail.WellBuilt)
    (h : Linked b g x) : x.WellBuilt := by
  induction h with
  | root => exact hg
  | edge _ he ih => exact ih.tail he
  | back _ he _ =>
    obtain ⟨_, _, hwell⟩ := hb.edgesOf he
    exact hwell

theorem Solver.Sound.tails (h : v.Sound) : v.backEdges.AllEdges fun _ e => e.tail.WellBuilt :=
  fun entry hentry e he => (h.edge entry hentry e he).wellBuilt

theorem Linked.wellBuilt (hsound : v.Sound) (h : Linked v.backEdges v.graph x) : x.WellBuilt :=
  linked_wellBuilt hsound.wellBuilt hsound.tails h

/-- A node that can be come to is one of the graph, or it is below the far end of a back-edge and
as its tree was resolved. -/
theorem Linked.cases (hsound : v.Sound) (h : Linked v.backEdges v.graph x) :
    v.graph.reaches x = true ∨ ∃ k, ∃ e ∈ v.backEdges.edgesOf k,
      e.tail.Has x ∧ RawTree v.settings.catalog e.tail := by
  induction h with
  | root => exact .inl (Dag.Has.self _).reaches
  | @edge x f _ hf ih =>
    rcases ih with hx | ⟨k, e, he, hx, hraw⟩
    · exact .inl (Dag.reaches_trans hx (Dag.reaches_of_edge hf (Dag.Has.self _).reaches))
    · exact .inr ⟨k, e, he, hx.edge hf, hraw⟩
  | @back x e _ he _ =>
    obtain ⟨_, _, hstored⟩ := BackEdges.AllEdges.edgesOf hsound.edge he
    rcases hstored.tail with hunder | hraw
    · exact .inl hunder.reaches
    · exact .inr ⟨x, e, he, .self _, hraw⟩

theorem Solver.Sound.covered (hsound : v.Sound) (hx : x.WellBuilt) (hne : (x == v.graph) = false)
    (hreach : v.graph.reaches x = true) : v.settings.catalog.Covered v.backEdges x := by
  obtain ⟨y, hy, hxy⟩ := Dag.reaches_iff.1 hreach
  have hyx := Dag.beq_symm hx hxy
  have hyne : (y == v.graph) = false := by
    rw [Bool.eq_false_iff] at hne ⊢
    exact fun hyg => hne (Dag.beq_trans hxy hyg)
  obtain ⟨_, hcovered | ⟨_, _, hf, _⟩ | hfalse⟩ := hsound.node y hy hyne
  · exact hcovered.of_beq (hy.wellBuilt hsound.wellBuilt) hyx
  · simp at hf
  · exact hfalse.elim

theorem Solver.Sound.reaches_head (hsound : v.Sound) {e : GraphEdge}
    (he : e ∈ v.backEdges.edgesOf x) :
    ∃ z, v.graph.Has z ∧ v.backEdges.edgesOf x = v.backEdges.edgesOf z ∧
      v.graph.reaches x = true := by
  obtain ⟨entry, hentry, hentryx, _⟩ := BackEdges.mem_edgesOf he
  obtain ⟨hentryw, hunder, _⟩ := hsound.head entry hentry
  obtain ⟨z, hz, hentryz⟩ := Dag.reaches_iff.1 hunder.reaches
  refine ⟨z, hz, ?_, Dag.reaches_of_beq hunder.reaches (Dag.beq_symm hentryw hentryx)⟩
  rw [← BackEdges.edgesOf_congr hentryw hentryx, BackEdges.edgesOf_congr hentryw hentryz]

/-- Every node that can be come to has all its declared dependencies if and only if every bare node
below the far end of a back-edge that needs something is a node of the graph. Then the class of a
node finds each of them. -/
theorem covered_iff_of_reachable (h : Solver.Reachable s v) :
    ((∀ x, Linked v.backEdges v.graph x → (x == v.graph) = false →
        s.catalog.Covered v.backEdges x) ↔
      ∀ k, ∀ e ∈ v.backEdges.edgesOf k, ∀ x, e.tail.Has x → x.edges = [] →
        s.catalog.needs x ≠ [] → v.graph.reaches x = true) ∧
    ∀ x, s.catalog.Covered v.backEdges x → ∀ k : Container, ∃ deps,
      (k.newMaker x v.backEdges).1.source.dependencies? = some deps ∧
      ∀ d ∈ s.catalog.needs x, (deps.find? (· == d)).isSome = true ∧
        (deps.find? (·.point.name == d.point.name)).isSome = true := by
  obtain ⟨hsound, rfl⟩ := h.sound
  refine ⟨⟨fun hall k e he x hx hbare hneeds => ?_, fun hends x hx hne => ?_⟩, ?_⟩
  · obtain ⟨z, hz, hedges, _⟩ := hsound.reaches_head he
    have hlinked := linked_of_has (.back (linked_of_has .root hz) (hedges ▸ he)) hx
    -- A bare node that needs something has a back-edge, hence it is a head.
    obtain ⟨d, hd⟩ := List.exists_mem_of_ne_nil _ hneeds
    have hne : (x == v.graph) = false := by
      rw [Bool.eq_false_iff]
      intro hxg
      obtain ⟨d', hd', _⟩ := needs_of_beq hxg hd
      simp [hsound.needs] at hd'
    rcases hall x hlinked hne d hd with ⟨f, hf, _⟩ | ⟨f, hf, _⟩
    · simp [hbare] at hf
    · obtain ⟨_, _, _, hreach⟩ := hsound.reaches_head hf
      exact hreach
  · have hxw := hx.wellBuilt hsound
    rcases hx.cases hsound with hreach | ⟨k, e, he, hx, hraw⟩
    · exact hsound.covered hxw hne hreach
    · obtain ⟨_, _, hcomplete | ⟨hbare, _⟩⟩ := hraw x hx
      · exact hcomplete.covered
      · by_cases hneeds : v.settings.catalog.needs x = []
        · intro d hd
          simp [hneeds] at hd
        · exact hsound.covered hxw hne (hends k e he x hx hbare hneeds)
  · intro x hcovered k
    exact ⟨_, newMaker_dependencies? k x v.backEdges, fun d hd => find?_of_covered (hcovered d hd)⟩

/-- A class and a provider of it in a cycle, resolved once. -/
theorem covered_iff_of_ring :
    let ring : Catalog := .freeze [⟨.named "A", true, [], [⟨none, "next", .provider (.named "A"),
      none, false⟩], {}, .noPreference, none, none⟩] []
    let s : Settings := .ofConfig ring [] {}
    let fresh := ((Solver.ofSettings s).run 0).1
    let v := ((fresh.resolve (ring.rootDesire (.named "A") none)).run 1).1.solver
    Solver.Reachable s v ∧
    ((∀ x, Linked v.backEdges v.graph x → (x == v.graph) = false → ring.Covered v.backEdges x) ↔
      ∀ k, ∀ e ∈ v.backEdges.edgesOf k, ∀ x, e.tail.Has x → x.edges = [] →
        ring.needs x ≠ [] → v.graph.reaches x = true) := by
  intro ring s fresh v
  have hv : Solver.Reachable s v := .resolve (ring.rootDesire (.named "A") none) 1 (.fresh _ 0)
  exact ⟨hv, (covered_iff_of_reachable hv).1⟩

end Wiring
