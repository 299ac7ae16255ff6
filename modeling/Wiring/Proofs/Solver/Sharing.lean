import Wiring.Proofs.Container
import Wiring.Proofs.Solver.Unscoped

/-!
# One node for one component

Where all rules stand under the pattern of every context, a desire leads to the same component
wherever it comes up. So nodes of one component differ at most in how far they are open: what was
put off is without edges, and it may have back-edges in their place or stay as it is below the far
end of one. While there are no back-edges everything is open, and a component is one node.
-/

namespace Wiring

open Settings Catalog
open Dag (SameNode SameEdge)

variable {s : Settings} {c : Catalog} {given : List ScopedRule} {config : Config}
  {roots : List Desire} {v : Solver} {g x y : Graph} {e f : Resolved}

/-- For every edge of a node there is one for the same desire at its partner, and the nodes that the
two lead to are partners again. -/
structure Opening (R : Graph → Graph → Prop) : Prop where
  left : ∀ ⦃x y⦄, R x y → ∀ e ∈ x.edges,
    ∃ f ∈ y.edges, (e.1.initial == f.1.initial) = true ∧ R e.2 f.2
  right : ∀ ⦃x y⦄, R x y → ∀ f ∈ y.edges,
    ∃ e ∈ x.edges, (e.1.initial == f.1.initial) = true ∧ R e.2 f.2

/-- The nodes have edges for the same desires, and so have the nodes behind these edges, all the way
down. -/
def OpenAlike (x y : Graph) : Prop := ∃ R, Opening R ∧ R x y

theorem openAlike_of_same (h : SameNode x y) : OpenAlike x y := by
  refine ⟨SameNode, ⟨fun x y h e he => ?_, fun x y h f hf => ?_⟩, h⟩
  · obtain ⟨f, hf, hef⟩ := h.edge he
    exact ⟨f, hf, Dependency.initial_beq hef.label, hef.tail⟩
  · obtain ⟨e, he, hfe⟩ := h.symm.edge hf
    exact ⟨e, he, Dependency.initial_beq hfe.symm.label, hfe.symm.tail⟩

namespace Solver

/-! ## One component for one desire -/

theorem After.alike (hs : s.Unscoped) (h : After s roots v) (hx : Linked v.backEdges v.graph x)
    (hy : Linked v.backEdges v.graph y) (he : e ∈ v.edgesFrom x) (hf : f ∈ v.edgesFrom y)
    (hef : (e.1.initial == f.1.initial) = true) :
    (e.1 == f.1) = true ∧ (e.2.label == f.2.label) = true := by
  obtain ⟨d, k, r, htakes, hdep, hl⟩ := h.takes hx he
  obtain ⟨d', k', r', htakes', hdep', hl'⟩ := h.takes hy hf
  have hinitial : (d == d') = true := by
    have hd : (d == e.1.initial) = true := htakes.binds.initial ▸ Dependency.initial_beq hdep
    have hd' : (d' == f.1.initial) = true := htakes'.binds.initial ▸ Dependency.initial_beq hdep'
    exact BEq.trans hd (BEq.trans hef (BEq.symm hd'))
  have hlike := htakes.like hs hinitial htakes'
  exact ⟨BEq.trans (BEq.symm hdep) (BEq.trans hlike.dependency hdep'),
    BEq.trans (BEq.symm hl) (BEq.trans (hlike.component _ _) hl')⟩

theorem After.same_of_openAlike (hs : s.Unscoped) (h : After s roots v)
    (hx : Linked v.backEdges v.graph x) (hy : Linked v.backEdges v.graph y)
    (hl : (x.label == y.label) = true) (hopen : OpenAlike x y) : SameNode x y := by
  obtain ⟨hsound, -⟩ := h.reachable.sound
  obtain ⟨R, hR, hxy⟩ := hopen
  induction x using Dag.induction generalizing y with
  | step x ih =>
    have hedge : ∀ e ∈ x.edges, ∀ f ∈ y.edges, (e.1.initial == f.1.initial) = true →
        R e.2 f.2 → SameEdge e f := by
      intro e he f hf hef htails
      obtain ⟨hdep, htail⟩ := h.alike hs hx hy (List.mem_append_left _ he)
        (List.mem_append_left _ hf) hef
      exact .of_tail hdep (ih e he (.edge hx he) (.edge hy hf) htail htails)
    refine Dag.sameNode_of_covers (hx.wellBuilt hsound) (hy.wellBuilt hsound) hl
      (fun e he => ?_) fun f hf => ?_
    · obtain ⟨f, hf, hef, htails⟩ := hR.left hxy e he
      exact ⟨f, hf, hedge e he f hf hef htails⟩
    · obtain ⟨e, he, hef, htails⟩ := hR.right hxy f hf
      exact ⟨e, he, hedge e he f hf hef htails⟩

/-! ## Without back-edges -/

theorem edgesOf_of_entries {b : BackEdges} (hb : b.entries = []) (x : Graph) : b.edgesOf x = [] := by
  refine List.eq_nil_iff_forall_not_mem.mpr fun e he => ?_
  obtain ⟨entry, hentry, -⟩ := BackEdges.mem_edgesOf he
  rw [hb] at hentry
  cases hentry

theorem has_of_linked {b : BackEdges} (hb : b.entries = []) (h : Linked b g x) : g.Has x := by
  induction h with
  | root => exact .self _
  | edge _ he ih => exact ih.edge he
  | back _ he _ =>
    rw [edgesOf_of_entries hb] at he
    cases he

theorem Sound.complete (h : v.Sound) (hb : v.backEdges.entries = []) (hx : v.graph.Has x)
    (hne : (x == v.graph) = false) :
    v.settings.catalog.Declared x ∧ v.settings.catalog.Complete x := by
  obtain ⟨hdeclared, hcovered | ⟨-, _, hf, -⟩ | hfalse⟩ := h.node x hx hne
  · refine ⟨hdeclared, fun d hd => (hcovered d hd).resolve_right ?_⟩
    rintro ⟨e, he, -⟩
    rw [edgesOf_of_entries hb] at he
    cases he
  · cases hf
  · exact hfalse.elim

structure Below (g x : Graph) : Prop where
  has : g.Has x
  not_root : (x == g) = false

theorem Below.edge (hg : g.WellBuilt) (h : Below g x) (he : e ∈ x.edges) : Below g e.2 :=
  ⟨h.has.edge he, h.has.not_root hg he (.self _)⟩

theorem exists_edge_of_label (hdeclared : c.Declared x) (hcomplete : c.Complete y)
    (hl : (x.label == y.label) = true) (he : e ∈ x.edges) :
    ∃ f ∈ y.edges, (e.1.initial == f.1.initial) = true := by
  obtain ⟨d, hd, hed⟩ := hdeclared e he
  obtain ⟨d', hd', hdd⟩ := needs_of_label hl hd
  obtain ⟨f, hf, hfd⟩ := hcomplete d' hd'
  exact ⟨f, hf, BEq.trans hed (BEq.trans hdd (BEq.symm hfd))⟩

theorem After.openAlike (hs : s.Unscoped) (h : After s roots v) (hb : v.backEdges.entries = [])
    (hx : Below v.graph x) (hy : Below v.graph y) (hl : (x.label == y.label) = true) :
    OpenAlike x y := by
  obtain ⟨hsound, -⟩ := h.reachable.sound
  have htails : ∀ {x y : Graph}, Below v.graph x → Below v.graph y → ∀ e ∈ x.edges, ∀ f ∈ y.edges,
      (e.1.initial == f.1.initial) = true →
      Below v.graph e.2 ∧ Below v.graph f.2 ∧ (e.2.label == f.2.label) = true := by
    intro x y hx hy e he f hf hef
    refine ⟨hx.edge hsound.wellBuilt he, hy.edge hsound.wellBuilt hf, ?_⟩
    exact (h.alike hs (linked_of_has .root hx.has) (linked_of_has .root hy.has)
      (List.mem_append_left _ he) (List.mem_append_left _ hf) hef).2
  refine ⟨fun x y => Below v.graph x ∧ Below v.graph y ∧ (x.label == y.label) = true,
    ⟨?_, ?_⟩, hx, hy, hl⟩
  · rintro x y ⟨hx, hy, hl⟩ e he
    have hdeclared := (hsound.complete hb hx.has hx.not_root).1
    have hcomplete := (hsound.complete hb hy.has hy.not_root).2
    obtain ⟨f, hf, hef⟩ := exists_edge_of_label hdeclared hcomplete hl he
    exact ⟨f, hf, hef, htails hx hy e he f hf hef⟩
  · rintro x y ⟨hx, hy, hl⟩ f hf
    have hdeclared := (hsound.complete hb hy.has hy.not_root).1
    have hcomplete := (hsound.complete hb hx.has hx.not_root).2
    obtain ⟨e, he, hfe⟩ := exists_edge_of_label hdeclared hcomplete (BEq.symm hl) hf
    exact ⟨e, he, BEq.symm hfe, htails hx hy e he f hf (BEq.symm hfe)⟩

/-! ## Runs of calls -/

/-- After any calls, where all rules stand under the pattern of every context: edges and back-edges
for one desire lead to one component. Nodes of one component are equal if and only if they are open
alike, and equal nodes have one maker in a container. While there are no back-edges all nodes of one
component are equal, but for the root node, which no other node is equal to. -/
theorem same_iff_of_unscoped (h : After (.ofConfig c given config) roots v)
    (hany : ∀ a ∈ given, a.pattern = .any) (hx : Linked v.backEdges v.graph x)
    (hy : Linked v.backEdges v.graph y) :
    (∀ e ∈ v.edgesFrom x, ∀ f ∈ v.edgesFrom y, (e.1.initial == f.1.initial) = true →
      (e.1 == f.1) = true ∧ (e.2.label == f.2.label) = true) ∧
    ((x.label == y.label) = true → ((x == y) = true ↔ OpenAlike x y)) ∧
    ((x == y) = true → ∀ (k : Container) (b : BackEdges),
      (k.makerFor x v.backEdges).2.makerFor y b = k.makerFor x v.backEdges) ∧
    (v.backEdges.entries = [] → (x == v.graph) = (y == v.graph) →
      (x.label == y.label) = true → (x == y) = true) := by
  have hs : Unscoped (.ofConfig c given config) := unscoped_standard c hany
  obtain ⟨hsound, -⟩ := h.reachable.sound
  have hxw := hx.wellBuilt hsound
  have hyw := hy.wellBuilt hsound
  refine ⟨fun e he f hf => h.alike hs hx hy he hf, fun hl => ⟨fun hxy => ?_, fun hopen => ?_⟩,
    fun hxy k b => Container.makerFor_of_same ⟨hxy, hxw, hyw⟩ k _ b, fun hb hroot hl => ?_⟩
  · exact openAlike_of_same ⟨hxy, hxw, hyw⟩
  · exact (h.same_of_openAlike hs hx hy hl hopen).beq
  · cases hxg : x == v.graph with
    | true =>
      have hyg : (y == v.graph) = true := hroot ▸ hxg
      exact Dag.beq_trans hxg (Dag.beq_symm hyw hyg)
    | false =>
      have hopen := h.openAlike hs hb ⟨has_of_linked hb hx, hxg⟩ ⟨has_of_linked hb hy, hroot ▸ hxg⟩ hl
      exact (h.same_of_openAlike hs hx hy hl hopen).beq

/-- A class that two others need, by way of an interface that is bound to it. -/
theorem same_iff_of_diamond :
    let diamond : Catalog := .freeze [
      ⟨.named "Top", true, [], [⟨none, "left", .named "Left", none, false⟩,
        ⟨none, "right", .named "Right", none, false⟩], {}, .noPreference, none, none⟩,
      ⟨.named "Left", true, [], [⟨none, "store", .named "Store", none, false⟩], {}, .noPreference,
        none, none⟩,
      ⟨.named "Right", true, [], [⟨none, "store", .named "Store", none, false⟩], {}, .noPreference,
        none, none⟩,
      ⟨.named "Store", false, [], [], {}, .noPreference, none, none⟩,
      ⟨.named "Disk", true, [.named "Store"], [], {}, .memoize, none, none⟩] []
    let bound : List ScopedRule := [⟨.any, .named "Store", .default, .type (.named "Disk"),
      .noPreference, {}⟩]
    let d := diamond.rootDesire (.named "Top") none
    let v := ((((Solver.ofSettings (.ofConfig diamond bound {})).run 0).1.resolve d).run 1).1.solver
    v.graph.edges ≠ [] ∧ ∀ x y, Linked v.backEdges v.graph x →
      Linked v.backEdges v.graph y → (x == v.graph) = (y == v.graph) →
      (x.label == y.label) = true → (x == y) = true := by
  intro diamond bound d v
  have hv : After (.ofConfig diamond bound {}) [d] v := .resolve d 1 (.fresh _ 0)
  have hedges : v.graph.edges.isEmpty = false := by
    subst v d bound diamond
    decide +kernel
  have hb : v.backEdges.entries = [] := by
    rw [← List.isEmpty_iff]
    subst v d bound diamond
    decide +kernel
  have hany : ∀ a ∈ bound, a.pattern = .any := List.forall_mem_singleton.mpr rfl
  refine ⟨by simpa using hedges, fun x y hx hy hroot hl => ?_⟩
  obtain ⟨-, -, -, hsame⟩ := same_iff_of_unscoped hv hany hx hy
  exact hsame hb hroot hl

end Solver

end Wiring
