import Wiring.Proofs.Solver.Chains
import Wiring.Proofs.Solver.Losses
import Wiring.Proofs.Solver.Stems

/-!
# Edges describe what they lead to

Whatever a desire is taken for, the last desire of the chain has the satisfaction that the node is
built from, and all desires of the chain are for one point. Merging, replacing and closing cycles
keep the labels of edges together with the labels of their ends, and so does a revision. So it holds
of every edge of every graph that solvers produce, whether it was resolved or revised, and of the
back-edges that go with it.
-/

namespace Wiring

open Work Settings Catalog
open Dag (EachBeyond)

variable {s : Settings} {v : Solver} {d : Desire} {g g' x : Graph} {e : Resolved} {r r' : Revision}
  {w w' : Workspace} {dep : Dependency} {l : Component} {context : Context} {tag : Nat}

/-- The last desire of the chain has the satisfaction of the component, and all desires of the chain
are for the point of the first. -/
structure Dependency.Describes (dep : Dependency) (l : Component) : Prop where
  satisfaction : ∃ a, dep.chain.current.satisfaction? = some a ∧ (a == l.satisfaction) = true
  point : dep.chain.AtPoint

theorem respectsEnds_describes : Dag.RespectsEnds Dependency.Describes := by
  rintro dep l l' ⟨⟨a, ha, hal⟩, hpoint⟩ hl
  exact ⟨⟨a, ha, BEq.trans hal ((Component.beq_iff _ _).1 hl).1⟩, hpoint⟩

theorem DesireChain.AtPoint.of_beq {k l : DesireChain} (h : k.AtPoint) (hkl : (k == l) = true) :
    l.AtPoint := by
  intro d hd
  have hmem : d.essence ∈ k.desires.map Desire.essence := by
    rw [(DesireChain.beq_iff_desires k l).1 hkl]
    exact List.mem_map_of_mem hd
  obtain ⟨d', hd', he⟩ := List.mem_map.1 hmem
  rw [← Desire.point_of_beq ((Desire.beq_iff _ _).2 he), h d' hd']
  exact Desire.point_of_beq ((DesireChain.beq_iff k l).1 hkl).1

theorem Settings.Stems.describes {D : Desire → Prop} (h : s.Stems D dep l) : dep.Describes l := by
  obtain ⟨d, k, r, -, htakes, hdep, hl⟩ := h
  obtain ⟨hpoint, hcurrent⟩ := htakes.binds.atPoint
  have hchain := ((Dependency.beq_iff _ _).1 hdep).1
  obtain ⟨a, ha, hra⟩ :=
    Desire.satisfaction_of_beq (DesireChain.current_beq hchain) hcurrent
  exact ⟨⟨a, ha, BEq.trans (BEq.symm hra) ((Component.beq_iff _ _).1 hl).1⟩,
    hpoint.of_beq hchain⟩

abbrev Described (g : Graph) : Prop := g.Each (fun _ => True) Dependency.Describes

/-- The edge describes what it leads to, and so do all beyond it. -/
abbrev DescribesAll (e : Resolved) : Prop := EachBeyond (fun _ => True) Dependency.Describes e

theorem Settings.Stems.described (h : g.Each (fun _ => True) (s.Stems fun _ => True)) :
    Described g :=
  fun x hx => ⟨trivial, fun e he => ((h x hx).2 e he).describes⟩

/-! ## Revisions -/

namespace Settings

/-- An edge for whatever some desire is taken for, and so are all beyond it. -/
abbrev Wires (s : Settings) (e : Resolved) : Prop := s.StemsBeyond (fun _ => True) (fun _ => True) e

theorem inherits_any (s : Settings) : s.Inherits (fun _ => True) fun _ => True :=
  ⟨trivial, fun _ _ _ _ _ => trivial, fun _ _ _ _ _ _ _ => trivial⟩

structure WiredPool (s : Settings) (p : GraphPool) : Prop where
  built : GraphPool.Built p
  stems : p.Each (fun _ => True) (s.Stems fun _ => True)

theorem WiredPool.workspace (h : s.WiredPool w.pool) (hqueue : w.queue = []) :
    w.Stems s (fun _ => True) fun _ => True :=
  ⟨h.stems, h.built, fun f hf => by simp [hqueue] at hf⟩

end Settings

theorem Workspace.Stems.wiredPool (h : w.Stems s (fun _ => True) fun _ => True) :
    s.WiredPool w.pool :=
  ⟨h.built, h.pool⟩

structure Revision.Wires (s : Settings) (r : Revision) : Prop where
  heads : r.backEdges.AllHeads Dag.WellBuilt
  back : r.backEdges.AllEdges fun _ e => s.Wires (e.label, e.tail)
  replaced : ∀ p ∈ r.replacements, s.Wires (p.2.label, p.2.tail)

theorem Revision.Wires.replaceEdge (h : r.Wires s) (e : GraphEdge) (c : Context) :
    Builds s.WiredPool (s.replaceEdge e c r) fun r' => r'.Wires s := by
  intro w o w' hpool hrun
  have hI := s.inherits_any
  have hw : Workspace.Stems s (fun _ => True) (fun _ => True) { w with queue := [] } :=
    hpool.workspace (w := { w with queue := [] }) rfl
  cases replaces_of_runs hrun with
  | unresolved hd => exact ⟨(hw.resolves hI trivial hd).wiredPool, fun _ hr' => by cases hr'⟩
  | @drained dep tree node w1 w2 _ o pre hd hmerge hbare hdrains =>
    have htree := hd.stems hI trivial
    obtain ⟨hw2, _, hnode, heach, hlabel⟩ :=
      (hw.resolves hI trivial hd).merge htree.tail (tree_wellBuilt hd) hmerge
    obtain ⟨_, hnode', -, hraw, -, -⟩ := raw_of_merge (hd.queues.pool hw.built)
      ((hd.tree_grown rfl).raw (dep, tree) List.mem_cons_self) hmerge
    cases hnode
    cases hnode'
    have hbuilt := (hraw node (.self _)).wellBuilt
    obtain ⟨hw', hpass⟩ := hdrains.stems hI hw2 hbare ⟨hbuilt, h.heads⟩
      ⟨heach, h.back, List.forall_mem_nil _⟩
    refine ⟨hw'.wiredPool, fun r' hr' => ?_⟩
    cases o with
    | error _ => cases hr'
    | ok p =>
      cases hr'
      obtain ⟨hb, hp⟩ := hpass p rfl
      have hhead := hdrains.headed hw2.built hbare (l := node.label) ⟨hbuilt, BEq.rfl⟩ rfl
      have hroot : s.Wires (dep, p.root) :=
        ⟨respectsEnds_stems s _ htree.edge (BEq.trans hlabel (BEq.symm hhead.label)), hp.root⟩
      refine ⟨hb.heads, hp.back, fun x hx => ?_⟩
      rcases List.mem_append.1 hx with hx | hx
      · exact h.replaced x hx
      · exact List.mem_singleton.1 hx ▸ hroot

theorem holding_wires (s : Settings) : s.Holding s.WiredPool fun r => r.Wires s where
  seen _ _ hr := ⟨hr.heads, hr.back, hr.replaced⟩
  replaced e c _ hr := hr.replaceEdge e c

theorem builds_build {α : Type} {W : GraphPool → Prop} {P : α → Prop} {a : Dag.Fresh α}
    (h : ∀ tag, P (a.run tag).1) : Builds W (Work.build a) P := by
  rintro w o w' hpool ⟨rfl, rfl⟩
  exact ⟨hpool, fun _ hx => by cases hx; exact h w.nextTag⟩

theorem Revision.Wires.transform (h : r.Wires s) (hg : Described g) (tag : Nat) :
    Described ((Dag.transform r.replacement? g).run tag).1 := by
  refine Dag.Each.transform respectsEnds_describes (fun e k hk => ?_) hg tag
  obtain ⟨p, hp, -, rfl⟩ := Revision.replacement?_eq_some hk
  obtain ⟨hedge, htail⟩ := h.replaced p hp
  exact ⟨hedge.describes, Settings.Stems.described htail⟩

theorem builds_wires (hheads : v.backEdges.AllHeads Dag.WellBuilt)
    (hback : v.backEdges.AllEdges fun _ e => v.settings.Wires (e.label, e.tail)) (g : Graph) :
    Builds v.settings.WiredPool (v.reviseWork g) fun out =>
      out.2.AllEdges (fun _ e => v.settings.Wires (e.label, e.tail)) ∧
        (Described g → Described out.1) := by
  have hR := respectsEnds_describes
  have hstart : Revision.Wires v.settings { backEdges := v.backEdges } :=
    ⟨hheads, hback, List.forall_mem_nil _⟩
  have hwalk := (holding_wires v.settings).reviseNode g .initial _ hstart
  refine hwalk.bind fun r hr => ?_
  refine (builds_build (P := fun staged => Described g → Described staged)
    fun tag hg => hr.transform hg tag).bind fun staged hstaged => ?_
  have hempty : (Dag.Pool.empty : GraphPool).Each (fun _ => True) Dependency.Describes :=
    fun n hn => by cases hn
  refine (builds_build (P := fun (out : Graph × GraphPool) => Described g →
    out.2.Each (fun _ => True) Dependency.Describes)
    fun tag hg => (hempty.merge hR hg tag).2).bind fun out hout => ?_
  exact (builds_build (P := fun (out : Graph × GraphPool) => Described g → Described out.1)
    fun tag hg => ((hout hg).merge hR (hstaged hg) tag).1.1).bind
      fun out hout => builds_pure ⟨hr.back, hout⟩

/-! ## Histories -/

namespace Solver

theorem Stocked.built {c : Catalog} (h : v.Stocked c) : v.Built :=
  ⟨h.pool, h.graph, fun e he => (h.head e he).1⟩

theorem Stems.revise (h : v.Stems (fun _ => True) fun _ => True) (hv : v.Built) (g : Graph)
    (tag : Nat) : ((v.revise g).run tag).1.solver.Stems (fun _ => True) (fun _ => True) ∧
      ∀ g', ((v.revise g).run tag).1.result = .ok g' → Described g → Described g' := by
  rcases v.exists_reviseWork g tag with ⟨e, hresult, hsolver⟩ | ⟨o, w', hrun, hresult, hsolver⟩
  · rw [hsolver, hresult]
    exact ⟨h, nofun⟩
  · obtain ⟨hpool, hout⟩ := builds_wires hv.heads h.back g _ _ _ ⟨hv.pool, h.pool⟩ hrun
    rw [hsolver, hresult]
    cases o with
    | error e => exact ⟨⟨h.graph, h.back, hpool.stems⟩, nofun⟩
    | ok out =>
      obtain ⟨hback, hdescribed⟩ := hout out rfl
      exact ⟨⟨h.graph, hback, hpool.stems⟩, fun g' hg' => by cases hg'; exact hdescribed⟩

theorem Used.stems (h : Used s v) : v.Stems (fun _ => True) fun _ => True := by
  induction h with
  | fresh orders tag => exact stems_ofSettings (inherits_any _) orders tag
  | resolve d tag hv ih =>
    obtain ⟨hstocked, rfl⟩ := hv.stocked
    exact ih.resolve (inherits_any _) hstocked.built trivial tag
  | revise g tag hv ih =>
    obtain ⟨hstocked, rfl⟩ := hv.stocked
    exact (ih.revise hstocked.built g tag).1

/-- The graphs that solvers produce: those they have resolved, and what they make of such graphs by
revising them. The solvers may have different settings. -/
inductive Produced : Graph → Prop
  | resolved {s : Settings} {v : Solver} : Used s v → Produced v.graph
  | revised {s : Settings} {v : Solver} {g g' : Graph} {tag : Nat} : Used s v → Produced g →
      ((v.revise g).run tag).1.result = .ok g' → Produced g'

theorem Produced.described (h : Produced g) : Described g := by
  induction h with
  | resolved hv => exact Settings.Stems.described hv.stems.graph
  | revised hv _ hok ih =>
    obtain ⟨hstocked, rfl⟩ := hv.stocked
    exact (hv.stems.revise hstocked.built _ _).2 _ hok ih

/-- In every graph that was resolved or revised, with the back-edges of whatever solver goes on with
it, an edge that can be come to says what it leads to: its last desire has the satisfaction of the
node, and all its desires are for the point of the first, hence with its qualifier. -/
theorem describes_of_produced (hg : Produced g) (hv : Used s v)
    (hx : Linked v.backEdges g x) (he : e ∈ v.edgesFrom x) :
    (∃ a, e.1.chain.current.satisfaction? = some a ∧ (a == e.2.label.satisfaction) = true) ∧
      ∀ d ∈ e.1.chain.desires, d.point = e.1.initial.point ∧
        d.qualifier = e.1.initial.qualifier := by
  have hback : v.backEdges.AllEdges fun _ b => DescribesAll (b.label, b.tail) := by
    intro entry hentry b hb
    obtain ⟨hedge, htail⟩ := hv.stems.back entry hentry b hb
    exact ⟨hedge.describes, Settings.Stems.described htail⟩
  obtain ⟨⟨hsatisfaction, hpoint⟩, -⟩ := eachBeyond_edgesFrom hg.described hback hx he
  exact ⟨hsatisfaction, fun d hd => ⟨hpoint d hd, congrArg InjectionPoint.qualifier (hpoint d hd)⟩⟩

/-- A solver resolves a class with one dependency and revises its graph, where a trigger has an
opinion on everything. -/
theorem describes_of_pair :
    let pair : Catalog := .freeze [⟨.named "A", true, [], [⟨none, "b", .named "B", none, false⟩],
      {}, .noPreference, none, none⟩, ⟨.named "B", true, [], [], {}, .noPreference, none, none⟩] []
    let s : Settings := { ofConfig pair [] {} with
      triggers := [.chosen [.offer none .noPreference {}] fun _ _ => some 0] }
    let v := ((((ofSettings s).run 0).1.resolve (pair.rootDesire (.named "A") none)).run 1).1.solver
    let called := ((v.revise v.graph).run 10).1
    Used s called.solver ∧ (∃ g', called.result = .ok g' ∧ Produced g') ∧
      ∃ e ∈ called.solver.edgesFrom v.graph,
        (∃ a, e.1.chain.current.satisfaction? = some a ∧ (a == e.2.label.satisfaction) = true) ∧
          ∀ d ∈ e.1.chain.desires, d.point = e.1.initial.point ∧
            d.qualifier = e.1.initial.qualifier := by
  intro pair s v called
  have hok : called.result.isOk = true := by
    subst called v s pair
    decide +kernel
  have hedges : v.graph.edges.isEmpty = false := by
    subst called v s pair
    decide +kernel
  have hv : Used s v := .resolve _ 1 (.fresh _ 0)
  have hcalled : Used s called.solver := .revise v.graph 10 hv
  refine ⟨hcalled, ?_, ?_⟩
  · cases hresult : called.result with
    | error e =>
      rw [hresult] at hok
      cases hok
    | ok g' => exact ⟨g', rfl, .revised hv (.resolved hv) hresult⟩
  · obtain ⟨e, he⟩ := List.exists_mem_of_ne_nil v.graph.edges (by simpa using hedges)
    have he : e ∈ called.solver.edgesFrom v.graph := List.mem_append_left _ he
    exact ⟨e, he, describes_of_produced (.resolved hv) hcalled .root he⟩

end Solver

end Wiring
