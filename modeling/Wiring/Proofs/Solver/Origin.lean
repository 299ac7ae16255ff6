import Wiring.Proofs.Dag.Replace
import Wiring.Proofs.Solver.Determined

/-!
# Where the edges of a node come from

All edges of a node were bound in one context. It is the context inside of the resolution that led
to the node or, where that was put off, the context of some deferral of an equal component: equal
nodes are expanded together, in the context of one of them.
-/

namespace Wiring.Settings

open Catalog

variable {s : Settings} {roots ds : List Desire} {k c : Context} {e f : Resolved} {r : Resolution}
  {g x y : Graph} {q : List Deferral} {es : List Resolved}

/-- The deferrals that may come up while some root desires are resolved: in the tree of one of them,
or while a node is expanded that was put off before. -/
inductive Queued (s : Settings) (roots : List Desire) : Deferral → Prop
  | tree {d : Desire} {f : Deferral} : d ∈ roots → s.PutsOff d .initial f → Queued s roots f
  | expansion {d : Desire} {f f' : Deferral} : Queued s roots f → d ∈ s.catalog.needs f.node →
      s.PutsOff d f.context f' → Queued s roots f'

structure Bound (s : Settings) (k : Context) (e : Resolved) (r : Resolution) : Prop where
  yields : s.Yields r.chain.initial k r
  dependency : (r.dependency == e.1) = true
  component : (r.component s.catalog s.defaultPolicy == e.2.label) = true

/-- The context that the tail of an edge has its edges from. -/
inductive Onward (s : Settings) (roots : List Desire) (k : Context) (e : Resolved)
    (r : Resolution) : Context → Prop
  | inside : r.deferred = false → s.catalog.Complete e.2 → Onward s roots k e r (inside r k)
  | deferral {f : Deferral} : r.deferred = true → s.Queued roots f →
      (f.node.label == e.2.label) = true → Onward s roots k e r f.context

inductive BuiltIn (s : Settings) (roots : List Desire) : Graph → Context → Prop
  | node {g : Graph} {k : Context} (r : ∀ e ∈ g.edges, Resolution)
      (inner : ∀ e ∈ g.edges, Context) :
      (∀ e he, s.Bound k e (r e he)) → (∀ e he, s.Onward roots k e (r e he) (inner e he)) →
      (∀ e he, BuiltIn s roots e.2 (inner e he)) → BuiltIn s roots g k

/-- The edge was bound in the context, and so were those below in theirs. -/
def EdgeBuilt (s : Settings) (roots : List Desire) (k : Context) (e : Resolved) : Prop :=
  ∃ r inner, s.Bound k e r ∧ s.Onward roots k e r inner ∧ s.BuiltIn roots e.2 inner

theorem builtIn_iff : s.BuiltIn roots g k ↔ ∀ e ∈ g.edges, s.EdgeBuilt roots k e := by
  constructor
  · rintro ⟨r, inner, hbound, honward, hbuilt⟩ e he
    exact ⟨r e he, inner e he, hbound e he, honward e he, hbuilt e he⟩
  · intro h
    choose r inner hbound honward hbuilt using h
    exact .node r inner hbound honward hbuilt

theorem Queued.mono {roots' : List Desire} {f : Deferral} (h : s.Queued roots f)
    (hroots : ∀ d ∈ roots, d ∈ roots') : s.Queued roots' f := by
  induction h with
  | tree hd hf => exact .tree (hroots _ hd) hf
  | expansion _ hd hf ih => exact .expansion ih hd hf

theorem Onward.mono {roots' : List Desire} {inner : Context} (h : s.Onward roots k e r inner)
    (hroots : ∀ d ∈ roots, d ∈ roots') : s.Onward roots' k e r inner := by
  cases h with
  | inside hr hcomplete => exact .inside hr hcomplete
  | deferral hr hf hlabel => exact .deferral hr (hf.mono hroots) hlabel

theorem BuiltIn.mono {roots' : List Desire} (h : s.BuiltIn roots g k)
    (hroots : ∀ d ∈ roots, d ∈ roots') : s.BuiltIn roots' g k := by
  induction h with
  | node r inner hbound honward _ ih =>
    exact .node r inner hbound (fun e he => (honward e he).mono hroots) ih

/-! ## Equal nodes -/

theorem Bound.congr (h : s.Bound k e r) (hdep : (e.1 == f.1) = true)
    (hlabel : (e.2.label == f.2.label) = true) : s.Bound k f r :=
  ⟨h.yields, BEq.trans h.dependency hdep, BEq.trans h.component hlabel⟩

theorem Onward.congr {inner : Context} (h : s.Onward roots k e r inner)
    (hlabel : (e.2.label == f.2.label) = true)
    (hcomplete : s.catalog.Complete e.2 → s.catalog.Complete f.2) : s.Onward roots k f r inner := by
  cases h with
  | inside hr h => exact .inside hr (hcomplete h)
  | deferral hr hf h => exact .deferral hr hf (BEq.trans h hlabel)

theorem BuiltIn.of_beq (h : s.BuiltIn roots g k) (hg : g.WellBuilt) (hx : x.WellBuilt)
    (hgx : (g == x) = true) : s.BuiltIn roots x k := by
  induction h generalizing x with
  | node r inner hbound honward _ ih =>
    refine builtIn_iff.2 fun f hf => ?_
    obtain ⟨e, he, hdep, htail⟩ := Dag.edge_of_beq_symm hg hgx hf
    have hdep := BEq.symm hdep
    have htail := Dag.beq_symm (hx.tail hf) htail
    refine ⟨r e he, inner e he, (hbound e he).congr hdep (Dag.label_beq htail), ?_, ?_⟩
    · exact (honward e he).congr (Dag.label_beq htail) fun hc => hc.of_beq (hg.tail he) htail
    · exact ih e he (hg.tail he) (hx.tail hf) htail

theorem EdgeBuilt.of_beq (h : s.EdgeBuilt roots k e) (he : e.2.WellBuilt) (hf : f.2.WellBuilt)
    (hdep : (e.1 == f.1) = true) (htail : (e.2 == f.2) = true) : s.EdgeBuilt roots k f := by
  obtain ⟨r, inner, hbound, honward, hbuilt⟩ := h
  have hlabel := Dag.label_beq htail
  exact ⟨r, inner, hbound.congr hdep hlabel,
    honward.congr hlabel fun hc => hc.of_beq he htail, hbuilt.of_beq he hf htail⟩

/-! ## The tree of a desire -/

theorem Grown.edgeBuilt (hs : s.Unscripted) (h : Grown s q c ds es)
    (hq : ∀ d ∈ ds, ∀ f, s.PutsOff d c f → s.Queued roots f) : ∀ e ∈ es, s.EdgeBuilt roots c e := by
  induction h with
  | nil => simp
  | @deferred d c r f ds es hsettles hr _ hputs hbare hcontext _ ih =>
    intro e he
    rcases List.mem_cons.1 he with rfl | he
    · have hd := (Binds.settled hsettles).initial
      have hbuilt : s.BuiltIn roots f.node f.context :=
        builtIn_iff.2 fun e he => by simp [hbare.edges] at he
      refine ⟨r, f.context, ⟨?_, BEq.rfl, ?_⟩, ?_, hbuilt⟩
      · rw [hd]
        exact hsettles.yields hr
      · rw [hbare.label]
        exact BEq.rfl
      · exact .deferral hr (hq d List.mem_cons_self f hputs) BEq.rfl
    · exact ih (fun d hd => hq d (List.mem_cons_of_mem _ hd)) e he
  | @expanded d c r ds es edges tag hbinds hr hall hin _ ihin ih =>
    intro e he
    rcases List.mem_cons.1 he with rfl | he
    · obtain ⟨w, w', hall⟩ := hall
      have hedges := ihin fun d' hd' f hf =>
        hq d List.mem_cons_self f (.deeper hbinds hr hd' hf)
      have hbuilt : s.BuiltIn roots ((s.draftOf r edges).build.run tag).1 (inside r c) :=
        builtIn_iff.2 fun f hf => hedges f ((Dag.Draft.mem_addEdges hf).resolve_left (by simp))
      refine ⟨r, inside r c, ⟨?_, BEq.rfl, ?_⟩, .inside hr (complete_build hin.initial tag), hbuilt⟩
      · rw [hbinds.initial]
        exact hbinds.yields hs hall
      · show (_ == (s.draftOf r edges).label) = true
        unfold draftOf
        rw [Dag.Draft.label_addEdges]
        exact BEq.rfl
    · exact ih (fun d hd => hq d (List.mem_cons_of_mem _ hd)) e he

/-! ## Replacing a node -/

section Replace

variable {current new root : Graph} {m : Graph × Dag.Memo Component Dependency}
  {i : Graph × Graph} {d : Deferral}
  (h : Dag.NodeReplaced current new root .empty m) (hl : new.label = current.label)
  (hsame : s.catalog.Complete current → (current == new) = true)
include h hl hsame

theorem complete_image (hx : x.WellBuilt) (hcomplete : s.catalog.Complete x)
    (hi : i ∈ m.2.images) (hix : (i.1 == x) = true) : s.catalog.Complete i.2 := by
  have hiw := h.replacing.source i hi
  have hxi := Dag.beq_symm hiw hix
  have hcomplete := hcomplete.of_beq hx hxi
  obtain ⟨a, b⟩ := i
  cases h.replacing.image _ hi with
  | replaced ha =>
    have hcurrent := hcomplete.of_beq hiw ha
    exact hcomplete.of_beq hiw (Dag.beq_trans ha (hsame hcurrent))
  | kept _ => exact hcomplete
  | rebuilt _ _ hb =>
    intro d hd
    rw [needs_congr hb.label] at hd
    obtain ⟨e, he, hed⟩ := hcomplete d hd
    obtain ⟨f, hf, hfe, _⟩ := hb.edge e he
    exact ⟨f, hf, BEq.trans (Dependency.initial_beq hfe) hed⟩

/-- The node that is put in for one that was put off has its edges from the deferral. An equal node
that was not put off is complete already, and then nothing changes. -/
theorem BuiltIn.image (hroot : root.WellBuilt) (hcw : current.WellBuilt)
    (hreach : root.reaches current = true) (hd : s.Queued roots d)
    (hdl : (d.node.label == current.label) = true) (hnew : s.BuiltIn roots new d.context)
    (hx : s.BuiltIn roots x k) (hxw : x.WellBuilt) (hi : i ∈ m.2.images)
    (hix : (i.1 == x) = true) :
    s.BuiltIn roots i.2 k ∨ (x == current) = true ∧ ¬ s.catalog.Complete current := by
  induction hx generalizing i with
  | @node x k r inner hbound honward hbuilt ih =>
    have hxk : s.BuiltIn roots x k := .node r inner hbound honward hbuilt
    have hiw := h.replacing.source i hi
    have htw := h.replacing.target i hi
    have hxi := Dag.beq_symm hiw hix
    obtain ⟨a, b⟩ := i
    cases h.replacing.image _ hi with
    | replaced ha =>
      have hxc := Dag.beq_trans hxi ha
      by_cases hcomplete : s.catalog.Complete current
      · exact .inl (hxk.of_beq hxw htw (Dag.beq_trans hxc (hsame hcomplete)))
      · exact .inr ⟨hxc, hcomplete⟩
    | kept _ => exact .inl (hxk.of_beq hxw hiw hxi)
    | rebuilt _ _ hb =>
      refine .inl (builtIn_iff.2 fun f hf => ?_)
      obtain ⟨e, he, hfe, j, hj, hje, hjf⟩ := hb.origin f hf
      obtain ⟨e', he', hdep, htail⟩ := Dag.edge_of_beq hix he
      have hdep : (e'.1 == f.1) = true := hfe ▸ BEq.symm hdep
      have hje' := Dag.beq_trans hje htail
      have hjl := h.imageOf_label (by rw [hl]; exact BEq.rfl) j.1
      rw [h.replacing.imageOf_eq hj (Dag.same_refl _), hjf] at hjl
      have hlabel := BEq.trans (BEq.symm (Dag.label_beq hje')) hjl
      have hw := hxw.tail he'
      have hboundf := (hbound e' he').congr hdep hlabel
      rcases ih e' he' hw hj hje' with hbuilt | ⟨hec, hcomplete⟩
      · refine ⟨r e' he', inner e' he', hboundf, (honward e' he').congr hlabel fun hc => ?_, ?_⟩
        · exact hjf ▸ complete_image h hl hsame hw hc hj hje'
        · exact hjf ▸ hbuilt
      · have hjc := h.imageOf_old hroot hcw hreach
        rw [h.replacing.imageOf_eq hj (Dag.beq_trans hje' hec), hjf] at hjc
        refine ⟨r e' he', d.context, hboundf, ?_, hjc ▸ hnew⟩
        have hdf : (d.node.label == f.2.label) = true := by
          rw [hjc, hl]
          exact hdl
        have hinner := honward e' he'
        generalize inner e' he' = k' at hinner
        cases hinner with
        | inside _ hc => exact absurd (hc.of_beq hw hec) hcomplete
        | deferral hr _ _ => exact .deferral hr hd hdf

end Replace

end Wiring.Settings
