import Wiring.Proofs.Dag.Transform
import Wiring.Proofs.Solver.Paths
import Wiring.Solver.Revision

/-!
# The walk of a revision

The walk goes along every edge that is not selected, once in each context. An edge that is selected
where the walk meets it is resolved again in the context of the walk; met again, in whatever
context, it is passed over.
-/

namespace Wiring

open Work Settings

/-! ## Triggers -/

theorem CaseAnswer.give_turn {a : CaseAnswer} {c : Catalog} {turn : Nat} {chain : DesireChain}
    {o : Offer} (h : a.give c turn chain = .ok (some o)) (turn' : Nat) :
    ∃ o', a.give c turn' chain = .ok (some o') := by
  cases a with
  | fail message => cases h
  | offer target policy flags => exact ⟨_, rfl⟩

theorem BindingFunction.offer_turn {f : BindingFunction} {c : Catalog} {turn : Nat} {k : Context}
    {chain : DesireChain} {o : Offer} (h : f.offer c turn k chain [] = .ok (some o))
    (turn' : Nat) : ∃ o', f.offer c turn' k chain [] = .ok (some o') := by
  cases f with
  | rules | providers | defaults => exact ⟨o, h⟩
  | scripted cases =>
    unfold offer offerByCases at h ⊢
    dsimp only at h ⊢
    split at h
    · cases h
    · exact CaseAnswer.give_turn h turn'
  | chosen answers choose =>
    unfold offer offerByChoice at h ⊢
    dsimp only at h ⊢
    split at h
    · cases h
    · exact CaseAnswer.give_turn h turn'

namespace Settings

def Triggered (s : Settings) (c : Context) (d : Desire) : Prop :=
  ∃ f ∈ s.triggers, ∃ turn o, f.offer s.catalog turn c (.singleton d) [] = .ok (some o)

/-- The edge is not fixed, and some trigger has an opinion on its initial desire. -/
def Selects (s : Settings) (c : Context) (e : Resolved) : Prop :=
  e.1.fixed = false ∧ s.Triggered c e.1.initial

variable {s : Settings} {d : Desire} {c : Context} {w w' : Workspace} {g x : Graph}
  {e : Resolved}

theorem runs_anyOffer {chain : DesireChain} : ∀ (fs : List BindingFunction) {b : Bool}
    {w w' : Workspace}, (s.anyOffer c chain fs).Runs w (.ok b) w' →
    (b = true ↔ ∃ f ∈ fs, ∃ turn o, f.offer s.catalog turn c chain [] = .ok (some o)) ∧
      w'.pool = w.pool
  | [], _, _, _, h => by
    obtain ⟨hb, rfl⟩ := runs_pure.1 h
    cases hb
    simp
  | f :: fs, b, w, w', h => by
    rw [anyOffer] at h
    simp only [runs_bind_ok] at h
    obtain ⟨_, w1, hreport, turn, w2, hturn, o, w3, hoffer, h⟩ := h
    obtain ⟨-, rfl⟩ := runs_report.1 hreport
    obtain ⟨hturn, rfl⟩ := hturn
    obtain ⟨hoffer, rfl⟩ := hoffer
    have hask : f.offer s.catalog turn c chain [] = .ok o := hoffer.symm
    cases o with
    | some o =>
      obtain ⟨hb, rfl⟩ := runs_pure.1 h
      cases hb
      exact ⟨⟨fun _ => ⟨f, List.mem_cons_self, turn, o, hask⟩, fun _ => rfl⟩, rfl⟩
    | none =>
      obtain ⟨hiff, hpool⟩ := runs_anyOffer fs h
      refine ⟨hiff.trans ⟨?_, ?_⟩, hpool⟩
      · rintro ⟨f', hf', hoffers⟩
        exact ⟨f', List.mem_cons_of_mem _ hf', hoffers⟩
      · rintro ⟨f', hf', turn', o', hoffers⟩
        rcases List.mem_cons.1 hf' with rfl | hf'
        · obtain ⟨o'', hagain⟩ := BindingFunction.offer_turn hoffers turn
          rw [hask] at hagain
          cases hagain
        · exact ⟨f', hf', turn', o', hoffers⟩

theorem runs_isTriggered {b : Bool} (h : (s.isTriggered c d).Runs w (.ok b) w') :
    (b = true ↔ s.Triggered c d) ∧ w'.pool = w.pool :=
  runs_anyOffer s.triggers h

theorem runs_select {dep : Dependency} {b : Bool} (tail : Graph)
    (h : Runs (if dep.fixed then pure false else s.isTriggered c dep.initial) w (.ok b) w') :
    (b = true ↔ s.Selects c (dep, tail)) ∧ w'.pool = w.pool := by
  unfold Selects
  split at h
  · rename_i hfixed
    obtain ⟨hb, rfl⟩ := runs_pure.1 h
    cases hb
    simp [hfixed]
  · rename_i hfixed
    obtain ⟨hiff, hpool⟩ := runs_isTriggered h
    simp [hiff, hpool, hfixed]

/-! ## Resolving again -/

/-- What resolving a desire in a context gives, when what was put off is expanded. -/
inductive Redone (s : Settings) (d : Desire) (c : Context) : Resolved → Prop
  | mk {w w1 w2 w3 : Workspace} {dep : Dependency} {tree node : Graph} {b : BackEdges}
      {p : Pass} : w.queue = [] → PoolBuilt w → Resolves s d c w (.ok (dep, tree)) w1 →
      (merge tree).Runs w1 (.ok node) w2 →
      Drains s { root := node, backEdges := b } w2 (.ok p) w3 → Redone s d c (dep, p.root)

structure Headed (l : Component) (p : Pass) : Prop where
  wellBuilt : p.root.WellBuilt
  label : (p.root.label == l) = true

variable {l : Component} {p p' : Pass}

theorem Headed.replaced {current new : Graph} (h : Headed l p) (hnew : new.WellBuilt)
    (hl : new.label = current.label) (order : BackEdges.Order) (tag : Nat) :
    Headed l (replaced p current new order tag) := by
  have hreplaced : Dag.NodeReplaced current new p.root .empty _ :=
    replaced_node h.wellBuilt hnew order tag
  have hlabel := label_imageOf hreplaced hl p.root
  rw [hreplaced.imageOf_root] at hlabel
  exact ⟨hreplaced.wellBuilt, BEq.trans (BEq.symm hlabel) h.label⟩

theorem Headed.added {parent current : Graph} {edge : Resolved}
    {x : Graph × Pass} {v : Workspace} (hp : current.WellBuilt ∧ Headed l p)
    (h : ChildAdded s parent current c d p w edge x v) : x.1.WellBuilt ∧ Headed l x.2 := by
  obtain ⟨hcurrent, hp⟩ := hp
  have hchild : edge.2.WellBuilt := (h.raw edge.2 (.self _)).wellBuilt
  rcases h.choice with rfl | ⟨tag, order, tag', rfl⟩
  · -- A back-edge: the first node stays.
    exact ⟨hcurrent, hp.wellBuilt, hp.label⟩
  · -- One more child: the node gets it wherever it is below the first one.
    have hnew := withChild_wellBuilt hcurrent edge.1 hchild tag
    exact ⟨hnew, hp.replaced hnew (withChild_label ..) order tag'⟩

theorem headed_processDeferral {f : Deferral} (hpool : PoolBuilt w) (hf : f.node.WellBuilt)
    (hrun : (s.processDeferral p f).Runs w (.ok p') w') (hp : Headed l p) : Headed l p' := by
  cases runs_processDeferral.1 hrun with
  | skipped _ => exact hp
  | repeated _ _ => exact ⟨hp.wellBuilt, hp.label⟩
  | expanded _ _ hexpand =>
    obtain ⟨⟨_, -, hp'⟩, -⟩ := keeps_of_expandChildren
      (I := fun _ p current _ => current.WellBuilt ∧ Headed l p) (fun h hp => Headed.added hp h) _
      hpool hexpand ⟨hf, hp⟩
    exact ⟨hp'.wellBuilt, hp'.label⟩

theorem Drains.headed {o : Attempt Pass} (h : Drains s p w o w') (hpool : PoolBuilt w)
    (hbare : ∀ f ∈ w.queue, Bare f.node.label f.node) (hp : Headed l p) (ho : o = .ok p') :
    Headed l p' :=
  h.keeps (I := fun _ p => Headed l p) (fun hpool hf hp hrun =>
    headed_processDeferral hpool hf.wellBuilt hrun hp) hpool hbare hp ho

/-- A run that resolves the desire in the context gives the edge, as far as its label and that of
its tail. -/
def Answers (s : Settings) (c : Context) (d : Desire) (e : Resolved) : Prop :=
  ∃ w w' edge, (s.resolveFully d c).Runs w (.ok edge) w' ∧ (edge.1 == e.1) = true ∧
    (edge.2.label == e.2.label) = true

theorem Redone.answers (h : Redone s d c e) : s.Answers c d e ∧ e.2.WellBuilt := by
  cases h with
  | @mk w w1 w2 w3 dep tree node b p hempty hpool hd hmerge hdrains =>
    have htree := tree_wellBuilt hd
    obtain ⟨hnode, rfl⟩ := runs_merge.1 hmerge
    cases hnode
    obtain ⟨hbeq, hw, hpool'⟩ := Dag.Pool.merge_spec (hd.queues.pool hpool) htree w1.nextTag
    have hlabel := Dag.label_beq (Dag.beq_symm hw hbeq)
    have hbare : ∀ f ∈ w1.queue, Bare f.node.label f.node :=
      fun f hf => (hd.putsOff hempty f hf).bare
    have hp := hdrains.headed hpool' hbare ⟨hw, BEq.symm hlabel⟩ rfl
    exact ⟨⟨w, w1, (dep, tree), runs_of_resolves hd, BEq.rfl, BEq.symm hp.label⟩, hp.wellBuilt⟩

theorem Answers.congr {e' : Resolved} (h : s.Answers c d e) (he : Dag.SameEdge e e') :
    s.Answers c d e' := by
  obtain ⟨w, w', edge, hrun, hdep, hlabel⟩ := h
  exact ⟨w, w', edge, hrun, BEq.trans hdep he.label, BEq.trans hlabel he.tail.label⟩

theorem Answers.initial (h : s.Answers c d e) : (d == e.1.initial) = true := by
  obtain ⟨w, w', edge, hrun, hdep, -⟩ := h
  have hinitial := ((resolves_of_runs hrun).tree_grown rfl).initial
  cases hinitial with
  | cons h _ =>
    rw [← h]
    exact Dependency.initial_beq hdep

/-- What resolving an edge again comes to: its desire fails, or its tree is merged and what was put
off in it is worked off. The queue was emptied first, so nothing else is. -/
inductive Replaces (s : Settings) (e : GraphEdge) (c : Context) (r : Revision) (w : Workspace) :
    Attempt Revision → Workspace → Prop
  | unresolved {error : WiringError} {w' : Workspace} :
      Resolves s e.label.initial c { w with queue := [] } (.error error) w' →
      Replaces s e c r w (.error error) w'
  | drained {dep : Dependency} {tree node : Graph} {w1 w2 w' : Workspace} {o : Attempt Pass}
      {pre : List Deferral} :
      Resolves s e.label.initial c { w with queue := [] } (.ok (dep, tree)) w1 →
      (merge tree).Runs w1 (.ok node) w2 → (∀ f ∈ w2.queue, Bare f.node.label f.node) →
      Drains s { root := node, backEdges := r.backEdges } w2 o (w'.behind pre) →
      Replaces s e c r w (o.map fun p => { r with
        backEdges := p.backEdges,
        replacements := r.replacements ++ [(e, ⟨e.head, p.root, dep⟩)] }) w'

theorem replaces_of_runs {e : GraphEdge} {r : Revision} {o : Attempt Revision}
    (h : (s.replaceEdge e c r).Runs w o w') : Replaces s e c r w o w' := by
  unfold replaceEdge at h
  rcases runs_bind.1 h with ⟨_, w0, hempty, h⟩ | ⟨_, _, hempty⟩
  · have hw0 : w0 = { w with queue := [] } := hempty.2
    subst hw0
    rcases runs_bind.1 h with ⟨⟨dep, tree⟩, w1, hd, h⟩ | ⟨error, rfl, hd⟩
    · have hd := resolves_of_runs hd
      rcases runs_bind.1 h with ⟨node, w2, hmerge, h⟩ | ⟨_, _, hmerge⟩
      · have hdeeper : ∀ f ∈ w2.queue, s.Deeper 0 f := by
          obtain ⟨-, rfl⟩ := runs_merge.1 hmerge
          intro f hf
          obtain ⟨hafter, hwithin, hbare⟩ := Solver.deeper_of_resolves rfl hd f hf
          exact ⟨by omega, hwithin, hbare⟩
        have hbare : ∀ f ∈ w2.queue, Bare f.node.label f.node := fun f hf => (hdeeper f hf).bare
        rcases runs_bind.1 h with ⟨⟨root, b⟩, w3, hdrain, hpure⟩ | ⟨error, rfl, hdrain⟩
        · obtain ⟨rfl, rfl⟩ := runs_pure.1 hpure
          obtain ⟨o, pre, hdrains, ho⟩ := drains_of_processDeferrals hdeeper hdrain
          cases o with
          | error _ => cases ho
          | ok p =>
            cases ho
            exact .drained hd hmerge hbare hdrains
        · obtain ⟨o, pre, hdrains, ho⟩ := drains_of_processDeferrals hdeeper hdrain
          cases o with
          | error _ =>
            cases ho
            exact .drained hd hmerge hbare hdrains
          | ok _ => cases ho
      · cases (runs_merge.1 hmerge).1
    · exact .unresolved (resolves_of_runs hd)
  · cases hempty.1

theorem redone_of_runs {e : GraphEdge} {r r' : Revision} (hpool : PoolBuilt w)
    (h : (s.replaceEdge e c r).Runs w (.ok r') w') :
    PoolBuilt w' ∧ r'.visited = r.visited ∧ ∃ edge, Redone s e.label.initial c edge ∧
      r'.replacements = r.replacements ++ [(e, ⟨e.head, edge.2, edge.1⟩)] := by
  have hreplaces := replaces_of_runs h
  generalize ho : (Except.ok r' : Attempt Revision) = o at hreplaces
  cases hreplaces with
  | unresolved _ => cases ho
  | @drained dep tree node w1 w2 _ o pre hd hmerge _ hdrains =>
    cases o with
    | error _ => cases ho
    | ok p =>
      cases ho
      have hpool0 : PoolBuilt { w with queue := [] } := hpool
      have hpool1 : PoolBuilt w1 := hd.queues.pool hpool0
      have hmerged := queues_merge (P := fun _ => True) (tree_wellBuilt hd) hmerge
      have hpool3 : PoolBuilt (w'.behind pre) := hdrains.pool (hmerged.pool hpool1)
      exact ⟨hpool3, rfl, _, .mk rfl hpool0 hd hmerge hdrains, rfl⟩

/-! ## The walk -/

/-- Where the walk may come: along edges that are not selected in its context. -/
inductive Walks (s : Settings) (g : Graph) : Graph → Context → Prop
  | root : Walks s g g .initial
  | step {x : Graph} {c : Context} {e : Resolved} : Walks s g x c → e ∈ x.edges →
      ¬ s.Selects c e → Walks s g e.2 (along c e)

/-- An edge was selected in a context that the walk met it in, and resolved again there. -/
structure Staged (s : Settings) (g : Graph) (c : Context) (e e' : GraphEdge) : Prop where
  walks : Walks s g e.head c
  mem : (e.label, e.tail) ∈ e.head.edges
  selects : s.Selects c (e.label, e.tail)
  redone : Redone s e.label.initial c (e'.label, e'.tail)

/-- The walk is done with an edge in a context: something was staged for the edge, or it is not
selected and the walk was at its tail. -/
def Handled (s : Settings) (r : Revision) (x : Graph) (c : Context) (e : Resolved) : Prop :=
  (r.replacement? ⟨x, e.2, e.1⟩).isSome = true ∨
    ¬ s.Selects c e ∧ r.wasAt e.2 (along c e) = true

structure Goes (s : Settings) (g : Graph) (r r' : Revision) : Prop where
  staged : ∃ ps, r'.replacements = r.replacements ++ ps ∧ ∀ p ∈ ps, ∃ c, Staged s g c p.1 p.2
  visited : ∀ v ∈ r.visited, v ∈ r'.visited
  added : ∀ v ∈ r'.visited, v ∈ r.visited ∨
    Walks s g v.1 v.2 ∧ ∀ e ∈ v.1.edges, s.Handled r' v.1 v.2 e

variable {r r' r'' : Revision}

theorem Handled.mono (h : s.Handled r x c e) (hgoes : Goes s g r r') : s.Handled r' x c e := by
  obtain ⟨ps, hps, -⟩ := hgoes.staged
  rcases h with hsome | ⟨hnot, hat⟩
  · left
    unfold Revision.replacement? at hsome ⊢
    rw [hps, List.find?_append]
    rw [Option.isSome_map] at hsome ⊢
    rw [Option.isSome_or, hsome, Bool.true_or]
  · right
    unfold Revision.wasAt at hat ⊢
    rw [List.any_eq_true] at hat ⊢
    obtain ⟨v, hv, hsame⟩ := hat
    exact ⟨hnot, v, hgoes.visited v hv, hsame⟩

theorem Goes.refl (s : Settings) (g : Graph) (r : Revision) : Goes s g r r :=
  ⟨⟨[], by simp, by simp⟩, fun _ hv => hv, fun _ hv => .inl hv⟩

theorem Goes.trans (h : Goes s g r r') (h' : Goes s g r' r'') : Goes s g r r'' := by
  obtain ⟨ps, hps, hstaged⟩ := h.staged
  obtain ⟨qs, hqs, hstaged'⟩ := h'.staged
  refine ⟨⟨ps ++ qs, by rw [hqs, hps, List.append_assoc], fun p hp => ?_⟩,
    fun v hv => h'.visited v (h.visited v hv), fun v hv => ?_⟩
  · rcases List.mem_append.1 hp with hp | hp
    · exact hstaged p hp
    · exact hstaged' p hp
  · rcases h'.added v hv with hv | hv
    · rcases h.added v hv with hv | ⟨hwalks, hhandled⟩
      · exact .inl hv
      · exact .inr ⟨hwalks, fun e he => (hhandled e he).mono h'⟩
    · exact .inr hv

theorem goes_of_staged {edge : Resolved} {x : Graph} {dep : Dependency} {tail : Graph}
    (hstaged : Staged s g c ⟨x, tail, dep⟩ ⟨x, edge.2, edge.1⟩)
    (hvisited : r'.visited = r.visited)
    (hr : r'.replacements = r.replacements ++ [(⟨x, tail, dep⟩, ⟨x, edge.2, edge.1⟩)]) :
    Goes s g r r' ∧ s.Handled r' x c (dep, tail) := by
  refine ⟨⟨⟨_, hr, fun p hp => ?_⟩, fun v hv => hvisited ▸ hv, fun v hv => .inl (hvisited ▸ hv)⟩,
    .inl ?_⟩
  · rw [List.mem_singleton.1 hp]
    exact ⟨c, hstaged⟩
  · unfold Revision.replacement?
    rw [hr, Option.isSome_map, List.find?_isSome]
    exact ⟨_, List.mem_append_right _ List.mem_cons_self, BEq.rfl⟩

mutual

theorem goes_of_reviseNode : ∀ (x : Graph) {c : Context} {r r' : Revision} {w w' : Workspace},
    (s.reviseNode x c r).Runs w (.ok r') w' → PoolBuilt w → Walks s g x c →
    Goes s g r r' ∧ r'.wasAt x c = true ∧ PoolBuilt w'
  | .node t h l es, c, r, r', w, w', hrun, hpool, hwalks => by
    rw [reviseNode] at hrun
    split at hrun
    · rename_i hat
      obtain ⟨hr, rfl⟩ := runs_pure.1 hrun
      cases hr
      exact ⟨.refl s g r, hat, hpool⟩
    · -- The node was noted before the walk along its edges, and is handled after it.
      obtain ⟨hgoes, hhandled, hpool'⟩ :=
        goes_of_reviseEdges (.node t h l es) es hrun hpool hwalks fun e he => he
      refine ⟨⟨hgoes.staged, fun v hv => hgoes.visited v (List.mem_cons_of_mem _ hv),
        fun v hv => ?_⟩, ?_, hpool'⟩
      · rcases hgoes.added v hv with hv | hv
        · rcases List.mem_cons.1 hv with rfl | hv
          · exact .inr ⟨hwalks, hhandled⟩
          · exact .inl hv
        · exact .inr hv
      · unfold Revision.wasAt
        rw [List.any_eq_true]
        exact ⟨_, hgoes.visited _ List.mem_cons_self, by simp⟩

theorem goes_of_reviseEdges (x : Graph) : ∀ (es : List Resolved) {c : Context} {r r' : Revision}
    {w w' : Workspace}, (s.reviseEdges x es c r).Runs w (.ok r') w' → PoolBuilt w →
    Walks s g x c → (∀ e ∈ es, e ∈ x.edges) →
    Goes s g r r' ∧ (∀ e ∈ es, s.Handled r' x c e) ∧ PoolBuilt w'
  | [], c, r, _, _, _, hrun, hpool, _, _ => by
    rw [reviseEdges] at hrun
    obtain ⟨hr, rfl⟩ := runs_pure.1 hrun
    cases hr
    exact ⟨.refl s g r, by simp, hpool⟩
  | (dep, tail) :: rest, c, r, r', w, w', hrun, hpool, hwalks, hes => by
    have hmem : (dep, tail) ∈ x.edges := hes _ List.mem_cons_self
    -- However the first edge is handled, it is so after the walk along the others.
    have hrest : ∀ {r1 w1}, (s.reviseEdges x rest c r1).Runs w1 (.ok r') w' → PoolBuilt w1 →
        Goes s g r r1 → s.Handled r1 x c (dep, tail) →
        Goes s g r r' ∧ (∀ e ∈ (dep, tail) :: rest, s.Handled r' x c e) ∧ PoolBuilt w' := by
      intro r1 w1 hrun hpool1 hgoes hfirst
      obtain ⟨hgoes', hhandled, hpool'⟩ := goes_of_reviseEdges x rest hrun hpool1 hwalks
        fun e he => hes e (List.mem_cons_of_mem _ he)
      exact ⟨hgoes.trans hgoes', List.forall_mem_cons.2 ⟨hfirst.mono hgoes', hhandled⟩, hpool'⟩
    rw [reviseEdges] at hrun
    split at hrun
    · rename_i hsome
      exact hrest hrun hpool (.refl s g r) (.inl hsome)
    · obtain ⟨b, w1, hselect, hrun⟩ := runs_bind_ok.1 hrun
      obtain ⟨hiff, hpool1⟩ := runs_select tail hselect
      have hpool1 : PoolBuilt w1 := by
        unfold PoolBuilt
        rwa [hpool1]
      split at hrun
      · rename_i hb
        obtain ⟨r1, w2, hreplace, hrun⟩ := runs_bind_ok.1 hrun
        obtain ⟨hpool2, hvisited, edge, hredone, hr1⟩ := redone_of_runs hpool1 hreplace
        obtain ⟨hgoes, hhandled⟩ :=
          goes_of_staged ⟨hwalks, hmem, hiff.1 hb, hredone⟩ hvisited hr1
        exact hrest hrun hpool2 hgoes hhandled
      · rename_i hb
        have hnot : ¬ s.Selects c (dep, tail) := fun h => hb (hiff.2 h)
        obtain ⟨r1, w2, hnode, hrun⟩ := runs_bind_ok.1 hrun
        obtain ⟨hgoes, hat, hpool2⟩ := goes_of_reviseNode tail hnode hpool1
          (.step hwalks hmem hnot)
        exact hrest hrun hpool2 hgoes (.inr ⟨hnot, hat⟩)

end

end Settings

end Wiring
