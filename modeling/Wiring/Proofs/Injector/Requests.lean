import Wiring.Proofs.Injector.Watching
import Wiring.Proofs.Solver.Independence
import Wiring.Proofs.Solver.Trails

/-!
# Roots that are requested

A root is resolved when it is first requested, and its edge is found again however the root node is
rebuilt: while deferrals are expanded no two edges of the root node are for one desire, every root
that was resolved keeps its edge, and no edge comes without a root.
-/

namespace Wiring

open Making Settings

/-! ## The edges of the root node -/

variable {s : Settings} {d : Desire} {ds : List Desire} {g : Graph} {v : Solver}

/-- The root node has edges for just these desires. Edges for one desire are equal. -/
structure Rooted (ds : List Desire) (g : Graph) : Prop where
  edge : ∀ d ∈ ds, ∃ e ∈ g.edges, (e.1.initial == d) = true
  origin : ∀ e ∈ g.edges, ∃ d ∈ ds, (e.1.initial == d) = true
  same : ∀ e ∈ g.edges, ∀ f ∈ g.edges, (e.1.initial == f.1.initial) = true → Dag.SameEdge e f

theorem rooted_nil (s : Settings) (orders : Nat → BackEdges.Order) (tag : Nat) :
    Rooted [] ((Solver.ofSettings s orders).run tag).1.graph :=
  ⟨nofun, nofun, nofun⟩

theorem keeps_rooted (s : Settings) (ds : List Desire) : s.Keeps fun p => Rooted ds p.root where
  closed _ _ _ h := h
  repeated _ _ h := h
  noted _ h := h
  replaced := @fun _ p current _ _ child dep tag order tag' hg hchild h => by
    have hnew := withChild_wellBuilt hg.wellBuilt dep hchild tag
    have hnode : Dag.NodeReplaced current (withChild current dep child tag) p.root .empty _ :=
      replaced_node hg.sound.wellBuilt hnew order tag'
    have hedges := hnode.root_edges hg.sound.wellBuilt hg.reached
    refine ⟨fun d hd => ?_, fun f hf => ?_, fun f hf f' hf' hff => ?_⟩
    · obtain ⟨e, he, hed⟩ := h.edge d hd
      obtain ⟨f, hf, hef⟩ := hedges.edge e he
      exact ⟨f, hf, BEq.trans (BEq.symm (Dependency.initial_beq hef.label)) hed⟩
    · obtain ⟨e, he, hef⟩ := hedges.origin f hf
      obtain ⟨d, hd, hed⟩ := h.origin e he
      exact ⟨d, hd, BEq.trans (BEq.symm (Dependency.initial_beq hef.label)) hed⟩
    · obtain ⟨e, he, hef⟩ := hedges.origin f hf
      obtain ⟨e', he', hef'⟩ := hedges.origin f' hf'
      have hee : (e.1.initial == e'.1.initial) = true :=
        BEq.trans (Dependency.initial_beq hef.label)
          (BEq.trans hff (BEq.symm (Dependency.initial_beq hef'.label)))
      exact hef.symm.trans ((hnode.moved_same (h.same e he e' he' hee)).trans hef')

theorem Rooted.link (h : Rooted ds g)
    (hnone : ∀ e ∈ g.edges, (e.1.initial == d) = false) (edge : Resolved)
    (hedge : edge.1.initial = d) (hw : edge.2.WellBuilt) (tag : Nat) :
    Rooted (ds ++ [d]) (withChild g edge.1 edge.2 tag) := by
  subst hedge
  have hold : ∀ e ∈ g.edges, (edge.1.initial == e.1.initial) = false := fun e he =>
    Bool.eq_false_iff.2 fun hbeq => Bool.eq_false_iff.1 (hnone e he) (BEq.symm hbeq)
  refine ⟨fun d' hd' => ?_, fun e he => ?_, fun e he f hf hef => ?_⟩
  · rcases List.mem_append.1 hd' with hd' | hd'
    · obtain ⟨e, he, hed⟩ := h.edge d' hd'
      exact ⟨e, subset_withChild he, hed⟩
    · obtain ⟨f, hf, hlabel, -⟩ := exists_withChild g edge.1 edge.2 tag
      obtain rfl := List.mem_singleton.1 hd'
      exact ⟨f, hf, Dependency.initial_beq hlabel⟩
  · rcases mem_withChild he with he | rfl
    · obtain ⟨d', hd', hed⟩ := h.origin e he
      exact ⟨d', List.mem_append_left _ hd', hed⟩
    · exact ⟨_, List.mem_append_right _ List.mem_cons_self, BEq.rfl⟩
  · rcases mem_withChild he with he | rfl <;> rcases mem_withChild hf with hf | rfl
    · exact h.same e he f hf hef
    · simp [hnone e he] at hef
    · simp [hold f hf] at hef
    · exact .refl hw

theorem Rooted.filter (h : Rooted ds g) (hg : g.WellBuilt) (hd : d ∈ ds) :
    ∃ e, (g.edges.filter fun e => e.1.initial == d) = [e] := by
  obtain ⟨e, he, hed⟩ := h.edge d hd
  have hmem : e ∈ g.edges.filter fun e => e.1.initial == d := List.mem_filter.2 ⟨he, hed⟩
  have hdistinct := hg.distinct.filter (p := fun e => e.1.initial == d)
  have hall : ∀ f ∈ g.edges.filter fun e => e.1.initial == d,
      f ∈ g.edges ∧ (f.1.initial == d) = true := fun f hf => List.mem_filter.1 hf
  revert hmem hdistinct hall
  generalize (g.edges.filter fun e => e.1.initial == d) = found
  intro hmem hdistinct hall
  -- two edges for one desire are equal, and a node has no two equal edges
  match found with
  | [] => cases hmem
  | [f] => exact ⟨f, rfl⟩
  | f :: f' :: rest =>
    obtain ⟨hf, hfd⟩ := hall f List.mem_cons_self
    obtain ⟨hf', hfd'⟩ := hall f' (List.mem_cons_of_mem _ List.mem_cons_self)
    have hbeq := (h.same f hf f' hf' (BEq.trans hfd (BEq.symm hfd'))).beq
    have hne := List.rel_of_pairwise_cons hdistinct List.mem_cons_self
    simp [hbeq] at hne

theorem rootNode?_eq_none (h : v.rootNode? d = none) :
    ∀ e ∈ v.graph.edges, (e.1.initial == d) = false := by
  intro e he
  refine Bool.eq_false_iff.2 fun hed => ?_
  obtain ⟨f, -, -, hsome⟩ := Solver.exists_resolved he hed
  have hnone : v.graph.resolved? d = none := h
  simp [hnone] at hsome

theorem exists_of_rootNode? {node : Graph} (h : v.rootNode? d = some node) :
    ∃ e ∈ v.graph.edges, (e.1.initial == d) = true ∧ e.2 = node := by
  unfold Solver.rootNode? Graph.resolved? Dag.outgoing? Dag.outgoing at h
  obtain ⟨f, hf, rfl⟩ := Option.map_eq_some_iff.1 h
  obtain ⟨e, he, rfl⟩ := List.mem_map.1 (List.mem_of_find?_eq_some hf)
  exact ⟨e, he, by simpa using List.find?_some hf, rfl⟩

theorem Rooted.rootNode? (h : Rooted ds v.graph) (hd : d ∈ ds) :
    ∃ node, v.rootNode? d = some node := by
  obtain ⟨e, he, hed⟩ := h.edge d hd
  obtain ⟨f, -, -, hsome⟩ := Solver.exists_resolved he hed
  exact ⟨f.2, hsome⟩

theorem Rooted.resolve (h : Rooted ds v.graph) (hv : v.Sound) (hnone : v.rootNode? d = none)
    {tag : Nat} (hok : ((v.resolve d).run tag).1.result = .ok ()) :
    Rooted (ds ++ [d]) ((v.resolve d).run tag).1.solver.graph := by
  have hstart : ∀ (edge : Resolved) (tag' : Nat), edge.1.initial = d → edge.2.WellBuilt →
      Rooted (ds ++ [d]) (withChild v.graph edge.1 edge.2 tag') := fun edge tag' hd hw =>
    h.link (rootNode?_eq_none hnone) edge hd hw tag'
  obtain ⟨p, hp, hgraph, -⟩ := (keeps_rooted v.settings (ds ++ [d])).resolve hv hstart hok
  exact hgraph ▸ hp

theorem Catalog.eq_rootDesire {c : Catalog} {t : TypeKey} {q : Option Qualifier}
    (h : (d == c.rootDesire t q) = true) : d = c.rootDesire t q := by
  obtain ⟨p, t', satisfaction?⟩ := d
  obtain rfl : p = .ofRoot t q := Desire.point_of_beq h
  obtain rfl : t' = t := Desire.type_of_beq h
  have hsame : sameOptional satisfaction? (c.classSatisfaction? t') = true := by
    have h : Desire.same _ _ = true := h
    simp only [rootDesire, desire, InjectionPoint.ofRoot, Desire.same, Bool.and_eq_true] at h
    exact h.2
  have hnone : satisfaction? = c.classSatisfaction? t' := by
    revert hsame
    unfold classSatisfaction?
    split <;> intro hsame
    · match satisfaction? with
      | none => cases hsame
      | some (.construct a) =>
        have heq : (a == t') = true := hsame
        rw [eq_of_beq heq]
    · match satisfaction? with
      | none => rfl
  rw [hnone]
  rfl

/-! ## Errors -/

def WiringError.SparesRoots (e : WiringError) : Prop := ∀ d, e ≠ .invalidGraph (.noRootEdge d)

variable {c : Catalog} {turn : Nat} {context : Context} {e : WiringError} {root : Desire}

theorem CaseAnswer.sparesRoots_of_give {a : CaseAnswer} {chain : DesireChain}
    (h : a.give c turn chain = .error e) : e.SparesRoots := by
  cases a with
  | fail message =>
    cases h
    nofun
  | offer target policy flags => cases h

theorem BindingFunction.sparesRoots_of_offer {f : BindingFunction} {chain : DesireChain}
    {applied : List Rule} (h : f.offer c turn context chain applied = .error e) :
    e.SparesRoots := by
  cases f with
  | rules groups =>
    unfold offer offerByRules at h
    dsimp only at h
    split at h <;> cases h
    nofun
  | providers | defaults => cases h
  | scripted cases =>
    unfold offer offerByCases at h
    dsimp only at h
    split at h
    · cases h
    · exact CaseAnswer.sparesRoots_of_give h
  | chosen answers choose =>
    unfold offer offerByChoice at h
    dsimp only at h
    split at h
    · cases h
    · exact CaseAnswer.sparesRoots_of_give h

theorem Rounds.sparesRoots_of_resolution {r : Rounds} (h : r.resolution context = .error e) :
    e.SparesRoots := by
  unfold resolution at h
  split at h <;> cases h
  nofun

theorem Rounds.Ends.sparesRoots {r : Rounds} {x : Settled} (h : Ends c turn context r x)
    (hx : x.outcome = .error e) : e.SparesRoots := by
  induction h with
  | ended _ | stuck _ _ => exact sparesRoots_of_resolution hx
  | failed _ hask =>
    cases hx
    obtain ⟨b, -, hb⟩ := askBinders_error hask
    exact BindingFunction.sparesRoots_of_offer hb
  | bound _ _ _ ih => exact ih hx

theorem sparesRoots_of_settle {functions : List BindingFunction}
    (h : (settle c functions turn context d).outcome = .error e) : e.SparesRoots := by
  unfold settle at h
  cases hx : (Rounds.start functions d).run? c turn context (roundBound c functions) with
  | none =>
    rw [hx] at h
    cases h
    nofun
  | some x =>
    rw [hx] at h
    exact (Rounds.ends_of_run? hx).sparesRoots h

theorem Settings.TrailError.sparesRoots (h : s.TrailError root e) : e.SparesRoots := by
  cases h with
  | unsettled _ he => exact sparesRoots_of_settle he
  | tooDeep _ => nofun

theorem Solver.sparesRoots_of_resolve {tag : Nat}
    (h : ((v.resolve d).run tag).1.result = .error e) : e.SparesRoots := by
  obtain ⟨o, w', hcalls, hresult, -⟩ := v.exists_calls d tag
  rw [hresult] at h
  cases o with
  | ok _ => cases h
  | error _ =>
    cases h
    exact (hcalls.trailError rfl rfl).sparesRoots

/-! ## Requests -/

structure Request where
  type : TypeKey
  qualifier : Option Qualifier
  /-- What resolving the root came to, if it was not there yet. -/
  resolution : Option (Attempt Unit)
  outcome : Attempt Instantiator

def Request.desire (a : Request) (c : Catalog) : Desire := c.rootDesire a.type a.qualifier

namespace Injector

variable {i i' i'' : Injector} {type : TypeKey} {qualifier : Option Qualifier}
  {r : Attempt Instantiator} {log : List Request}

def wanted (i : Injector) (type : TypeKey) (qualifier : Option Qualifier) : Desire :=
  i.solver.settings.catalog.rootDesire type qualifier

/-- What resolving a root comes to that is requested now, if it is not there yet. -/
def resolution? (i : Injector) (type : TypeKey) (qualifier : Option Qualifier) :
    Option (Attempt Unit) :=
  match i.solver.rootNode? (i.wanted type qualifier) with
  | some _ => none
  | none => some ((i.solver.resolve (i.wanted type qualifier)).run i.nextTag).1.result

/-- What an injector is used for from the beginning, and the requests that end in the course of it.
Whatever else happens leaves the solver as it is. -/
inductive Answered (s : Settings) : Injector → List Request → Prop
  | opened (policy : CachePolicy) (orders : Nat → BackEdges.Order) :
      Answered s (ofSettings s policy orders) []
  | requested {i i' : Injector} {type : TypeKey} {qualifier : Option Qualifier}
      {r : Attempt Instantiator} {log : List Request} : Answered s i log →
      RunsTo (requestRoot type qualifier) i r i' →
      Answered s i' (log ++ [⟨type, qualifier, i.resolution? type qualifier, r⟩])
  | aside {i i' : Injector} {log : List Request} : Answered s i log → i'.solver = i.solver →
      Answered s i' log

def resolving (i : Injector) (d : Desire) : Injector :=
  let (called, nextTag) := (i.solver.resolve d).run i.nextTag
  { i with solver := called.solver, nextTag, metrics := i.metrics.addAll called.events }

def asked (i : Injector) (node : Graph) : Injector :=
  { i with container := (i.container.makerFor node i.solver.backEdges).2 }

def makerFor (i : Injector) (node : Graph) : Instantiator :=
  (i.container.makerFor node i.solver.backEdges).1

inductive Answers (i : Injector) (d : Desire) : Attempt Instantiator → Injector → Prop
  | found {node : Graph} : i.solver.rootNode? d = some node →
      Answers i d (.ok (i.makerFor node)) (i.asked node)
  | failed {e : WiringError} : i.solver.rootNode? d = none →
      ((i.solver.resolve d).run i.nextTag).1.result = .error e →
      Answers i d (.error e) (i.resolving d)
  | resolved {node : Graph} : i.solver.rootNode? d = none →
      ((i.solver.resolve d).run i.nextTag).1.result = .ok () →
      (i.resolving d).solver.rootNode? d = some node →
      Answers i d (.ok ((i.resolving d).makerFor node)) ((i.resolving d).asked node)
  | lost : i.solver.rootNode? d = none →
      ((i.solver.resolve d).run i.nextTag).1.result = .ok () →
      (i.resolving d).solver.rootNode? d = none →
      Answers i d (.error (.invalidGraph (.noRootEdge d))) (i.resolving d)

theorem runsTo_rootMaker_some {node : Graph} (h : i.solver.rootNode? d = some node) :
    RunsTo (rootMaker d) i (.ok (i.makerFor node)) (i.asked node) := by
  unfold rootMaker
  refine runsTo_bind.2 (.inl ⟨i, i, rfl, ?_⟩)
  rw [h]
  rfl

theorem runsTo_rootMaker_none (h : i.solver.rootNode? d = none) :
    RunsTo (rootMaker d) i (.error (.invalidGraph (.noRootEdge d))) i := by
  unfold rootMaker
  refine runsTo_bind.2 (.inl ⟨i, i, rfl, ?_⟩)
  rw [h]
  rfl

theorem runsTo_resolveRoot (i : Injector) (d : Desire) :
    RunsTo (resolveRoot d) i ((i.solver.resolve d).run i.nextTag).1.result (i.resolving d) := rfl

theorem exists_answers (i : Injector) (type : TypeKey) (qualifier : Option Qualifier) :
    ∃ r i', RunsTo (requestRoot type qualifier) i r i' ∧
      Answers i (i.wanted type qualifier) r i' := by
  have hrun : ∀ {r i'}, RunsTo (do
      if (i.solver.rootNode? (i.wanted type qualifier)).isNone then
        resolveRoot (i.wanted type qualifier)
      rootMaker (i.wanted type qualifier)) i r i' → RunsTo (requestRoot type qualifier) i r i' :=
    fun h => runsTo_bind.2 (.inl ⟨i, i, rfl, h⟩)
  cases hnode : i.solver.rootNode? (i.wanted type qualifier) with
  | some node =>
    rw [hnode] at hrun
    exact ⟨_, _, hrun (runsTo_rootMaker_some hnode), .found hnode⟩
  | none =>
    rw [hnode] at hrun
    have hresolve := runsTo_resolveRoot i (i.wanted type qualifier)
    cases hresult : ((i.solver.resolve (i.wanted type qualifier)).run i.nextTag).1.result with
    | error e =>
      rw [hresult] at hresolve
      exact ⟨_, _, hrun (runsTo_bind.2 (.inr ⟨e, rfl, hresolve⟩)), .failed hnode hresult⟩
    | ok =>
      rw [hresult] at hresolve
      cases hnext : (i.resolving (i.wanted type qualifier)).solver.rootNode?
          (i.wanted type qualifier) with
      | some node =>
        exact ⟨_, _, hrun (runsTo_bind.2 (.inl ⟨_, _, hresolve, runsTo_rootMaker_some hnext⟩)),
          .resolved hnode hresult hnext⟩
      | none =>
        exact ⟨_, _, hrun (runsTo_bind.2 (.inl ⟨_, _, hresolve, runsTo_rootMaker_none hnext⟩)),
          .lost hnode hresult hnext⟩

theorem answers_of_runsTo (h : RunsTo (requestRoot type qualifier) i r i') :
    Answers i (i.wanted type qualifier) r i' := by
  obtain ⟨r', i'', h', hanswers⟩ := exists_answers i type qualifier
  cases h.symm.trans h'
  exact hanswers

theorem asked_of_runsTo {m : Instantiator}
    (h : RunsTo (requestRoot type qualifier) i (.ok m) i') :
    ∃ j node, (j = i ∨ j = i.resolving (i.wanted type qualifier)) ∧
      j.solver.rootNode? (i.wanted type qualifier) = some node ∧ m = j.makerFor node ∧
      i' = j.asked node := by
  cases answers_of_runsTo h with
  | found hnode => exact ⟨i, _, .inl rfl, hnode, rfl, rfl⟩
  | resolved _ _ hnode => exact ⟨_, _, .inr rfl, hnode, rfl, rfl⟩

structure Serves (s : Settings) (i : Injector) (log : List Request) (ds : List Desire) : Prop where
  sound : i.solver.Sound
  settings : i.solver.settings = s
  rooted : Rooted ds i.solver.graph
  mem : ∀ d, d ∈ ds ↔ ∃ a ∈ log, a.desire s.catalog = d ∧ a.outcome.isOk = true
  ok : ∀ a ∈ log, a.resolution = some (.ok ()) → a.outcome.isOk = true
  spared : ∀ a ∈ log, ∀ e, a.outcome = .error e → e.SparesRoots
  once : log.Pairwise fun a b => a.desire s.catalog = b.desire s.catalog →
    a.resolution = some (.ok ()) → b.resolution = none

theorem Serves.append {ds' : List Desire} {a : Request} (h : Serves s i log ds)
    (hsound : i'.solver.Sound) (hsettings : i'.solver.settings = s)
    (hrooted : Rooted ds' i'.solver.graph)
    (hmem : ∀ d, d ∈ ds' ↔ d ∈ ds ∨ a.desire s.catalog = d ∧ a.outcome.isOk = true)
    (hok : a.resolution = some (.ok ()) → a.outcome.isOk = true)
    (hspared : ∀ e, a.outcome = .error e → e.SparesRoots)
    (honce : a.desire s.catalog ∈ ds → a.resolution = none) :
    Serves s i' (log ++ [a]) ds' := by
  have hsplit : ∀ b, b ∈ log ++ [a] ↔ b ∈ log ∨ b = a := by simp
  refine ⟨hsound, hsettings, hrooted, fun d => ?_, fun b hb => ?_, fun b hb => ?_, ?_⟩
  · rw [hmem, h.mem]
    simp only [hsplit, or_and_right, exists_or, exists_eq_left]
  · rcases (hsplit b).1 hb with hb | rfl
    · exact h.ok b hb
    · exact hok
  · rcases (hsplit b).1 hb with hb | rfl
    · exact h.spared b hb
    · exact hspared
  · refine List.pairwise_append.2
      ⟨h.once, List.pairwise_singleton _ _, fun b hb b' hb' hdesire hres => ?_⟩
    obtain rfl := List.mem_singleton.1 hb'
    exact honce ((h.mem _).2 ⟨b, hb, hdesire, h.ok b hb hres⟩)

theorem serves_nil (s : Settings) (policy : CachePolicy) (orders : Nat → BackEdges.Order) :
    Serves s (ofSettings s policy orders) [] [] where
  sound := Solver.sound_ofSettings s orders 0
  settings := rfl
  rooted := rooted_nil s orders 0
  mem d := by simp
  ok := List.forall_mem_nil _
  spared := List.forall_mem_nil _
  once := .nil

theorem Serves.requested (h : Serves s i log ds)
    (hr : RunsTo (requestRoot type qualifier) i r i') :
    ∃ ds', Serves s i' (log ++ [⟨type, qualifier, i.resolution? type qualifier, r⟩]) ds' := by
  have hd : i.wanted type qualifier = s.catalog.rootDesire type qualifier := by
    unfold wanted
    rw [h.settings]
  have hanswers := answers_of_runsTo hr
  have hsound := h.sound.resolve (i.wanted type qualifier) i.nextTag
  have hsettings := (Solver.settings_resolve i.solver (i.wanted type qualifier) i.nextTag).trans
    h.settings
  -- A desire for which something was resolved has a root, so it is not resolved again.
  have honce : s.catalog.rootDesire type qualifier ∈ ds → i.resolution? type qualifier = none := by
    intro hmem
    obtain ⟨node, hnode⟩ := h.rooted.rootNode? hmem
    unfold resolution?
    rw [hd, hnode]
  have hresolution : ∀ {o}, i.solver.rootNode? (i.wanted type qualifier) = none →
      ((i.solver.resolve (i.wanted type qualifier)).run i.nextTag).1.result = o →
      i.resolution? type qualifier = some o := by
    intro o hnone ho
    unfold resolution?
    rw [hnone, ho]
  cases hanswers with
  | found hnode =>
    -- The root that is there is that of a request before.
    have hmem : s.catalog.rootDesire type qualifier ∈ ds := by
      obtain ⟨e, he, hed, -⟩ := exists_of_rootNode? hnode
      obtain ⟨d, hdmem, hed'⟩ := h.rooted.origin e he
      obtain ⟨a, -, rfl, -⟩ := (h.mem d).1 hdmem
      rw [hd] at hed
      exact Catalog.eq_rootDesire (BEq.trans (BEq.symm hed') hed) ▸ hdmem
    refine ⟨ds, h.append h.sound h.settings h.rooted (fun d => ⟨.inl, ?_⟩) (fun _ => rfl) nofun
      honce⟩
    rintro (hdmem | ⟨rfl, -⟩)
    · exact hdmem
    · exact hmem
  | failed hnone herror =>
    have hgraph : (i.resolving (i.wanted type qualifier)).solver.graph = i.solver.graph :=
      (Solver.resolve_error herror).1
    refine ⟨ds, h.append hsound hsettings ?_ (fun d => ?_) (fun hres => ?_) ?_ honce⟩
    · rw [hgraph]
      exact h.rooted
    · exact ⟨.inl, fun hdmem => hdmem.resolve_right nofun⟩
    · cases (hresolution hnone herror).symm.trans hres
    · rintro _ ⟨⟩
      exact Solver.sparesRoots_of_resolve herror
  | resolved hnone hok hnode =>
    refine ⟨ds ++ [i.wanted type qualifier], h.append hsound hsettings
      (h.rooted.resolve h.sound hnone hok) (fun d => ?_) (fun _ => rfl) nofun honce⟩
    rw [List.mem_append, List.mem_singleton, hd]
    exact or_congr_right ⟨fun hdd => ⟨hdd.symm, rfl⟩, fun hdd => hdd.1.symm⟩
  | lost hnone hok hlost =>
    -- this does not happen: the root that was resolved has an edge
    obtain ⟨node, hnode⟩ := (h.rooted.resolve h.sound hnone hok).rootNode?
      (List.mem_append_right _ List.mem_cons_self)
    cases hnode.symm.trans hlost

theorem Answered.serves (h : Answered s i log) : ∃ ds, Serves s i log ds := by
  induction h with
  | opened policy orders =>
    exact ⟨[], serves_nil s policy orders⟩
  | requested _ hr ih =>
    obtain ⟨ds, hds⟩ := ih
    exact hds.requested hr
  | aside _ hsolver ih =>
    obtain ⟨ds, hds⟩ := ih
    exact ⟨ds, hsolver ▸ hds.sound, hsolver ▸ hds.settings, hsolver ▸ hds.rooted, hds.mem, hds.ok,
      hds.spared, hds.once⟩

/-- A request ends, and it never says that the edge of a root is missing. Over any run of requests a
root is resolved at most once with success. For every root that was requested with success the root
node has exactly one edge, with the desire of the root, and it has no other edges. -/
theorem Answered.one_edge (h : Answered s i log) :
    (∀ type qualifier, ∃ r i', RunsTo (requestRoot type qualifier) i r i' ∧
      ∀ d, r ≠ .error (.invalidGraph (.noRootEdge d))) ∧
    (∀ a ∈ log, ∀ d, a.outcome ≠ .error (.invalidGraph (.noRootEdge d))) ∧
    (log.Pairwise fun a b => a.type = b.type → a.qualifier = b.qualifier →
      a.resolution = some (.ok ()) → b.resolution = none) ∧
    (∀ a ∈ log, a.outcome.isOk = true →
      ∃ e, i.solver.graph.edges.filter (fun e => e.1.initial == a.desire s.catalog) = [e] ∧
        e.1.initial = a.desire s.catalog) ∧
    ∀ e ∈ i.solver.graph.edges,
      ∃ a ∈ log, a.outcome.isOk = true ∧ e.1.initial = a.desire s.catalog := by
  obtain ⟨ds, hserves⟩ := h.serves
  have hspared : ∀ {i log ds}, Serves s i log ds → ∀ a ∈ log, ∀ d,
      a.outcome ≠ .error (.invalidGraph (.noRootEdge d)) :=
    fun hserves a ha d he => hserves.spared a ha _ he d rfl
  refine ⟨fun type qualifier => ?_, hspared hserves, ?_, fun a ha hok => ?_, fun e he => ?_⟩
  · obtain ⟨r, i', hr, -⟩ := exists_answers i type qualifier
    obtain ⟨ds', hserves'⟩ := hserves.requested hr
    exact ⟨r, i', hr, hspared hserves' _ (List.mem_append_right _ List.mem_cons_self)⟩
  · refine hserves.once.imp fun {a b} honce htype hqualifier => honce ?_
    unfold Request.desire
    rw [htype, hqualifier]
  · have hmem : a.desire s.catalog ∈ ds := (hserves.mem _).2 ⟨a, ha, rfl, hok⟩
    obtain ⟨e, hfilter⟩ := hserves.rooted.filter hserves.sound.wellBuilt hmem
    have he : e ∈ i.solver.graph.edges.filter fun e => e.1.initial == a.desire s.catalog :=
      hfilter ▸ List.mem_cons_self
    exact ⟨e, hfilter, Catalog.eq_rootDesire (List.mem_filter.1 he).2⟩
  · obtain ⟨d, hd, hed⟩ := hserves.rooted.origin e he
    obtain ⟨a, ha, rfl, hok⟩ := (hserves.mem d).1 hd
    exact ⟨a, ha, hok, Catalog.eq_rootDesire hed⟩

/-- A class is requested, then an interface that nothing implements, and then the class again. -/
theorem one_edge_of_failure :
    let c : Catalog := .freeze [⟨.named "A", true, [], [], {}, .noPreference, none, none⟩,
      ⟨.named "X", false, [], [], {}, .noPreference, none, none⟩] []
    let s : Settings := .ofConfig c [] {}
    ∃ i log, Answered s i log ∧
      log.map (fun a => (a.outcome.isOk, a.resolution.map (·.isOk))) =
        [(true, some true), (false, some false), (true, none)] ∧
      i.solver.graph.edges.length = 1 ∧
      ∀ a ∈ log, a.outcome.isOk = true →
        ∃ e, i.solver.graph.edges.filter (fun e => e.1.initial == a.desire s.catalog) = [e] ∧
          e.1.initial = a.desire s.catalog := by
  intro c s
  let i := ofSettings s .noPreference
  have hruns : ((requestRoot (.named "A") none : Making _).run.run i).any (fun p =>
      ((requestRoot (.named "X") none : Making _).run.run p.2).any fun p' =>
        ((requestRoot (.named "A") none : Making _).run.run p'.2).any fun p'' =>
          [(p.1.isOk, (i.resolution? (.named "A") none).map (·.isOk)),
            (p'.1.isOk, (p.2.resolution? (.named "X") none).map (·.isOk)),
            (p''.1.isOk, (p'.2.resolution? (.named "A") none).map (·.isOk))] ==
              [(true, some true), (false, some false), (true, none)] &&
            p''.2.solver.graph.edges.length == 1) = true := by
    subst i s c
    decide +kernel
  obtain ⟨⟨r, i1⟩, hfirst, hruns⟩ := (Option.any_eq_true _ _).1 hruns
  obtain ⟨⟨r', i2⟩, hsecond, hruns⟩ := (Option.any_eq_true _ _).1 hruns
  obtain ⟨⟨r'', i3⟩, hthird, hruns⟩ := (Option.any_eq_true _ _).1 hruns
  obtain ⟨hlog, hedges⟩ := Bool.and_eq_true_iff.1 hruns
  have hanswered : Answered s i3 _ :=
    (((Answered.opened .noPreference _).requested hfirst).requested hsecond).requested hthird
  exact ⟨i3, _, hanswered, eq_of_beq hlog, eq_of_beq hedges, hanswered.one_edge.2.2.2.1⟩

end Injector

end Wiring
