import Wiring.Proofs.Injector.Following
import Wiring.Proofs.Injector.Requests

/-!
# Makers that were kept

A container keeps the maker of a node, with what the class of the node was given when the maker was
first asked for. Back-edges may come later, for a node as for the nodes it leads to, so a maker that
was kept may do less than one made anew. Where equal nodes were given the same over all requests, it
does the same: whatever is run with it, and with all makers that it hands out, cannot be told from
what is run with a maker from an empty container.
-/

namespace Wiring

open Making

/-! ## What was served -/

variable {s : Settings} {policy : CachePolicy} {served : List (Graph × BackEdges)}
  {p q : Graph × BackEdges} {i i' : Injector} {m m' : Instantiator}

/-- A node that one comes to from a node that was served, with the back-edges there were then. -/
def Within (served : List (Graph × BackEdges)) (p : Graph × BackEdges) : Prop :=
  ∃ e ∈ served, e.2 = p.2 ∧ Linked e.2 e.1 p.1

/-- No instances are shared, and whenever equal nodes were served they had one component, and their
classes were given the same, in the same order. -/
structure Steady (policy : CachePolicy) (served : List (Graph × BackEdges)) : Prop where
  plain : ∀ p, Within served p → p.1.label.policy.or policy ≠ .memoize
  same : ∀ p q, Within served p → Within served q → (p.1 == q.1) = true →
    p.1.label = q.1.label ∧
      List.Forall₂ (fun e f => (e == f) = true) (p.2.edgesFrom p.1) (q.2.edgesFrom q.1)

def BuiltAll (served : List (Graph × BackEdges)) : Prop :=
  ∀ e ∈ served, e.1.WellBuilt ∧ e.2.BuiltTails

theorem Within.edge (h : Within served p) {e : Resolved} (he : e ∈ p.2.edgesFrom p.1) :
    Within served (e.2, p.2) := by
  obtain ⟨a, ha, hback, hlinked⟩ := h
  refine ⟨a, ha, hback, ?_⟩
  rcases List.mem_append.1 he with he | he
  · exact .edge hlinked he
  · obtain ⟨f, hf, rfl⟩ := List.mem_map.1 he
    exact .back hlinked (hback ▸ hf)

theorem Within.mono {served' : List (Graph × BackEdges)} (h : Within served p)
    (hsub : ∀ e ∈ served, e ∈ served') : Within served' p := by
  obtain ⟨a, ha, h⟩ := h
  exact ⟨a, hsub a ha, h⟩

theorem within_of_mem (h : p ∈ served) : Within served p := ⟨p, h, rfl, .root⟩

theorem Within.wellBuilt (h : Within served p) (hbuilt : BuiltAll served) : p.1.WellBuilt := by
  obtain ⟨e, he, -, hlinked⟩ := h
  exact linked_wellBuilt (hbuilt e he).1 (hbuilt e he).2 hlinked

structure Standing (served : List (Graph × BackEdges)) (p q : Graph × BackEdges) : Prop where
  left : Within served p
  right : Within served q
  same : (p.1 == q.1) = true

def Stand (served : List (Graph × BackEdges)) (m m' : Instantiator) : Prop :=
  ∃ p q, Standing served p q ∧ m = plainMaker p ∧ m' = plainMaker q

theorem Standing.symm (h : Standing served p q) (hbuilt : BuiltAll served) :
    Standing served q p :=
  ⟨h.right, h.left, Dag.beq_symm (h.left.wellBuilt hbuilt) h.same⟩

theorem Stand.symm (h : Stand served m m') (hbuilt : BuiltAll served) : Stand served m' m := by
  obtain ⟨p, q, hpq, hm, hm'⟩ := h
  exact ⟨q, p, hpq.symm hbuilt, hm', hm⟩

section

variable {served' : List (Graph × BackEdges)} (hsub : ∀ e ∈ served, e ∈ served')
include hsub

theorem Steady.mono (h : Steady policy served') : Steady policy served :=
  ⟨fun p hp => h.plain p (hp.mono hsub),
    fun p q hp hq => h.same p q (hp.mono hsub) (hq.mono hsub)⟩

theorem Stand.mono (h : Stand served m m') : Stand served' m m' := by
  obtain ⟨p, q, hpq, hm, hm'⟩ := h
  exact ⟨p, q, ⟨hpq.left.mono hsub, hpq.right.mono hsub, hpq.same⟩, hm, hm'⟩

end

/-- Whether what was served is steady can be seen from the regions that it leads to. -/
def SteadyWithin (policy : CachePolicy) (served : List (Graph × BackEdges)) : Prop :=
  ∀ p ∈ served, ∀ x ∈ p.2.region p.1,
    x.label.policy.or policy ≠ .memoize ∧ x.label.satisfaction.isDirect = true ∧
      ∀ q ∈ served, ∀ y ∈ q.2.region q.1, (x == y) = true →
        List.Forall₂ (fun e f => (e == f) = true) (p.2.edgesFrom x) (q.2.edgesFrom y)

instance : Decidable (SteadyWithin policy served) := by
  unfold SteadyWithin
  infer_instance

theorem SteadyWithin.steady (h : SteadyWithin policy served) : Steady policy served := by
  have hregion : ∀ p, Within served p → ∃ e ∈ served, e.2 = p.2 ∧ p.1 ∈ e.2.region e.1 := by
    rintro p ⟨e, he, hback, hlinked⟩
    exact ⟨e, he, hback, hlinked.mem_region⟩
  refine ⟨fun p hp => ?_, fun p q hp hq hpq => ?_⟩
  · obtain ⟨e, he, -, hx⟩ := hregion p hp
    exact (h e he _ hx).1
  · obtain ⟨e, he, hback, hx⟩ := hregion p hp
    obtain ⟨f, hf, hback', hy⟩ := hregion q hq
    obtain ⟨-, hdirect, hedges⟩ := h e he _ hx
    have hlabel := (Component.beq_iff _ _).1 (Dag.label_beq hpq)
    have hsatisfaction := Satisfaction.eq_of_beq hdirect (h f hf _ hy).2.1 hlabel.1
    rw [← hback, ← hback']
    exact ⟨congrArg₂ Component.mk hsatisfaction hlabel.2, hedges f hf _ hy hpq⟩

/-! ## Injectors side by side -/

def Container.Serves (k : Container) (served : List (Graph × BackEdges)) : Prop :=
  ∀ e ∈ k.cache, ∃ b, Within served (e.1, b) ∧ e.2 = plainMaker (e.1, b)

abbrev KeptAkin (served : List (Graph × BackEdges))
    (l l' : List (Identity × List (String × Instantiator))) : Prop :=
  List.Forall₂ (fun a b => a.1 = b.1 ∧
    List.Forall₂ (fun c d => c.1 = d.1 ∧ Stand served c.2 d.2) a.2 b.2) l l'

/-- The two differ at most in the makers that were kept. -/
structure Akin (s : Settings) (policy : CachePolicy) (served : List (Graph × BackEdges))
    (i j : Injector) : Prop where
  settings : i.solver.settings = s
  settings' : j.solver.settings = s
  books : i.books = j.books
  shares : i.container.policy = policy
  shares' : j.container.policy = policy
  dropped : i.container.dropped = j.container.dropped
  lifecycle : i.container.lifecycle = j.container.lifecycle
  serves : i.container.Serves served
  serves' : j.container.Serves served
  kept : KeptAkin served i.kept j.kept

theorem Akin.symm {j : Injector} (h : Akin s policy served i j) (hbuilt : BuiltAll served) :
    Akin s policy served j i := by
  refine ⟨h.settings', h.settings, h.books.symm, h.shares', h.shares, h.dropped.symm,
    h.lifecycle.symm, h.serves', h.serves, ?_⟩
  refine h.kept.flip.imp fun a b hab => ⟨hab.1.symm, hab.2.flip.imp fun c d hcd => ?_⟩
  exact ⟨hcd.1.symm, hcd.2.symm hbuilt⟩

theorem Container.Serves.mono {served' : List (Graph × BackEdges)} {k : Container}
    (h : k.Serves served) (hsub : ∀ e ∈ served, e ∈ served') : k.Serves served' := by
  intro e he
  obtain ⟨b, hb, hmaker⟩ := h e he
  exact ⟨b, hb.mono hsub, hmaker⟩

theorem Akin.mono {served' : List (Graph × BackEdges)} {j : Injector}
    (h : Akin s policy served i j) (hsub : ∀ e ∈ served, e ∈ served') :
    Akin s policy served' i j :=
  ⟨h.settings, h.settings', h.books, h.shares, h.shares', h.dropped, h.lifecycle,
    h.serves.mono hsub, h.serves'.mono hsub, h.kept.imp fun _ _ hab =>
      ⟨hab.1, hab.2.imp fun _ _ hcd => ⟨hcd.1, hcd.2.mono hsub⟩⟩⟩

theorem Container.Serves.makerFor {k : Container} (h : k.Serves served)
    (hplain : ¬ k.Shares p.1) (hp : Within served p) :
    (k.makerFor p.1 p.2).2.Serves served ∧
      (∃ q, Standing served q p ∧ (k.makerFor p.1 p.2).1 = plainMaker q) ∧
      ∃ cache, (k.makerFor p.1 p.2).2 = { k with cache } := by
  unfold Container.makerFor
  cases hm : k.maker? p.1 with
  | some m =>
    obtain ⟨y, hy, hyp⟩ := maker?_eq_some hm
    obtain ⟨b, hb, hmaker⟩ := h _ hy
    exact ⟨h, ⟨(y, b), ⟨hb, hp, hyp⟩, hmaker⟩, k.cache, rfl⟩
  | none =>
    rw [newMaker_of_not_shares hplain]
    refine ⟨fun e he => ?_, ⟨p, ⟨hp, hp, Dag.same_refl _⟩, rfl⟩, _, rfl⟩
    rcases List.mem_append.1 he with he | he
    · exact h e he
    · rw [List.mem_singleton.1 he]
      exact ⟨p.2, hp, rfl⟩

def standing (hsteady : Steady policy served) (hbuilt : BuiltAll served) (s : Settings) :
    Comparison Unit where
  Tied x := Akin s policy served x.left x.right
  Later x y := y.right.solver = x.right.solver
  Makers m m' _ := Stand served m m'
  Nodes := Standing served
  refl _ := rfl
  trans h h' := h'.trans h
  makers_later h _ := h
  type := by
    rintro _ _ _ ⟨p, q, hpq, rfl, rfl⟩
    have hlabel := (hsteady.same p q hpq.left hpq.right hpq.same).1
    show p.1.label.satisfaction.type = q.1.label.satisfaction.type
    rw [hlabel]
  label h := (hsteady.same _ _ h.left h.right h.same).1
  catalog h := by rw [h.settings, h.settings']
  dropped h := h.dropped
  books h := h.books
  withBooks b h _ := ⟨⟨h.settings, h.settings', rfl, h.shares, h.shares', h.dropped, h.lifecycle,
    h.serves, h.serves', h.kept⟩, rfl⟩
  asked := by
    intro x p q h hpq
    have hplain : ∀ {k : Container} {p}, k.policy = policy → Within served p → ¬ k.Shares p.1 := by
      rintro k p rfl hp
      exact hsteady.plain p hp
    obtain ⟨hserves, ⟨p', hp', hmaker⟩, cache, hcache⟩ :=
      h.serves.makerFor (hplain h.shares hpq.left) hpq.left
    obtain ⟨hserves', ⟨q', hq', hmaker'⟩, cache', hcache'⟩ :=
      h.serves'.makerFor (hplain h.shares' hpq.right) hpq.right
    have hstanding : Standing served p' q' := ⟨hp'.left, hq'.left,
      Dag.beq_trans hp'.same (Dag.beq_trans hpq.same (hq'.symm hbuilt).same)⟩
    refine ⟨?_, rfl, p', q', hstanding, hmaker, hmaker'⟩
    unfold Sides.asked
    rw [hcache] at hserves ⊢
    rw [hcache'] at hserves' ⊢
    exact ⟨h.settings, h.settings', h.books, h.shares, h.shares', h.dropped, h.lifecycle, hserves,
      hserves', h.kept⟩

/-! ## Running makers -/

def Action.isRequest : Action → Bool
  | .request .. => true
  | _ => false

def Yield.isFurther : Yield → Bool
  | .further _ => true
  | _ => false

/-- Recipes take what they are given, and request no further roots. -/
structure Catalog.SelfContained (c : Catalog) : Prop where
  recipe : ∀ t r, c.recipe? t = some r → r.All (·.action.isRequest = false)
  providerRecipe : ∀ t r, c.providerRecipe? t = some r → ∀ s ∈ r.steps, s.action.isRequest = false

theorem Recipe.all_of_not_isFurther {P : RecipeStep → Prop} {r : Recipe}
    (hyield : r.yield.isFurther = false) (hsteps : ∀ s ∈ r.steps, P s) : r.All P := by
  obtain ⟨steps, yield⟩ := r
  refine ⟨hsteps, ?_⟩
  cases yield with
  | further choose => cases hyield
  | object | fresh | shared => trivial

theorem Catalog.selfContained_of_types {c : Catalog}
    (h : ∀ i ∈ c.types, (∀ r ∈ i.recipe, r.yield.isFurther = false ∧
      ∀ s ∈ r.steps, s.action.isRequest = false) ∧
        ∀ r ∈ i.providerRecipe, ∀ s ∈ r.steps, s.action.isRequest = false) :
    c.SelfContained where
  recipe t r hr := by
    obtain ⟨i, hi, hr⟩ := exists_info_of_recipe hr
    obtain ⟨hyield, hsteps⟩ := (h i hi).1 r hr
    exact Recipe.all_of_not_isFurther hyield hsteps
  providerRecipe t r hr := by
    obtain ⟨i, hi, hr⟩ := exists_info_of_providerRecipe hr
    exact (h i hi).2 r hr

section

variable (hsteady : Steady policy served) (hbuilt : BuiltAll served)

theorem requests_of_isRequest {C : Comparison Unit} {step : RecipeStep}
    (h : step.action.isRequest = false) : C.Requests Option step := by
  intro wanted qualifier form haction
  rw [haction] at h
  cases h

theorem follows_standing (hself : s.catalog.SelfContained) :
    (standing hsteady hbuilt s).Follows Option where
  size h := congrArg Lifecycle.size h.lifecycle
  register hook h := ⟨⟨h.settings, h.settings', h.books, h.shares, h.shares', h.dropped,
    congrArg (·.register hook) h.lifecycle, h.serves, h.serves', h.kept⟩, rfl⟩
  keep _ _ _ h hnamed := ⟨⟨h.settings, h.settings', h.books, h.shares, h.shares', h.dropped,
    h.lifecycle, h.serves, h.serves', .cons ⟨rfl, hnamed⟩ h.kept⟩, rfl⟩
  recipe h hr := (hself.recipe _ _ (h.settings' ▸ hr)).mono fun _ => requests_of_isRequest
  providerRecipe h hr step hstep :=
    requests_of_isRequest (hself.providerRecipe _ _ (h.settings' ▸ hr) step hstep)

theorem deps_of_standing (h : Standing served p q) :
    (standing hsteady hbuilt s).Deps ⟨p.2.edgesFrom p.1, p.2⟩ ⟨q.2.edgesFrom q.1, q.2⟩ := by
  have hsame := (hsteady.same p q h.left h.right h.same).2
  have hp : ∀ e ∈ p.2.edgesFrom p.1, Within served (e.2, p.2) := fun e he => h.left.edge he
  have hq : ∀ f ∈ q.2.edgesFrom q.1, Within served (f.2, q.2) := fun f hf => h.right.edge hf
  unfold Comparison.Deps
  dsimp only
  revert hsame hp hq
  generalize p.2.edgesFrom p.1 = es
  generalize q.2.edgesFrom q.1 = fs
  intro hsame hp hq
  induction hsame with
  | nil => exact .nil
  | @cons e f es fs hef _ ih =>
    obtain ⟨hlabel, hnode⟩ := (Dag.edge_beq_iff e f).1 hef
    exact .cons ⟨Dependency.initial_beq hlabel, hp e List.mem_cons_self, hq f List.mem_cons_self,
      hnode⟩ (ih (fun e he => hp e (List.mem_cons_of_mem _ he))
        fun f hf => hq f (List.mem_cons_of_mem _ hf))

theorem calls_standing (hself : s.catalog.SelfContained) (depth : Nat) :
    (standing hsteady hbuilt s).Calls (Instantiator.runWithin depth)
      (Instantiator.runWithin depth) := by
  induction depth with
  | zero =>
    intro m m' x _ _ r j hr
    cases hr
  | succ depth ih =>
    rintro _ _ x ⟨p, q, hpq, rfl, rfl⟩
    show (standing hsteady hbuilt s).Relates x
      (produce (Instantiator.runWithin depth) p.1.label.satisfaction ⟨p.2.edgesFrom p.1, p.2⟩)
      (produce (Instantiator.runWithin depth) q.1.label.satisfaction ⟨q.2.edgesFrom q.1, q.2⟩) _
    rw [(hsteady.same p q hpq.left hpq.right hpq.same).1]
    exact Comparison.relates_produce (follows_standing hsteady hbuilt hself) ih
      (deps_of_standing hsteady hbuilt hpq) _

end

/-! ## What can be told of makers -/

/-- What can be told of an instance: a value, or a maker by its identity and its type. -/
inductive Sight where
  | value (value : Value)
  | maker (identity : Identity) (type : TypeKey)

def Product.sight : Product → Sight
  | .value v => .value v
  | .maker n m => .maker n m.type

/-- The makers that an outcome hands out: an instance that is a maker, or those it keeps. -/
def Injector.makersOf (i : Injector) : Outcome → List Instantiator
  | .ok (some (.maker _ m)) => [m]
  | .ok (some (.value v)) => ((i.kept.lookup v.identity).getD []).map (·.2)
  | _ => []

/-- Runs makers one after the other, and gives what can be told of the outcomes. A step says which
of the makers at hand is run, and in which form. Those that an outcome hands out are at hand from
then on. -/
def follow : List (Nat × Option Form) → List Instantiator →
    Making (List (Attempt (Option Sight)))
  | [], _ => return []
  | (n, form) :: rest, ms => do
    match ms[n]? with
    | none => follow rest ms
    | some m =>
      let outcome ← attempt (m.runAs form)
      let seen ← follow rest (ms ++ (← get).makersOf outcome)
      return outcome.map (·.map (·.sight)) :: seen

section

variable (hsteady : Steady policy served) (hbuilt : BuiltAll served)
  (hself : s.catalog.SelfContained)

theorem getElem?_of_forall₂ {α β : Type} {R : α → β → Prop} {l : List α} {l' : List β}
    (h : List.Forall₂ R l l') (n : Nat) : l[n]? = none ∧ l'[n]? = none ∨
      ∃ a b, l[n]? = some a ∧ l'[n]? = some b ∧ R a b := by
  induction h generalizing n with
  | nil => exact .inl ⟨rfl, rfl⟩
  | @cons a b _ _ hab _ ih =>
    cases n with
    | zero => exact .inr ⟨a, b, rfl, rfl, hab⟩
    | succ n => exact ih n

theorem lookup_of_kept {l l' : List (Identity × List (String × Instantiator))}
    (h : KeptAkin served l l') (n : Identity) :
    List.Forall₂ (Stand served) (((l.lookup n).getD []).map (·.2))
      (((l'.lookup n).getD []).map (·.2)) := by
  induction h with
  | nil => exact .nil
  | @cons a b l l' hab _ ih =>
    rw [List.lookup_cons, List.lookup_cons, hab.1]
    split
    · exact List.forall₂_map_left_iff.2 (List.forall₂_map_right_iff.2 (hab.2.imp fun _ _ h => h.2))
    · exact ih

theorem makersOf_akin {i j : Injector} {o o' : Outcome} (h : Akin s policy served i j)
    (ho : Agree ((standing hsteady hbuilt s).Gives · · ⟨i, (), j⟩) o o') :
    List.Forall₂ (Stand served) (i.makersOf o) (j.makersOf o') := by
  cases ho with
  | error e => exact .nil
  | ok hp =>
    cases hp with
    | null => exact .nil
    | value v => exact lookup_of_kept h.kept v.identity
    | maker n hm => exact .cons hm .nil

theorem sight_of_gives {x : Sides Unit} {o o' : Outcome}
    (ho : Agree ((standing hsteady hbuilt s).Gives · · x) o o') :
    o.map (·.map (·.sight)) = o'.map (·.map (·.sight)) := by
  cases ho with
  | error e => rfl
  | ok hp =>
    cases hp with
    | null => rfl
    | value v => rfl
    | maker n hm =>
      show (Except.ok (some (Sight.maker n _)) : Attempt _) = Except.ok (some (Sight.maker n _))
      rw [(standing hsteady hbuilt s).type (x := x) hm]

include hself in
theorem relates_follow (plan : List (Nat × Option Form)) {ms ms' : List Instantiator}
    (hms : List.Forall₂ (Stand served) ms ms') {x : Sides Unit} :
    (standing hsteady hbuilt s).Relates x (follow plan ms) (follow plan ms')
      fun a b _ => a = b := by
  induction plan generalizing ms ms' x with
  | nil => exact Comparison.relates_pure rfl
  | cons step rest ih =>
    obtain ⟨n, form⟩ := step
    rw [follow, follow]
    rcases getElem?_of_forall₂ hms n with ⟨hnone, hnone'⟩ | ⟨m, m', hm, hm', hstand⟩
    · rw [hnone, hnone']
      exact ih hms
    · rw [hm, hm']
      have hcall : (standing hsteady hbuilt s).Relates x (m.runAs form) (m'.runAs form)
          (standing hsteady hbuilt s).Gives :=
        Comparison.relates_runAs (calls_standing hsteady hbuilt hself nestingBound) hstand form
      refine hcall.attempt.bind fun o o' y _ ho => ?_
      refine .of_tied fun htied => Comparison.relates_get.bind fun i j z _ h => ?_
      obtain ⟨rfl, rfl, rfl⟩ := h
      refine (ih (List.rel_append hms (makersOf_akin hsteady hbuilt htied ho))).bind
        fun seen _ _ _ hseen => Comparison.relates_pure ?_
      rw [hseen, sight_of_gives hsteady hbuilt ho]

end

theorem Akin.follow {i j : Injector} (h : Akin s policy served i j)
    (hsteady : Steady policy served) (hbuilt : BuiltAll served) (hself : s.catalog.SelfContained)
    {ms ms' : List Instantiator} (hms : List.Forall₂ (Stand served) ms ms')
    {plan : List (Nat × Option Form)} {seen : Attempt (List (Attempt (Option Sight)))}
    {books : Books} (hj : ∃ j', RunsTo (follow plan ms') j seen j' ∧ j'.books = books) :
    ∃ i', RunsTo (follow plan ms) i seen i' ∧ i'.books = books := by
  obtain ⟨j', hruns, rfl⟩ := hj
  have hrelates := relates_follow hsteady hbuilt hself plan hms (x := ⟨i, (), j⟩)
  obtain ⟨seen', i', _, hends, hakin, -, hagree⟩ := hrelates h seen j' hruns
  have hseen : seen' = seen := by
    cases hagree with
    | ok h => rw [h]
    | error e => rfl
  exact ⟨i', ends_iff_runsTo.1 (hseen ▸ hends), hakin.books⟩

/-! ## Sessions -/

def Container.renew (k : Container) : Container :=
  { policy := k.policy, lifecycle := k.lifecycle, dropped := k.dropped }

namespace Injector

variable {type : TypeKey} {qualifier : Option Qualifier} {node : Graph} {ms : List Instantiator}
  {form : Option Form} {r : Outcome}

/-- What an injector is used for from the beginning: roots are requested, and the makers at hand are
run. What was served is told with the back-edges there were then. -/
inductive Serving (s : Settings) (policy : CachePolicy) :
    Injector → List (Graph × BackEdges) → List Instantiator → Prop
  | opened (orders : Nat → BackEdges.Order) : Serving s policy (ofSettings s policy orders) [] []
  | served {i i' : Injector} {served : List (Graph × BackEdges)} {ms : List Instantiator}
      {type : TypeKey} {qualifier : Option Qualifier} {m : Instantiator} {node : Graph} :
      Serving s policy i served ms → RunsTo (requestRoot type qualifier) i (.ok m) i' →
      i'.solver.rootNode? (i.wanted type qualifier) = some node →
      Serving s policy i' (served ++ [(node, i'.solver.backEdges)]) (ms ++ [m])
  | refused {i i' : Injector} {served : List (Graph × BackEdges)} {ms : List Instantiator}
      {type : TypeKey} {qualifier : Option Qualifier} {e : WiringError} :
      Serving s policy i served ms → RunsTo (requestRoot type qualifier) i (.error e) i' →
      Serving s policy i' served ms
  | ran {i i' : Injector} {served : List (Graph × BackEdges)} {ms : List Instantiator}
      {m : Instantiator} {form : Option Form} {r : Outcome} : Serving s policy i served ms →
      m ∈ ms → RunsTo (m.runAs form) i r i' → Serving s policy i' served (ms ++ i'.makersOf r)

theorem akin_of_resolving {d : Desire} (h : Akin s policy served i i) :
    Akin s policy served (i.resolving d) (i.resolving d) := by
  have hsettings : (i.resolving d).solver.settings = s :=
    (Solver.settings_resolve i.solver d i.nextTag).trans h.settings
  exact ⟨hsettings, hsettings, rfl, h.shares, h.shares', rfl, rfl, h.serves, h.serves', h.kept⟩

structure Upright (s : Settings) (policy : CachePolicy) (i : Injector)
    (served : List (Graph × BackEdges)) (ms : List Instantiator) : Prop where
  sound : i.solver.Sound
  built : BuiltAll served
  akin : Akin s policy served i i
  makers : ∀ m ∈ ms, Stand served m m

theorem Upright.resolving {d : Desire} (h : Upright s policy i served ms) :
    Upright s policy (i.resolving d) served ms :=
  ⟨h.sound.resolve d i.nextTag, h.built, akin_of_resolving h.akin, h.makers⟩

theorem Upright.asked (h : Upright s policy i served ms)
    (hsteady : Steady policy (served ++ [(node, i.solver.backEdges)])) {d : Desire}
    (hnode : i.solver.rootNode? d = some node) :
    Upright s policy (i.asked node) (served ++ [(node, i.solver.backEdges)])
      (ms ++ [i.makerFor node]) := by
  have hsub : ∀ e ∈ served, e ∈ served ++ [(node, i.solver.backEdges)] :=
    fun e he => List.mem_append_left _ he
  have hbuilt : BuiltAll (served ++ [(node, i.solver.backEdges)]) := by
    intro e he
    rcases List.mem_append.1 he with he | he
    · exact h.built e he
    · rw [List.mem_singleton.1 he]
      obtain ⟨f, hf, -, rfl⟩ := exists_of_rootNode? hnode
      refine ⟨h.sound.wellBuilt.tail hf, fun entry hentry f hf => ?_⟩
      exact (h.sound.edge entry hentry f hf).wellBuilt
  have hwithin := within_of_mem (List.mem_append_right served
    (List.mem_singleton_self (node, i.solver.backEdges)))
  obtain ⟨hakin, -, hmaker⟩ := (standing hsteady hbuilt s).asked (x := ⟨i, (), i⟩)
    (h.akin.mono hsub) ⟨hwithin, hwithin, Dag.same_refl _⟩
  refine ⟨h.sound, hbuilt, hakin, fun m hm => ?_⟩
  rcases List.mem_append.1 hm with hm | hm
  · exact (h.makers m hm).mono hsub
  · rw [List.mem_singleton.1 hm]
    exact hmaker

theorem Upright.ran (h : Upright s policy i served ms) (hself : s.catalog.SelfContained)
    (hsteady : Steady policy served) (hm : m ∈ ms) (hr : RunsTo (m.runAs form) i r i') :
    Upright s policy i' served (ms ++ i'.makersOf r) := by
  have hcall : (standing hsteady h.built s).Relates ⟨i, (), i⟩ (m.runAs form) (m.runAs form)
      (standing hsteady h.built s).Gives :=
    Comparison.relates_runAs (calls_standing hsteady h.built hself nestingBound) (h.makers m hm) form
  obtain ⟨r', j, _, hends, hakin, hsolver, hagree⟩ := hcall h.akin r i' hr
  cases (ends_iff_runsTo.1 hends).symm.trans hr
  have hsolver : i'.solver = i.solver := hsolver
  have hmakers := makersOf_akin hsteady h.built hakin hagree
  refine ⟨hsolver ▸ h.sound, h.built, hakin, fun n hn => ?_⟩
  rcases List.mem_append.1 hn with hn | hn
  · exact h.makers n hn
  · exact List.forall₂_same.1 hmakers n hn

theorem Serving.upright (h : Serving s policy i served ms) (hself : s.catalog.SelfContained)
    (hsteady : Steady policy served) : Upright s policy i served ms := by
  induction h with
  | opened orders =>
    exact ⟨Solver.sound_ofSettings s orders 0, List.forall_mem_nil _, ⟨rfl, rfl, rfl, rfl, rfl, rfl, rfl,
      List.forall_mem_nil _, List.forall_mem_nil _, .nil⟩, List.forall_mem_nil _⟩
  | @served i i' served ms type qualifier m node _ hr hnode ih =>
    have hih := ih (hsteady.mono fun e he => List.mem_append_left _ he)
    obtain ⟨j, node', hj, hnode', rfl, rfl⟩ := asked_of_runsTo hr
    cases hnode.symm.trans hnode'
    have hj : Upright s policy j served ms := by
      rcases hj with rfl | rfl
      · exact hih
      · exact hih.resolving
    exact hj.asked hsteady hnode
  | @refused i i' served ms type qualifier e _ hr ih =>
    cases answers_of_runsTo hr with
    | failed | lost => exact (ih hsteady).resolving
  | ran _ hm hr ih => exact (ih hsteady).ran hself hsteady hm hr

def renewed (i : Injector) (node : Graph) : Injector :=
  { i with container := i.container.renew }.asked node

theorem Upright.renewed (h : Upright s policy i served ms)
    (hsteady : Steady policy (served ++ [(node, i.solver.backEdges)])) {d : Desire}
    (hnode : i.solver.rootNode? d = some node) :
    Stand (served ++ [(node, i.solver.backEdges)]) (i.makerFor node)
        ({ i.asked node with container := (i.asked node).container.renew }.makerFor node) ∧
      Akin s policy (served ++ [(node, i.solver.backEdges)]) (i.asked node)
        ((i.asked node).renewed node) := by
  have hasked := h.asked hsteady hnode
  have hwithin := within_of_mem (List.mem_append_right served
    (List.mem_singleton_self (node, i.solver.backEdges)))
  have hplain : ∀ {k : Container}, k.policy = policy → ¬ k.Shares node := by
    rintro k rfl
    exact hsteady.plain _ hwithin
  obtain ⟨-, ⟨q, hq, hmaker⟩, -⟩ :=
    (h.akin.serves.mono fun e he => List.mem_append_left _ he).makerFor (hplain h.akin.shares) hwithin
  have hempty : (i.asked node).container.renew.Serves (served ++ [(node, i.solver.backEdges)]) :=
    List.forall_mem_nil _
  have hpolicy : (i.asked node).container.renew.policy = policy := hasked.akin.shares
  obtain ⟨hserves, ⟨q', hq', hmaker'⟩, cache, hcache⟩ :=
    hempty.makerFor (hplain hpolicy) hwithin
  have hcontainer : ((i.asked node).renewed node).container =
      { (i.asked node).container.renew with cache } := hcache
  have ha := hasked.akin
  refine ⟨⟨q, q', ⟨hq.left, hq'.left, Dag.beq_trans hq.same (hq'.symm hasked.built).same⟩, hmaker,
    hmaker'⟩, ha.settings, ha.settings, rfl, ha.shares, ?_, ?_, ?_, ha.serves, hserves, ha.kept⟩
  · rw [hcontainer]
    exact hpolicy
  · rw [hcontainer]
    rfl
  · rw [hcontainer]
    rfl

/-- Where equal nodes were given the same over all requests, the maker that a request returns does
what one from an empty container does, made of the node and the back-edges there are now. Whatever
is run with it and with the makers it hands out, as long as it ends, the outcomes are the same, and
so are the books. -/
theorem Serving.follows_renewed (h : Serving s policy i served ms) (hself : s.catalog.SelfContained)
    (hr : RunsTo (requestRoot type qualifier) i (.ok m) i')
    (hnode : i'.solver.rootNode? (i.wanted type qualifier) = some node)
    (hsteady : Steady policy (served ++ [(node, i'.solver.backEdges)]))
    (plan : List (Nat × Option Form)) (seen : Attempt (List (Attempt (Option Sight))))
    (books : Books) :
    (∃ j, RunsTo (follow plan [m]) i' seen j ∧ j.books = books) ↔
      ∃ j, RunsTo (follow plan [{ i' with container := i'.container.renew }.makerFor node])
        (i'.renewed node) seen j ∧ j.books = books := by
  obtain ⟨j, node', hj, hnode', rfl, rfl⟩ := asked_of_runsTo hr
  cases hnode.symm.trans hnode'
  have hj : Upright s policy j served ms := by
    have hup := h.upright hself (hsteady.mono fun e he => List.mem_append_left _ he)
    rcases hj with rfl | rfl
    · exact hup
    · exact hup.resolving
  have hbuilt := (hj.asked hsteady hnode).built
  obtain ⟨hstand, hakin⟩ := hj.renewed hsteady hnode
  exact ⟨(hakin.symm hbuilt).follow hsteady hbuilt hself (.cons (hstand.symm hbuilt) .nil),
    hakin.follow hsteady hbuilt hself (.cons hstand .nil)⟩

/-- A class that is given a provider of itself is requested, its maker runs, and it is requested
again. Then its maker can run, and so can the provider of the instance and that of the next one. -/
theorem follows_renewed_of_repeated :
    let c : Catalog := .freeze [⟨.named "A", true, [],
      [⟨some (.named "A"), "a", .provider (.named "A"), none, false⟩], {}, .noPreference,
      some ⟨[⟨"a", .provider, false⟩], .object⟩, none⟩] []
    let s : Settings := .ofConfig c [] {}
    ∃ i m i' node served ms, Serving s .noPreference i served ms ∧ served.length = 1 ∧
      ms.length = 2 ∧ RunsTo (requestRoot (.named "A") none) i (.ok m) i' ∧
      i'.solver.rootNode? (i.wanted (.named "A") none) = some node ∧
      i'.solver.backEdges.size = 1 ∧
      (∃ seen j, RunsTo (follow [(0, none), (1, none), (2, none)] [m]) i' (.ok seen) j ∧
        seen.map (·.isOk) = [true, true, true]) ∧
      ∀ plan seen books, (∃ j, RunsTo (follow plan [m]) i' seen j ∧ j.books = books) ↔
        ∃ j, RunsTo (follow plan [{ i' with container := i'.container.renew }.makerFor node])
          (i'.renewed node) seen j ∧ j.books = books := by
  intro c s
  have hself : s.catalog.SelfContained :=
    Catalog.selfContained_of_types (by decide +kernel)
  have hruns : ((requestRoot (.named "A") none : Making _).run.run
      (ofSettings s .noPreference)).any (fun first => first.1.toOption.any fun m =>
        ((m.runAs none).run.run first.2).any fun ran => (ran.2.makersOf ran.1).length == 1 &&
          ((requestRoot (.named "A") none : Making _).run.run ran.2).any fun again =>
            again.1.toOption.any fun m' => again.2.solver.backEdges.size == 1 &&
              ((follow [(0, none), (1, none), (2, none)] [m']).run.run again.2).any fun followed =>
                followed.1.toOption.any (fun seen => seen.map (·.isOk) == [true, true, true]) &&
              (first.2.solver.rootNode? (wanted (ofSettings s .noPreference) (.named "A") none)).any
                fun node =>
                (again.2.solver.rootNode? (ran.2.wanted (.named "A") none)).any fun node' =>
                  decide (SteadyWithin .noPreference [(node, first.2.solver.backEdges),
                    (node', again.2.solver.backEdges)])) = true := by
    subst s c
    decide +kernel
  simp only [Option.any_eq_true, Bool.and_eq_true, beq_iff_eq, decide_eq_true_eq] at hruns
  obtain ⟨⟨r, i1⟩, hfirst, m, hm, ⟨o, i2⟩, hran, hmakers, ⟨r', i3⟩, hagain, m', hm', hsize,
    ⟨o', j⟩, hfollow, ⟨seen, hseen, hok⟩, node, hnode, node', hnode', hsteady⟩ := hruns
  cases eq_ok_of_toOption hm
  cases eq_ok_of_toOption hm'
  cases eq_ok_of_toOption hseen
  have hserving : Serving s .noPreference i2 [(node, i1.solver.backEdges)] (m :: i2.makersOf o) :=
    .ran (.served (.opened _) hfirst hnode) List.mem_cons_self hran
  exact ⟨i2, m', i3, node', _, _, hserving, rfl, congrArg _ hmakers, hagain, hnode', hsize,
    ⟨seen, j, hfollow, hok⟩, hserving.follows_renewed hself hagain hnode' hsteady.steady⟩

end Injector

end Wiring
