import Wiring.Proofs.Injector.Recording
import Wiring.Proofs.Injector.Requests

/-!
# Disposal

When a container is closed its hooks run, the latest first. They are the disposers of what was
constructed, so an instance is disposed of before its parts are.
-/

namespace Wiring

open Making Recorded

variable {i i' : Injector} {l : Ledger} {k : Container} {m : Instantiator} {type : TypeKey}

/-! ## Closing -/

theorem Lifecycle.close_disposers (names : List String) :
    (⟨names.map .disposer⟩ : Lifecycle).close = (names.map ("dispose " ++ ·), .empty) := by
  have hsize : Hook.sizeAll (names.map .disposer) = names.length := by
    induction names with
    | nil => rfl
    | cons name names ih => simp [Hook.sizeAll, Hook.size, ih, Nat.add_comm]
  unfold close
  rw [hsize]
  clear hsize
  induction names with
  | nil => rfl
  | cons name names ih =>
    rw [List.length_cons, runAll]
    simp only [runLatest?, List.map_cons, Hook.nested, List.foldl_nil, ih, Hook.line]

theorem runsTo_writeLines (lines : List String) (i : Injector) :
    RunsTo (do for line in lines do writeLog line) i (.ok ()) { i with log := i.log ++ lines } := by
  induction lines generalizing i with
  | nil =>
    rw [List.append_nil]
    rfl
  | cons line lines ih =>
    have h := ih { i with log := i.log ++ [line] }
    rw [List.append_assoc] at h
    rw [List.forIn_cons, bind_assoc]
    exact runsTo_bind.2 (.inl ⟨.yield (), { i with log := i.log ++ [line] }, rfl, h⟩)

theorem runsTo_close {lines : List String} (h : i.container.close = (lines, k)) :
    RunsTo Injector.close i (.ok ()) { i with container := k, log := i.log ++ lines } := by
  unfold Injector.close
  refine runsTo_bind.2 (.inl ⟨lines, { i with container := k }, ?_, runsTo_writeLines lines _⟩)
  show some (Except.ok i.container.close.1, { i with container := i.container.close.2 }) = _
  rw [h]

/-! ## Sessions -/

namespace Injector

/-- What an injector is used for until it is closed: instances are requested, with a record of what
is constructed for them. -/
inductive Requested (s : Settings) (policy : CachePolicy) : Injector → Ledger → Prop
  | opened (orders : Nat → BackEdges.Order) : Requested s policy (ofSettings s policy orders) {}
  | requested {i i' : Injector} {l : Ledger} {type : TypeKey} {qualifier : Option Qualifier}
      {form : Form} {r : Outcome} : Requested s policy i l →
      RunsTo (rootInstance type qualifier form) i r i' →
      Requested s policy i' (l.after i type qualifier form)

variable {settings : Settings} {policy : CachePolicy} {qualifier : Option Qualifier} {form : Form}

theorem after_spec (hb : Balanced i l) (hr : RunsTo (rootInstance type qualifier form) i r i') :
    Ends (recordInstance type qualifier form) i l r i' (l.after i type qualifier form) ∧
      Balanced i' (l.after i type qualifier form) := by
  have hinstance : recorded.Relates ⟨i, l, i⟩ (recordInstance type qualifier form)
      (rootInstance type qualifier form) recorded.Gives :=
    (relates_requestRoot type qualifier).bind fun _ _ _ _ hm =>
      Comparison.relates_runAs (calls_recorded nestingBound) hm _
  obtain ⟨r', l', hends, hb', -, -, hagree⟩ := comes_of_relates hinstance hb hr
  obtain rfl : r' = r := by
    cases hagree with
    | error e => rfl
    | ok h => rw [eq_of_gives h]
  have hafter : l.after i type qualifier form = l' := by
    unfold Ledger.after
    have hends : ((recordInstance type qualifier form).run.run i).run l = _ := hends
    rw [hends]
  exact ⟨hafter ▸ hends, hafter ▸ hb'⟩

theorem Requested.balanced (h : Requested settings policy i l)
    (hdisposes : settings.catalog.Disposes) : Balanced i l := by
  induction h with
  | opened orders =>
    exact ⟨Solver.sound_ofSettings settings orders 0, hdisposes, Container.sound_of_empty rfl rfl, rfl,
      List.forall_mem_nil _, .nil, List.forall_mem_nil _, fun _ _ _ ⟨_, hm⟩ => nomatch hm⟩
  | requested _ hr ih => exact (after_spec ih hr).2

/-- Where the recipes of all classes take their dependencies first and then register a disposer, the
injector is closed after any requests by running the disposer of each instance constructed, once,
and nothing else. The latest goes first, so an instance is disposed of before all that it was
given, be it shared or not. To keep the record does not change what the requests do. -/
theorem Requested.disposed (h : Requested settings policy i l)
    (hdisposes : settings.catalog.Disposes) :
    (∀ type qualifier form r i', RunsTo (rootInstance type qualifier form) i r i' →
      Ends (recordInstance type qualifier form) i l r i' (l.after i type qualifier form)) ∧
    (l.built.reverse.map (·.identity)).Nodup ∧
    (∀ before x after, l.built.reverse = before ++ x :: after →
      ∀ y ∈ x.parts, ∃ z ∈ after, z.identity = y) ∧
    ∃ i', RunsTo close i (.ok ()) i' ∧ i'.container.lifecycle.hooks = [] ∧
      i'.log = i.log ++ l.built.reverse.map fun x => "dispose " ++ x.disposer := by
  have hb := h.balanced hdisposes
  refine ⟨fun _ _ _ _ _ hr => (after_spec hb hr).1, ?_,
    fun _ _ _ hsplit _ hy => hb.order.parts_after hsplit hy, ?_⟩
  · rw [List.map_reverse]
    exact List.pairwise_reverse.2 (hb.order.nodup.imp Ne.symm)
  · have hlifecycle : i.container.lifecycle = ⟨(l.built.reverse.map (·.disposer)).map .disposer⟩ := by
      rw [List.map_map]
      exact congrArg Lifecycle.mk hb.hooks
    have hclose := Lifecycle.close_disposers (l.built.reverse.map (·.disposer))
    rw [← hlifecycle, List.map_map] at hclose
    have hcontainer : i.container.close =
        (l.built.reverse.map fun x => "dispose " ++ x.disposer,
          { i.container with lifecycle := .empty, cache := [] }) := by
      unfold Container.close
      rw [hclose]
      rfl
    exact ⟨_, runsTo_close hcontainer, rfl, rfl⟩

/-- An instance of a class is requested that takes an instance of another one. When the injector is
closed its disposer runs first, and that of its part then. -/
theorem disposed_of_pair :
    let c : Catalog := .freeze [⟨.named "A", true, [],
        [⟨some (.named "A"), "b", .named "B", none, false⟩], {}, .noPreference,
        some ⟨[⟨"b", .require .object, false⟩, ⟨"a", .dispose, false⟩], .object⟩, none⟩,
      ⟨.named "B", true, [], [], {}, .noPreference, some ⟨[⟨"b", .dispose, false⟩], .object⟩,
        none⟩] []
    let s : Settings := .ofConfig c [] {}
    s.catalog.Disposes ∧ ∃ i l, Requested s .noPreference i l ∧
      ∃ i', RunsTo close i (.ok ()) i' ∧ i'.log = i.log ++ ["dispose a", "dispose b"] := by
  intro c s
  have hdisposes : s.catalog.Disposes := Catalog.disposes_of_types (by decide +kernel)
  have hruns : ((rootInstance (.named "A") none .object).run.run (ofSettings s .noPreference)).any
      (fun _ => (Ledger.after {} (ofSettings s .noPreference) (.named "A") none
        .object).built.reverse.map (·.disposer) == ["a", "b"]) = true := by
    subst s c
    decide +kernel
  obtain ⟨⟨r, j⟩, hinstance, hnames⟩ := (Option.any_eq_true _ _).1 hruns
  have hrequested : Requested s .noPreference j _ := .requested (.opened _) hinstance
  obtain ⟨-, -, -, i', hclose, -, hlog⟩ := hrequested.disposed hdisposes
  have hlines := congrArg (List.map ("dispose " ++ ·)) (eq_of_beq hnames)
  rw [List.map_map] at hlines
  exact ⟨hdisposes, j, _, hrequested, i', hclose, hlog.trans (congrArg (j.log ++ ·) hlines)⟩

end Injector

end Wiring
