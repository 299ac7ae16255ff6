import Wiring.Proofs.Injector.Recipes

/-!
# Recipes run once

A maker without a cell runs its recipe whenever it is called. With a cell the first call runs it,
and that call's outcome is what every later one gives, be it an instance, null or an error.
-/

namespace Wiring

open Making Watched

variable {i i' : Injector} {w w' : Watch} {k : Container} {calls : List Call} {m : Instantiator}
  {watch : Instantiator → Watched (Option Product)} {run : Instantiator → Making (Option Product)}
  {s : Satisfaction} {deps : Dependencies} {type : TypeKey} {c depth : Nat} {r : Outcome}

theorem Watching.of_calls (h : Watching i w) (hcalls : w'.calls = w.calls) : Watching i w' :=
  ⟨h.solver, h.container, hcalls ▸ h.calls⟩

/-! ## What is noted -/

theorem shows_get : Shows get i w (.ok i) i w := rfl

theorem shows_watchRecipe (h : Shows (produce watch s deps) i w r i' w') :
    Shows (watchRecipe watch s deps) i w r i' { w' with ran := true } :=
  shows_bind_ok (shows_attempt.2 ⟨_, rfl, h⟩) (shows_bind_ok (a := ()) rfl rfl)

theorem shows_watchWithin
    (h : Shows (runSource (watchRecipe (Instantiator.watchWithin depth)) m.type m.source) i
      { w with ran := false } r i' w') :
    Shows (m.watchWithin (depth + 1)) i w r i'
      { w' with calls := w'.calls ++ [⟨m, w'.ran, r⟩] } := by
  unfold Instantiator.watchWithin
  exact shows_bind_ok (a := ()) rfl
    (shows_bind_ok (shows_attempt.2 ⟨_, rfl, h⟩) (shows_bind_ok (a := ()) rfl rfl))

/-! ## Cells -/

def Injector.withCell (i : Injector) (c : Nat) (st : Cell) : Injector :=
  { i with container := i.container.setCell c st }

theorem runsTo_memoized {recipe : Satisfaction → Dependencies → Making (Option Product)}
    {inner : Source} (h : RunsTo (runSource recipe type (.memoized c inner)) i r i') :
    (i.container.cell? c = some (.done r) ∧ i' = i) ∨
      i.container.cell? c = none ∧ ∃ i1,
        RunsTo (runSource recipe type inner) (i.withCell c .running) r i1 ∧
          i' = i1.withCell c (.done r) := by
  rw [runSource] at h
  rcases runsTo_bind.1 h with ⟨_, _, hget, h⟩ | ⟨_, _, hget⟩
  · cases hget
    split at h
    · rename_i hdone
      cases h
      exact .inl ⟨hdone, rfl⟩
    · cases h
    · rename_i hnone
      rcases runsTo_bind.1 h with ⟨_, _, hset, h⟩ | ⟨_, _, hset⟩
      · cases hset
        rcases runsTo_bind.1 h with ⟨_, i1, hrun, h⟩ | ⟨_, _, hrun⟩
        · obtain ⟨o, ho, hrun⟩ := runsTo_attempt.1 hrun
          cases ho
          rcases runsTo_bind.1 h with ⟨_, _, hset, h⟩ | ⟨_, _, hset⟩
          · cases hset
            cases h
            exact .inr ⟨hnone, i1, hrun, rfl⟩
          · cases hset
        · obtain ⟨_, ho, _⟩ := runsTo_attempt.1 hrun
          cases ho
      · cases hset
  · cases hget

section

variable {recipe : Satisfaction → Dependencies → Watched (Option Product)} {inner : Source}

theorem shows_known (h : i.container.cell? c = some (.done r)) :
    Shows (runSource recipe type (.memoized c inner)) i w r i w := by
  rw [runSource]
  refine shows_bind_ok shows_get ?_
  rw [h]
  rfl

theorem shows_first (h : i.container.cell? c = none)
    (hrun : Shows (runSource recipe type inner) (i.withCell c .running) w r i' w') :
    Shows (runSource recipe type (.memoized c inner)) i w r (i'.withCell c (.done r)) w' := by
  rw [runSource]
  refine shows_bind_ok shows_get ?_
  rw [h]
  exact shows_bind_ok (a := ()) rfl
    (shows_bind_ok (shows_attempt.2 ⟨_, rfl, hrun⟩) (shows_bind_ok (a := ()) rfl rfl))

end

/-! ## Sources -/

/-- What a maker's source comes to, where it is watched and where it is not, and how the call is to
be noted. -/
def Noted (watch : Instantiator → Watched (Option Product)) (m : Instantiator) (i : Injector)
    (w : Watch) (r : Outcome) (i' : Injector) : Prop :=
  ∃ inside ran, Shows (runSource (watchRecipe watch) m.type m.source) i { w with ran := false } r i'
      ⟨w.calls ++ inside, ran⟩ ∧
    Watching i' ⟨w.calls ++ inside ++ [⟨m, ran, r⟩], ran⟩ ∧ i.container.Grows i'.container ∧
    ∀ p, r = .ok p → Injected p i'

theorem noted_plain (hcalls : TracksCalls watch run) (hdeps : deps.Built) (hw : Watching i w)
    (hm : i.container.Has ⟨type, .satisfaction s deps⟩)
    (hr : RunsTo (produce run s deps) i r i') :
    Noted watch ⟨type, .satisfaction s deps⟩ i w r i' := by
  have hw0 : Watching i { w with ran := false } := hw.of_calls rfl
  obtain ⟨⟨_, _⟩, hshows, ⟨hw1, hgrows, inside, rfl⟩, hp⟩ :=
    tracks_produce hcalls hdeps s hw0 _ _ hr
  refine ⟨inside, true, shows_watchRecipe hshows, ⟨hw1.solver, hw1.container, ?_⟩, hgrows, hp⟩
  exact hw1.calls.append hw1.container rfl (fun _ _ => id) (fun _ _ => rfl) (hm.mono hgrows)
    (fun _ => rfl) nofun (fun _ _ _ h => by cases h) nofun

theorem noted_known (hw : Watching i w)
    (hm : i.container.Has ⟨type, .memoized c (.satisfaction s deps)⟩)
    (hknown : i.container.cell? c = some (.done r)) :
    Noted watch ⟨type, .memoized c (.satisfaction s deps)⟩ i w r i := by
  refine ⟨[], false, ?_, ⟨hw.solver, hw.container, ?_⟩, .refl _, fun p hp j m hj => ?_⟩
  · rw [List.append_nil]
    exact shows_known hknown
  · rw [List.append_nil]
    refine hw.calls.append hw.container rfl (fun _ _ => id) (fun _ _ => rfl) hm nofun ?_ nofun ?_
    · rintro d ⟨⟩
      exact hknown
    · exact fun _ => hw.calls.ran _ c r hm rfl hknown
  · subst hp hj
    exact hw.container.injected c j m hknown

theorem Watching.start (hw : Watching i w) (hc : c < i.container.nextCell)
    (hnone : i.container.cell? c = none) : Watching (i.withCell c .running) w := by
  have hgrows : i.container.Grows (i.container.setCell c .running) :=
    Container.grows_setCell hnone .running
  refine ⟨hw.solver, hw.container.setCell hc nofun, ⟨hw.calls.has, hw.calls.plain,
    fun a ha d hd => hgrows.cells _ _ (hw.calls.done a ha d hd), fun m d o hm hd ho => ?_,
    hw.calls.once⟩⟩
  have ho : (i.container.setCell c .running).cell? d = some (.done o) := ho
  by_cases hdc : d = c
  · simp [hdc] at ho
  · rw [Container.cell?_setCell_of_ne hdc] at ho
    exact hw.calls.ran m d o hm hd ho

theorem Watching.finish (hw : Watching i w) (hm : i.container.Has m) (hc : m.cell? = some c)
    (hrunning : i.container.cell? c = some .running) (hr : ∀ p, r = .ok p → Injected p i) :
    Watching (i.withCell c (.done r)) { w with calls := w.calls ++ [⟨m, true, r⟩] } := by
  obtain ⟨x, hx⟩ := hm
  have hlt : c < i.container.nextCell := (hw.container.maker _ hx).cell_lt hc
  refine ⟨hw.solver, hw.container.setCell hlt ?_, ?_⟩
  · rintro j n ⟨⟩
    exact hr _ rfl j n rfl
  · refine hw.calls.append hw.container rfl (fun d o hd => ?_) (fun d hd => ?_) ⟨x, hx⟩
      (fun _ => rfl) (fun d hd => ?_) (fun _ d o hd => ?_) nofun
    · have hdc : d ≠ c := by
        rintro rfl
        simp [hrunning] at hd
      exact (Container.cell?_setCell_of_ne hdc _ _).trans hd
    · refine Container.cell?_setCell_of_ne ?_ _ _
      rintro rfl
      exact hd hc
    · obtain rfl : c = d := Option.some.inj (hc.symm.trans hd)
      exact Container.cell?_setCell_self _ _ _
    · obtain rfl : c = d := Option.some.inj (hc.symm.trans hd)
      simp [hrunning]

theorem noted_first (hcalls : TracksCalls watch run) (hdeps : deps.Built) (hw : Watching i w)
    (hm : i.container.Has ⟨type, .memoized c (.satisfaction s deps)⟩)
    (hc : c < i.container.nextCell) (hnone : i.container.cell? c = none)
    (hr : RunsTo (produce run s deps) (i.withCell c .running) r i') :
    Noted watch ⟨type, .memoized c (.satisfaction s deps)⟩ i w r (i'.withCell c (.done r)) := by
  have hstart : Watching (i.withCell c .running) { w with ran := false } :=
    (hw.start hc hnone).of_calls rfl
  obtain ⟨⟨_, _⟩, hshows, ⟨hw1, hgrows, inside, rfl⟩, hp⟩ :=
    tracks_produce hcalls hdeps s hstart _ _ hr
  have hrunning : i'.container.cell? c = some .running :=
    hgrows.cells _ _ (Container.cell?_setCell_self _ _ _)
  have hm : (i.withCell c .running).container.Has ⟨type, .memoized c (.satisfaction s deps)⟩ := hm
  exact ⟨inside, true, shows_first hnone (shows_watchRecipe hshows),
    (hw1.finish (hm.mono hgrows) rfl hrunning hp).of_calls rfl,
    Container.Grows.setCell hgrows hnone _, hp⟩

/-! ## Makers -/

theorem noted_of_runs (hcalls : TracksCalls watch run) (hw : Watching i w)
    (hm : i.container.Has m) (hr : RunsTo (runSource (produce run) m.type m.source) i r i') :
    Noted watch m i w r i' := by
  obtain ⟨x, hx⟩ := hm
  have hmaker : i.container.MakerOf x m := hw.container.maker _ hx
  cases hmaker with
  | plain _ hdeps => exact noted_plain hcalls hdeps hw ⟨x, hx⟩ hr
  | shared _ hdeps hc =>
    rcases runsTo_memoized hr with ⟨hknown, rfl⟩ | ⟨hnone, i1, hrun, rfl⟩
    · exact noted_known hw ⟨x, hx⟩ hknown
    · exact noted_first hcalls hdeps hw ⟨x, hx⟩ hc hnone hrun

/-- However deep recipes may run inside each other, a maker runs as it does when it is not watched,
and the calls inside of a call come before it. -/
theorem noted_of_runWithin (hw : Watching i w) (hm : i.container.Has m)
    (hr : RunsTo (m.runWithin depth) i r i') :
    ∃ inside ran, Shows (m.watchWithin depth) i w r i'
        ⟨w.calls ++ inside ++ [⟨m, ran, r⟩], ran⟩ ∧
      Watching i' ⟨w.calls ++ inside ++ [⟨m, ran, r⟩], ran⟩ ∧ i.container.Grows i'.container ∧
      ∀ p, r = .ok p → Injected p i' := by
  induction depth generalizing m i w r i' with
  | zero => cases hr
  | succ depth ih =>
    have hcalls : TracksCalls (Instantiator.watchWithin depth) (Instantiator.runWithin depth) := by
      intro m i w hm hw r i' hr
      obtain ⟨inside, ran, hshows, hw', hgrows, hp⟩ := ih hw hm hr
      have hcalls : w.calls <+: w.calls ++ inside ++ [⟨m, ran, r⟩] :=
        (List.prefix_append _ _).trans (List.prefix_append _ _)
      exact ⟨_, hshows, ⟨hw', hgrows, hcalls⟩, hp⟩
    obtain ⟨inside, ran, hshows, hw', hgrows, hp⟩ := noted_of_runs hcalls hw hm hr
    exact ⟨inside, ran, shows_watchWithin hshows, hw', hgrows, hp⟩

/-! ## Sessions -/

def Instantiator.callsAfter (m : Instantiator) (i : Injector) (calls : List Call) : List Call :=
  match (m.watch.run.run i).run { calls } with
  | some (_, w) => w.calls
  | none => calls

namespace Injector

/-- What a container is used for until it is closed, and the calls that end in the course of it: it
is asked for makers of any nodes, and its makers run. What else happens leaves it as it is, but for
its hooks and whether it is still there. -/
inductive Session : Injector → List Call → Prop
  | opened {i : Injector} : i.solver.Sound → i.container.cache = [] → i.container.cells = [] →
      Session i []
  | asked {i : Injector} {calls : List Call} {x : Graph} {b : BackEdges} : Session i calls →
      x.WellBuilt → b.BuiltTails →
      Session { i with container := (i.container.makerFor x b).2 } calls
  | ran {i i' : Injector} {calls : List Call} {m : Instantiator} {r : Outcome} : Session i calls →
      i.container.Has m → RunsTo m.run i r i' → Session i' (m.callsAfter i calls)
  | aside {i i' : Injector} {calls : List Call} {l : Lifecycle} {b : Bool} : Session i calls →
      i'.solver.Sound → i'.container = { i.container with lifecycle := l, dropped := b } →
      Session i' calls

end Injector

def Call.On (a : Call) (k : Container) (x : Graph) : Prop := k.maker? x = some a.maker

namespace Injector

theorem callsAfter_spec (hw : Watching i { calls }) (hm : i.container.Has m)
    (hr : RunsTo m.run i r i') :
    ∃ inside ran, m.callsAfter i calls = calls ++ inside ++ [⟨m, ran, r⟩] ∧
      Shows m.watch i { calls } r i' ⟨m.callsAfter i calls, ran⟩ ∧
      Watching i' { calls := m.callsAfter i calls } ∧ i.container.Grows i'.container := by
  obtain ⟨inside, ran, hshows, hw', hgrows, -⟩ := noted_of_runWithin hw hm hr
  have hshows : Shows m.watch i { calls } r i' ⟨calls ++ inside ++ [⟨m, ran, r⟩], ran⟩ := hshows
  have hafter : m.callsAfter i calls = calls ++ inside ++ [⟨m, ran, r⟩] := by
    unfold Instantiator.callsAfter
    rw [hshows]
  rw [hafter]
  exact ⟨inside, ran, rfl, hshows, hw'.of_calls rfl, hgrows⟩

theorem Session.watching (h : Session i calls) : Watching i { calls } := by
  induction h with
  | opened hsolver hcache hcells =>
    exact ⟨hsolver, Container.sound_of_empty hcache hcells, logged_nil hcache⟩
  | asked _ hx hb ih =>
    have h := ih.container.makerFor hx hb
    exact ⟨ih.solver, h.sound, ih.calls.extended h⟩
  | ran _ hm hr ih =>
    obtain ⟨_, _, -, -, hw', -⟩ := callsAfter_spec ih hm hr
    exact hw'
  | aside _ hsolver hcontainer ih => exact ih.aside hsolver hcontainer

/-- Until a container is closed every call is of the maker of a node, and equal nodes have one
maker; what the calls inside of a call are is seen without a change to what it does. Where the
instances of a node are shared, its recipe runs in the first call on it or on an equal node, and
never again, and all these calls have one outcome, be it an instance, null or an error; no other
node has the maker. Where they are not, the recipe runs in every call. -/
theorem Session.memoizes (h : Session i calls) :
    (∀ a ∈ calls, ∃ x, x.WellBuilt ∧ a.On i.container x) ∧
    (∀ x y, Dag.SameNode x y → ∀ a : Call, a.On i.container x ↔ a.On i.container y) ∧
    (∀ m r i', i.container.Has m → RunsTo m.run i r i' →
      ∃ inside ran, m.callsAfter i calls = calls ++ inside ++ [⟨m, ran, r⟩] ∧
        Shows m.watch i { calls } r i' ⟨m.callsAfter i calls, ran⟩) ∧
    ∀ x, (i.container.Shares x →
        calls.Pairwise (fun a b => a.On i.container x → b.On i.container x →
          b.ran = false ∧ b.outcome = a.outcome) ∧
        (∀ a ∈ calls, a.On i.container x → ∃ b ∈ calls, b.On i.container x ∧ b.ran = true) ∧
        ∀ (a : Call) y, a.On i.container x → a.On i.container y → (x == y) = true) ∧
      (¬ i.container.Shares x → ∀ a ∈ calls, a.On i.container x → a.ran = true) := by
  have hw := h.watching
  have hk := hw.container
  have hc : Logged i.container calls := hw.calls
  refine ⟨fun a ha => ?_, fun x y hxy a => ?_, fun m r i' hm hr => ?_,
    fun x => ⟨fun hx => ⟨?_, fun a ha hax => ?_, fun a y hax hay => ?_⟩, fun hx a ha hax => ?_⟩⟩
  · obtain ⟨x, hx⟩ := hc.has a ha
    exact ⟨x, hk.node _ hx, hk.maker?_of_mem hx⟩
  · unfold Call.On
    rw [Container.maker?_congr hxy]
  · obtain ⟨inside, ran, hcalls, hshows, -⟩ := callsAfter_spec hw hm hr
    exact ⟨inside, ran, hcalls, hshows⟩
  · refine hc.once.imp_of_mem fun {a b} ha hb honce hax hbx => ?_
    have hab : a.maker = b.maker := Option.some.inj (hax.symm.trans hbx)
    have hcell := (hk.cell?_of_maker? hax).2 hx
    obtain ⟨c, hac⟩ := Option.isSome_iff_exists.1 hcell
    have hdone := (hc.done b hb c (hab ▸ hac)).symm.trans (hc.done a ha c hac)
    exact ⟨honce hab hcell, (Cell.done.injEq _ _).mp (Option.some.inj hdone)⟩
  · obtain ⟨c, hac⟩ := Option.isSome_iff_exists.1 ((hk.cell?_of_maker? hax).2 hx)
    obtain ⟨b, hb, hba, hran⟩ := hc.ran _ c _ (hc.has a ha) hac (hc.done a ha c hac)
    exact ⟨b, hb, hax.trans (congrArg some hba.symm), hran⟩
  · obtain ⟨c, hac⟩ := Option.isSome_iff_exists.1 ((hk.cell?_of_maker? hax).2 hx)
    exact hk.beq_of_cell hax hay hac
  · have hcell : ¬ a.maker.cell?.isSome = true := mt (hk.cell?_of_maker? hax).1 hx
    exact hc.plain a ha (by simpa using hcell)

/-- A class whose recipe fails, and whose instances are shared, is asked for twice. -/
theorem memoizes_of_failure :
    let broken : Catalog := .freeze [⟨.named "Broken", true, [], [], {}, .memoize,
      some ⟨[⟨"down", .fail, false⟩], .object⟩, none⟩] []
    let i := Injector.ofSettings (.ofConfig broken [] {}) .noPreference
    let x : Graph := ((Dag.singleton ⟨.construct (.named "Broken"), .memoize⟩).run 7).1
    let m := (i.container.makerFor x .empty).1
    let j : Injector := { i with container := (i.container.makerFor x .empty).2 }
    ∃ r r' i1 i2, RunsTo m.run j r i1 ∧ RunsTo m.run i1 r' i2 ∧
      let calls := m.callsAfter i1 (m.callsAfter j [])
      Session i2 calls ∧ i2.container.Shares x ∧
      calls.map (fun a => (a.ran, a.outcome.isOk)) = [(true, false), (false, false)] ∧
      calls.Pairwise (fun a b => a.On i2.container x → b.On i2.container x →
        b.ran = false ∧ b.outcome = a.outcome) := by
  intro broken i x m j
  have hopened : Session i [] := .opened (Solver.sound_ofSettings _ _ 0) rfl rfl
  have hx : x.WellBuilt := Dag.Draft.Ready.build ⟨.nil, by simp⟩ 7
  have hasked : Session j [] := hopened.asked hx (List.forall_mem_nil _)
  have hm : j.container.Has m := by
    obtain ⟨y, hy, -⟩ := Container.maker?_eq_some (i.container.maker?_makerFor x .empty)
    exact ⟨y, hy⟩
  have hboth : (m.run.run.run j).any (fun p => (m.run.run.run p.2).isSome &&
      (m.callsAfter p.2 (m.callsAfter j [])).map (fun a => (a.ran, a.outcome.isOk)) ==
        [(true, false), (false, false)]) = true := by
    subst m j i x broken
    decide +kernel
  obtain ⟨⟨r, i1⟩, hfirst, hboth⟩ := (Option.any_eq_true _ _).1 hboth
  obtain ⟨hsecond, hcalls⟩ := Bool.and_eq_true_iff.1 hboth
  obtain ⟨⟨r', i2⟩, hsecond⟩ := Option.isSome_iff_exists.1 hsecond
  obtain ⟨_, _, -, -, -, hgrows⟩ := callsAfter_spec hasked.watching hm hfirst
  have hran : Session i2 _ := (hasked.ran hm hfirst).ran (hm.mono hgrows) hsecond
  have hshares : i2.container.Shares x := rfl
  exact ⟨r, r', i1, i2, hfirst, hsecond, hran, hshares, eq_of_beq hcalls,
    ((hran.memoizes.2.2.2 x).1 hshares).1⟩

end Injector

end Wiring
