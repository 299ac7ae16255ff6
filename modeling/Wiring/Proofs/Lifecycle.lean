import Wiring.Lifecycle
import Mathlib.Data.List.Nodup

/-!
# Closing

Hooks are numbered as they are registered, and at any time the one with the greatest number of those
that wait is to run. Closing does that until none waits, however many hooks are registered
meanwhile. So what a hook leads to runs directly after it, and older hooks run behind all of it.
-/

namespace Wiring

mutual

/-- A hook and all it leads to, in the order in which they run. -/
def Hook.chain : Hook → List Hook
  | h@(disposer _) | h@(plain _) => [h]
  | h@(nesting _ hooks) => h :: chains hooks

def Hook.chains : List Hook → List Hook
  | [] => []
  | h :: hs => chains hs ++ chain h

end

namespace Hook

theorem chain_eq (h : Hook) : h.chain = h :: chains h.nested := by
  cases h <;> rfl

theorem chains_eq (hs : List Hook) : chains hs = hs.reverse.flatMap chain := by
  induction hs with
  | nil => rfl
  | cons h hs ih =>
    rw [chains, ih, List.reverse_cons, List.flatMap_append, List.flatMap_singleton]

theorem size_eq (h : Hook) : h.size = 1 + sizeAll h.nested := by
  cases h <;> rfl

theorem sizeAll_append (hs ks : List Hook) : sizeAll (hs ++ ks) = sizeAll hs + sizeAll ks := by
  induction hs with
  | nil => simp [sizeAll]
  | cons h hs ih => rw [List.cons_append, sizeAll, sizeAll, ih, Nat.add_assoc]

theorem sizeAll_reverse (hs : List Hook) : sizeAll hs.reverse = sizeAll hs := by
  induction hs with
  | nil => rfl
  | cons h hs ih => simp [sizeAll_append, sizeAll, ih, Nat.add_comm]

end Hook

/-! ## The order of registration -/

/-- All hooks ever registered, the first first, and the numbers of those that ran, in the order in
which they ran. -/
structure Roll where
  hooks : List Hook
  ran : List Nat

namespace Roll

variable {r r' : Roll} {h : Hook} {i : Nat} {before : List Nat} {lines lines' : List String}

def waiting (r : Roll) : List Nat := (List.range r.hooks.length).filter (· ∉ r.ran)

/-- A hook runs, and those that it registers get the next numbers. -/
def run (r : Roll) (i : Nat) (h : Hook) : Roll := ⟨r.hooks ++ h.nested, r.ran ++ [i]⟩

/-- The latest of the hooks that wait runs, with its line, until no hook waits. -/
inductive Closes : Roll → List String → Roll → Prop
  | done {r : Roll} : r.waiting = [] → Closes r [] r
  | next {r r' : Roll} {i : Nat} {h : Hook} {before : List Nat} {lines : List String} :
      r.waiting = before ++ [i] → r.hooks[i]? = some h → Closes (r.run i h) lines r' →
      Closes r (h.line before.length :: lines) r'

theorem Closes.unique (hr : r.Closes lines r') {r'' : Roll} (hr' : r.Closes lines' r'') :
    lines' = lines ∧ r'' = r' := by
  induction hr generalizing lines' r'' with
  | done hnone =>
    cases hr' with
    | done _ => exact ⟨rfl, rfl⟩
    | next hsome _ _ => simp [hnone] at hsome
  | next hsome hhook _ ih =>
    cases hr' with
    | done hnone => simp [hnone] at hsome
    | next hsome' hhook' hrest =>
      obtain ⟨rfl, hi⟩ := List.append_inj' (hsome.symm.trans hsome') rfl
      obtain rfl := List.singleton_inj.mp hi
      obtain rfl := Option.some.inj (hhook.symm.trans hhook')
      obtain ⟨rfl, rfl⟩ := ih hrest
      exact ⟨rfl, rfl⟩

structure Sound (r : Roll) : Prop where
  once : r.ran.Nodup
  known : ∀ i ∈ r.ran, i < r.hooks.length

theorem mem_waiting : i ∈ r.waiting ↔ i < r.hooks.length ∧ i ∉ r.ran := by
  simp [waiting]

theorem Sound.run (hr : r.Sound) (hi : i ∈ r.waiting) (h : Hook) : (r.run i h).Sound := by
  obtain ⟨hlt, hnew⟩ := mem_waiting.mp hi
  refine ⟨?_, fun j hj => ?_⟩
  · exact List.nodup_append.mpr ⟨hr.once, List.nodup_singleton i,
      fun j hj k hk hjk => hnew (List.mem_singleton.mp hk ▸ hjk ▸ hj)⟩
  · show j < (r.hooks ++ h.nested).length
    rw [List.length_append]
    rcases List.mem_append.mp hj with hj | hj
    · exact Nat.lt_add_right _ (hr.known j hj)
    · exact Nat.lt_add_right _ (List.mem_singleton.mp hj ▸ hlt)

theorem Closes.sound (h : r.Closes lines r') (hr : r.Sound) : r'.Sound ∧ r'.waiting = [] := by
  induction h with
  | done hnone => exact ⟨hr, hnone⟩
  | next hsome _ _ ih => exact ih (hr.run (by simp [hsome]) _)

theorem Sound.perm (hr : r.Sound) (hnone : r.waiting = []) :
    r.ran.Perm (List.range r.hooks.length) := by
  rw [List.perm_ext_iff_of_nodup hr.once List.nodup_range]
  intro i
  rw [List.mem_range]
  refine ⟨hr.known i, fun hi => ?_⟩
  by_contra hnew
  have := mem_waiting.mpr ⟨hi, hnew⟩
  simp [hnone] at this

theorem Sound.waiting_run (hr : r.Sound) (hi : r.waiting = before ++ [i]) (h : Hook) :
    (r.run i h).waiting = before ++ (List.range h.nested.length).map (r.hooks.length + ·) := by
  have hlt : i < r.hooks.length := (mem_waiting.mp (by simp [hi])).1
  have hold : (List.range r.hooks.length).filter (· ∉ r.ran ++ [i]) = before := by
    have hnodup : (before ++ [i]).Nodup := hi ▸ List.nodup_range.filter _
    have hbefore : ∀ j ∈ before, j ≠ i := fun j hj =>
      (List.nodup_append.mp hnodup).2.2 j hj i (List.mem_singleton_self i)
    have hsplit : (List.range r.hooks.length).filter (· ∉ r.ran ++ [i]) =
        r.waiting.filter (· ≠ i) := by
      rw [waiting, List.filter_filter]
      exact List.filter_congr fun j _ => by simp [and_comm]
    rw [hsplit, hi, List.filter_append, List.filter_eq_self.mpr (by simpa using hbefore)]
    simp
  have hnew : ∀ j ∈ (List.range h.nested.length).map (r.hooks.length + ·),
      j ∉ r.ran ++ [i] := by
    intro j hj hran
    obtain ⟨k, -, rfl⟩ := List.mem_map.mp hj
    rcases List.mem_append.mp hran with hran | hran
    · have := hr.known _ hran
      omega
    · have := List.mem_singleton.mp hran
      omega
  unfold waiting Roll.run
  rw [List.length_append, List.range_add, List.filter_append, hold,
    List.filter_eq_self.mpr (by simpa using hnew)]

/-! ## The stack -/

def Stacks (r : Roll) (hooks : List Hook) : Prop :=
  r.waiting.map (r.hooks[·]?) = hooks.reverse.map some

theorem Stacks.eq_append {older : List Hook} (hs : r.Stacks (h :: older)) :
    ∃ before i, r.waiting = before ++ [i] ∧ r.hooks[i]? = some h ∧
      before.map (r.hooks[·]?) = older.reverse.map some := by
  unfold Stacks at hs
  rw [List.reverse_cons, List.map_append] at hs
  obtain ⟨before, last, hwaiting, hbefore, hlast⟩ := List.map_eq_append_iff.mp hs
  obtain ⟨i, rfl, hi⟩ := List.map_eq_singleton_iff.mp hlast
  exact ⟨before, i, hwaiting, hi, hbefore⟩

theorem Stacks.run {older : List Hook} (hr : r.Sound) (hi : r.waiting = before ++ [i])
    (hbefore : before.map (r.hooks[·]?) = older.reverse.map some) :
    (r.run i h).Stacks (h.nested.reverse ++ older) := by
  have hold : before.map ((r.hooks ++ h.nested)[·]?) = before.map (r.hooks[·]?) := by
    refine List.map_congr_left fun j hj => ?_
    have hlt := (mem_waiting.mp (hi ▸ List.mem_append_left [i] hj)).1
    exact List.getElem?_append_left hlt
  have hnew : (List.range h.nested.length).map
      (fun j => (r.hooks ++ h.nested)[r.hooks.length + j]?) = h.nested.map some := by
    refine List.ext_getElem? fun j => ?_
    by_cases hj : j < h.nested.length <;> simp [hj]
  unfold Stacks
  rw [hr.waiting_run hi, List.map_append, List.map_map, List.reverse_append, List.reverse_reverse,
    List.map_append, ← hbefore, ← hold, ← hnew]
  rfl

theorem Closes.hooks_prefix (h : r.Closes lines r') : r.hooks <+: r'.hooks := by
  induction h with
  | done _ => exact List.prefix_rfl
  | next _ _ _ ih => exact (List.prefix_append _ _).trans ih

end Roll

/-! ## Closing -/

namespace Lifecycle

variable {r : Roll} {l : Lifecycle}

theorem foldl_register (hs : List Hook) (l : Lifecycle) :
    hs.foldl register l = ⟨hs.reverse ++ l.hooks⟩ := by
  induction hs generalizing l with
  | nil => rfl
  | cons h hs ih => simp [ih, register]

/-- With room for all hooks, closing runs the latest of those that wait until none does. Behind what
ran before come the chains of the hooks on the stack. -/
theorem closes_runAll {fuel : Nat} {hooks : List Hook} (hr : r.Sound) (hs : r.Stacks hooks)
    (hfuel : Hook.sizeAll hooks ≤ fuel) :
    ∃ r' new, r.Closes (runAll fuel ⟨hooks⟩).1 r' ∧ (runAll fuel ⟨hooks⟩).2 = .empty ∧
      r'.ran = r.ran ++ new ∧ new.map (r'.hooks[·]?) = (hooks.flatMap Hook.chain).map some := by
  induction fuel generalizing r hooks with
  | zero =>
    obtain rfl : hooks = [] := by
      cases hooks with
      | nil => rfl
      | cons h older => rw [Hook.sizeAll, Hook.size_eq] at hfuel; omega
    exact ⟨r, [], .done (List.map_eq_nil_iff.mp hs), rfl, by simp, rfl⟩
  | succ fuel ih =>
    cases hooks with
    | nil => exact ⟨r, [], .done (List.map_eq_nil_iff.mp hs), rfl, by simp, rfl⟩
    | cons h older =>
      obtain ⟨before, i, hi, hhook, hbefore⟩ := hs.eq_append
      rw [Hook.sizeAll, Hook.size_eq] at hfuel
      have hroom : Hook.sizeAll (h.nested.reverse ++ older) ≤ fuel := by
        rw [Hook.sizeAll_append, Hook.sizeAll_reverse]
        omega
      obtain ⟨r', new, hcloses, hempty, hran, hnew⟩ :=
        ih (hr.run (by simp [hi]) h) (.run hr hi hbefore) hroom
      have hleft : before.length = older.length := by simpa using congrArg List.length hbefore
      have hrun : runAll (fuel + 1) ⟨h :: older⟩ =
          (h.line before.length :: (runAll fuel ⟨h.nested.reverse ++ older⟩).1,
            (runAll fuel ⟨h.nested.reverse ++ older⟩).2) := by
        rw [runAll]
        simp only [runLatest?, foldl_register, hleft]
      have hfirst : r'.hooks[i]? = some h := by
        obtain ⟨later, hlater⟩ := hcloses.hooks_prefix
        rw [← hlater, Roll.run, List.append_assoc]
        rw [List.getElem?_append_left (List.getElem?_eq_some_iff.mp hhook).1, hhook]
      rw [hrun]
      refine ⟨r', i :: new, .next hi hhook hcloses, hempty, ?_, ?_⟩
      · rw [hran, Roll.run, List.append_assoc, List.singleton_append]
      · rw [List.map_cons, hfirst, hnew, List.flatMap_cons, h.chain_eq, Hook.chains_eq,
          List.flatMap_append]
        simp

/-- Closing ends. It always runs the latest registered of the hooks that wait, hooks registered
meanwhile included, so each runs once: a hook, then the chains of those that it registers, the
latest first, and then the older hooks. Afterwards there is no hook left to run. -/
theorem close_latest_first (l : Lifecycle) : ∃ r : Roll,
    (∀ lines r', Roll.Closes ⟨l.hooks.reverse, []⟩ lines r' ↔ lines = l.close.1 ∧ r' = r) ∧
      r.ran.Perm (List.range r.hooks.length) ∧
      r.ran.map (r.hooks[·]?) = (l.hooks.flatMap Hook.chain).map some ∧
      l.close.2.size = 0 ∧ l.close.2.close = ([], l.close.2) := by
  have hstart : Roll.Sound ⟨l.hooks.reverse, []⟩ := ⟨List.nodup_nil, List.forall_mem_nil _⟩
  have hstacks : Roll.Stacks ⟨l.hooks.reverse, []⟩ l.hooks := by
    refine List.ext_getElem? fun j => ?_
    by_cases hj : j < l.hooks.length <;> simp [Roll.waiting, hj]
  obtain ⟨r, new, hcloses, hempty, hran, hnew⟩ := closes_runAll hstart hstacks (Nat.le_refl _)
  obtain rfl : r.ran = new := hran
  obtain ⟨hsound, hnone⟩ := hcloses.sound hstart
  have hclose : l.close.2 = .empty := hempty
  refine ⟨r, fun lines r' => ⟨hcloses.unique, ?_⟩, hsound.perm hnone, hnew, ?_, ?_⟩
  · rintro ⟨rfl, rfl⟩
    exact hcloses
  · rw [hclose]
    rfl
  · rw [hclose]
    rfl

/-- A hook that registers two, of which the latter registers one more, over an older hook. -/
example :
    let hooks : List Hook :=
      [.nesting "a" [.disposer "b", .nesting "c" [.plain "d"]], .disposer "e"]
    (close ⟨hooks⟩).1 = ["hook a with 1 left", "hook c with 2 left", "hook d", "dispose b",
      "dispose e"] := by
  decide

end Lifecycle

end Wiring
