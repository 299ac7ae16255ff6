import Wiring.Proofs.Injector.Watching

/-!
# Makings that do something besides

Recipes are run with whatever making instances may do besides, as long as it can be seen. Much of
what they do is bookkeeping, which comes to the same whatever is done besides.
-/

namespace Wiring

open Making

/-- Computations that may do something besides, which is seen in an `S`. -/
class Watchable (M : Type → Type) [Monad M] (S : outParam Type) where
  watch {β : Type} : M β → S → Option (β × S)
  watch_pure {β : Type} (b : β) (w : S) : watch (pure b) w = some (b, w)
  watch_bind {β γ : Type} (x : M β) (f : β → M γ) (w : S) :
    watch (x >>= f) w = (watch x w).bind fun p => watch (f p.1) p.2

instance : Watchable Option Unit where
  watch x w := x.map (·, w)
  watch_pure _ _ := rfl
  watch_bind x _ _ := by cases x <;> rfl

instance {W : Type} : Watchable (StateT W Option) W where
  watch x w := x.run w
  watch_pure _ _ := rfl
  watch_bind _ _ _ := rfl

variable {M : Type → Type} [Monad M] {S : Type} [Watchable M S] {α β : Type}
  {i i' i1 : Injector} {w w' : S}

/-- Started with an injector, and with this to be seen, the making ends with a result and leaves
another injector, and then that is seen. -/
def Ends (t : MakingOver M α) (i : Injector) (w : S) (r : Attempt α) (i' : Injector) (w' : S) :
    Prop :=
  Watchable.watch (t.run.run i) w = some ((r, i'), w')

theorem ends_iff_runsTo {u : Making α} {r : Attempt α} {w w' : Unit} :
    Ends u i w r i' w' ↔ RunsTo u i r i' := by
  unfold Ends RunsTo Watchable.watch instWatchableOptionUnit
  simp

section

variable {t : MakingOver M α} {f : α → MakingOver M β} {a : α}

theorem ends_pure (a : α) (i : Injector) (w : S) :
    Ends (pure a : MakingOver M α) i w (.ok a) i w :=
  Watchable.watch_pure (M := M) _ _

theorem ends_throw (e : WiringError) (i : Injector) (w : S) :
    Ends (throw e : MakingOver M α) i w (.error e) i w :=
  Watchable.watch_pure (M := M) _ _

theorem ends_bind {w1 : S} {r : Attempt β} (h : Ends t i w (.ok a) i1 w1)
    (hf : Ends (f a) i1 w1 r i' w') : Ends (t >>= f) i w r i' w' := by
  unfold Ends at h hf ⊢
  rw [ExceptT.run_bind, StateT.run_bind, Watchable.watch_bind, h]
  exact hf

theorem ends_bind_error {e : WiringError} (h : Ends t i w (.error e) i' w') :
    Ends (t >>= f) i w (.error e) i' w' := by
  unfold Ends at h ⊢
  rw [ExceptT.run_bind, StateT.run_bind, Watchable.watch_bind, h]
  exact Watchable.watch_pure (M := M) _ _

theorem ends_attempt {r : Attempt α} (h : Ends t i w r i' w') :
    Ends (attempt t) i w (.ok r) i' w' := by
  unfold Ends at h ⊢
  unfold attempt
  rw [ExceptT.run_lift]
  show Watchable.watch (t.run.run i >>= fun p => pure (Except.ok p.1, p.2)) w = _
  rw [Watchable.watch_bind, h]
  exact Watchable.watch_pure (M := M) _ _

theorem ends_modifyGet (f : Injector → α × Injector) (i : Injector) (w : S) :
    Ends (modifyGet f : MakingOver M α) i w (.ok (f i).1) (f i).2 w := by
  unfold Ends
  show Watchable.watch ((pure (f i) : M _) >>= fun p => pure (Except.ok p.1, p.2)) w = _
  rw [Watchable.watch_bind, Watchable.watch_pure]
  exact Watchable.watch_pure (M := M) _ _

theorem ends_get (i : Injector) (w : S) : Ends (get : MakingOver M Injector) i w (.ok i) i w :=
  ends_modifyGet (fun i => (i, i)) i w

end

/-! ## Bookkeeping -/

structure Books where
  serial : Nat
  made : Nat
  given : Nat
  counters : List (Identity × UInt64)
  log : List String

namespace Injector

def books (i : Injector) : Books := ⟨i.serial, i.made, i.given, i.counters, i.log⟩

def withBooks (i : Injector) (b : Books) : Injector :=
  { i with serial := b.serial, made := b.made, given := b.given, counters := b.counters, log := b.log }

@[simp] theorem books_withBooks (i : Injector) (b : Books) : (i.withBooks b).books = b := rfl

@[simp] theorem withBooks_withBooks (i : Injector) (b b' : Books) :
    (i.withBooks b).withBooks b' = i.withBooks b' := rfl

@[simp] theorem withBooks_books (i : Injector) : i.withBooks i.books = i := rfl

end Injector

/-- Both makings only keep the books, and in the same way. -/
def Bookwork (t : MakingOver M α) (u : Making α) : Prop :=
  ∃ f : Books → Attempt α × Books, (∀ b, b.made ≤ (f b).2.made) ∧
    (∀ i w, Ends t i w (f i.books).1 (i.withBooks (f i.books).2) w) ∧
    ∀ i, RunsTo u i (f i.books).1 (i.withBooks (f i.books).2)

namespace Bookwork

variable {t : MakingOver M α} {u : Making α} {f : α → MakingOver M β} {g : α → Making β}

theorem pure (a : α) : Bookwork (pure a : MakingOver M α) (pure a) :=
  ⟨fun b => (.ok a, b), fun _ => Nat.le.refl, fun i w => ends_pure a i w, fun _ => rfl⟩

theorem bind (h : Bookwork t u) (hf : ∀ a, Bookwork (f a) (g a)) :
    Bookwork (t >>= f) (u >>= g) := by
  obtain ⟨k, hmade, ht, hu⟩ := h
  choose k' hmade' hf hg using hf
  refine ⟨fun b => match (k b).1 with
    | .ok a => k' a (k b).2
    | .error e => (.error e, (k b).2), fun b => ?_, fun i w => ?_, fun i => ?_⟩
  · dsimp only
    split
    · exact Nat.le_trans (hmade b) (hmade' _ _)
    · exact hmade b
  · have ht := ht i w
    dsimp only
    split
    · rename_i a ha
      rw [ha] at ht
      exact ends_bind ht (hf a _ w)
    · rename_i e he
      rw [he] at ht
      exact ends_bind_error ht
  · have hu := hu i
    dsimp only
    split
    · rename_i a ha
      rw [ha] at hu
      exact runsTo_bind.2 (.inl ⟨a, _, hu, hg a _⟩)
    · rename_i e he
      rw [he] at hu
      exact runsTo_bind.2 (.inr ⟨e, rfl, hu⟩)

theorem modifyGet {f : Injector → α × Injector} (k : Books → α × Books)
    (hmade : ∀ b, b.made ≤ (k b).2.made)
    (hf : ∀ i, f i = ((k i.books).1, i.withBooks (k i.books).2)) :
    Bookwork (modifyGet f : MakingOver M α) (modifyGet f) := by
  refine ⟨fun b => (.ok (k b).1, (k b).2), hmade, fun i w => ?_, fun i => ?_⟩
  · have h := ends_modifyGet (M := M) f i w
    rw [hf] at h
    exact h
  · have h := ends_modifyGet (M := Option) f i ()
    rw [hf] at h
    exact ends_iff_runsTo.1 h

theorem newIdentity : Bookwork (newIdentity : MakingOver M _) newIdentity :=
  modifyGet (fun b => (.made b.made, { b with made := b.made + 1 })) (fun _ => Nat.le_succ _)
    fun _ => rfl

theorem nextSerial : Bookwork (nextSerial : MakingOver M _) nextSerial :=
  modifyGet (fun b => (b.serial + 1, { b with serial := b.serial + 1 })) (fun _ => Nat.le.refl)
    fun _ => rfl

theorem writeLog (line : String) : Bookwork (writeLog line : MakingOver M _) (writeLog line) :=
  modifyGet (fun b => ((), { b with log := b.log ++ [line] })) (fun _ => Nat.le.refl) fun _ => rfl

theorem count (provider : Identity) (start : UInt64) :
    Bookwork (count provider start : MakingOver M _) (count provider start) :=
  modifyGet (fun b => ((b.counters.lookup provider).getD start,
    { b with counters := (provider, (b.counters.lookup provider).getD start + 1) :: b.counters }))
    (fun _ => Nat.le.refl) fun _ => rfl

theorem newValue (d : Datum) : Bookwork (newValue d : MakingOver M _) (newValue d) :=
  newIdentity.bind fun _ => pure _

theorem newSupply (r : ProviderRecipe) :
    Bookwork (r.newSupply : MakingOver M _) r.newSupply := by
  unfold ProviderRecipe.newSupply
  split
  · split
    · exact (newValue _).bind fun _ => pure _
    · exact pure _
  · exact pure _

end Bookwork

end Wiring
