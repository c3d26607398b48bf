import HTWGArchive.Library.ThreadSums

namespace LockedCounter

open Interleaving Semaphore

variable {T L S : Type*}

-- A lock, a counter that it protects, and what each thread still has to add.
structure Spec (L S : Type*) where
  value : S → ℕ
  counter : S → Int
  holds : L → Prop
  left : L → ℕ

variable {p : Spec L S}

-- What one step may do: only the holder touches the counter, and by what it had left.
structure Spec.Moves (p : Spec L S) (l : L) (s : S) (l' : L) (s' : S) : Prop where
  lock : Uses p.holds (p.value s) (p.value s') l l'
  balance : p.counter s' + p.left l' = p.counter s + p.left l
  alone : ¬ p.holds l → p.counter s' = p.counter s

-- `ok` is what a thread knows at its point about the counter.
structure Spec.Invariant [Fintype T] (p : Spec L S) (ok : L → Int → Prop) (total : Int)
    (s : State T L S) : Prop where
  guards : Guards p.holds (p.value s.shared) s.locals
  known : ∀ t, ok (s.locals t) (p.counter s.shared)
  balance : p.counter s.shared + ((∑ t, p.left (s.locals t) : ℕ) : Int) = total

variable [DecidableEq T] [Fintype T] {ok : L → Int → Prop} {total : Int} {s : State T L S}

omit [DecidableEq T] [Fintype T] in
theorem taken {value : ℕ} {holds : L → Prop} {locals : T → L} {t : T}
    (h : Guards holds value locals) (ht : holds (locals t)) : value = 0 := by
  rcases h with ⟨-, hnone⟩ | ⟨rfl, -⟩
  · exact absurd ht (hnone t)
  · rfl

theorem Spec.Invariant.step (h : p.Invariant ok total s) {t : T} {x : L × S}
    (hmoves : p.Moves (s.locals t) s.shared x.1 x.2) (hok : ok x.1 (p.counter x.2))
    (hstable : ∀ l n n', ok l n → ¬ p.holds l → ok l n') :
    p.Invariant ok total (s.set t x) := by
  refine ⟨h.guards.use hmoves.lock, ?_, ?_⟩
  · intro u
    rcases eq_or_ne u t with rfl | hne
    · rw [State.set_locals_self, State.set_shared]
      exact hok
    · rw [State.set_locals_of_ne s hne, State.set_shared]
      by_cases hu : p.holds (s.locals u)
      · have ht : ¬ p.holds (s.locals t) := fun ht => hne (h.guards.exclusive hu ht)
        rw [hmoves.alone ht]
        exact h.known u
      · exact hstable _ _ _ (h.known u) hu
  · have hsum := ThreadSums.sum_update p.left s.locals t x.1
    have hmove := hmoves.balance
    have hbefore := h.balance
    simp only [State.set]
    omega

theorem Spec.invariant_reachable {step : L → S → Option (L × S)} {good : S → Prop}
    {s₀ : State T L S} (hinit : p.Invariant ok total s₀) (hgood : good s₀.shared)
    (hstable : ∀ l n n', ok l n → ¬ p.holds l → ok l n')
    (hstep : ∀ l s x, good s → ok l (p.counter s) → (p.holds l → p.value s = 0) →
      step l s = some x → p.Moves l s x.1 x.2 ∧ ok x.1 (p.counter x.2) ∧ good x.2)
    (h : Reachable step s₀ s) : p.Invariant ok total s ∧ good s.shared := by
  refine h.invariant (I := fun s => p.Invariant ok total s ∧ good s.shared) ⟨hinit, hgood⟩ ?_
  intro s t x hs hx
  obtain ⟨hmoves, hok, hnext⟩ := hstep _ _ x hs.2 (hs.1.known t) (taken hs.1.guards) hx
  exact ⟨hs.1.step hmoves hok hstable, hnext⟩

end LockedCounter
