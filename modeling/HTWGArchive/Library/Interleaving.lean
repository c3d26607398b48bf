import Mathlib.Data.Set.Function
import Mathlib.Logic.Relation

namespace Interleaving

variable {T L S : Type*} [DecidableEq T]

structure State (T L S : Type*) where
  shared : S
  locals : T → L

def State.set (s : State T L S) (t : T) (x : L × S) : State T L S :=
  ⟨x.2, Function.update s.locals t x.1⟩

-- A thread whose step is `none` is blocked or has ended.
def Step (step : L → S → Option (L × S)) (s s' : State T L S) : Prop :=
  ∃ t x, step (s.locals t) s.shared = some x ∧ s' = s.set t x

def Reachable (step : L → S → Option (L × S)) : State T L S → State T L S → Prop :=
  Relation.ReflTransGen (Step step)

variable {step : L → S → Option (L × S)} {s₀ s s' : State T L S}

theorem Reachable.invariant {I : State T L S → Prop} (hinit : I s₀)
    (hstep : ∀ s t x, I s → step (s.locals t) s.shared = some x → I (s.set t x))
    (h : Reachable step s₀ s) : I s := by
  induction h with
  | refl => exact hinit
  | tail _ hs ih =>
    obtain ⟨t, x, hx, rfl⟩ := hs
    exact hstep _ t x ih hx

theorem Reachable.next (h : Reachable step s₀ s) {t : T} {x : L × S}
    (hx : step (s.locals t) s.shared = some x) : Reachable step s₀ (s.set t x) :=
  h.tail ⟨t, x, hx, rfl⟩

def solo (step : L → S → Option (L × S)) : ℕ → L × S → Option (L × S)
  | 0, x => some x
  | k + 1, x => (step x.1 x.2).bind (solo step k)

theorem State.set_set (s : State T L S) (t : T) (x y : L × S) : (s.set t x).set t y = s.set t y := by
  simp [State.set]

theorem State.set_self (s : State T L S) (t : T) : s.set t (s.locals t, s.shared) = s := by
  simp [State.set]

@[simp] theorem State.set_shared (s : State T L S) (t : T) (x : L × S) :
    (s.set t x).shared = x.2 := rfl

@[simp] theorem State.set_locals_self (s : State T L S) (t : T) (x : L × S) :
    (s.set t x).locals t = x.1 := by
  simp [State.set]

theorem State.set_locals_of_ne (s : State T L S) {t u : T} (h : u ≠ t) (x : L × S) :
    (s.set t x).locals u = s.locals u := by
  simp [State.set, h]

theorem Reachable.solo {k : ℕ} {t : T} {x y : L × S} (h : Reachable step s₀ (s.set t x))
    (hrun : solo step k x = some y) : Reachable step s₀ (s.set t y) := by
  induction k generalizing x with
  | zero =>
    obtain rfl := Option.some.inj hrun
    exact h
  | succ k ih =>
    obtain ⟨z, hz, hrest⟩ := Option.bind_eq_some_iff.mp hrun
    refine ih ?_ hrest
    rw [← State.set_set s t x z]
    apply h.next
    rw [State.set_locals_self, State.set_shared]
    exact hz

-- One thread takes some steps and the others none.
theorem Reachable.runs {k : ℕ} {t : T} {y : L × S} (h : Reachable step s₀ s)
    (hrun : Interleaving.solo step k (s.locals t, s.shared) = some y) :
    Reachable step s₀ (s.set t y) :=
  Reachable.solo ((State.set_self s t).symm ▸ h) hrun

end Interleaving

namespace Semaphore

variable {T L : Type*}

def wait (n : ℕ) : Option ℕ :=
  if 0 < n then some (n - 1) else none

def post (n : ℕ) : ℕ :=
  n + 1

-- The semaphore is free, or the one thread at a holding point has it.
def Guards (holds : L → Prop) (value : ℕ) (locals : T → L) : Prop :=
  (value = 1 ∧ ∀ t, ¬ holds (locals t)) ∨
    (value = 0 ∧ ∃ t, holds (locals t) ∧ ∀ u, holds (locals u) → u = t)

variable {holds : L → Prop} {value n : ℕ} {locals : T → L} {t : T} {l : L}

theorem Guards.exclusive (h : Guards holds value locals) {t u : T} (ht : holds (locals t))
    (hu : holds (locals u)) : t = u := by
  rcases h with ⟨-, hnone⟩ | ⟨-, w, -, honly⟩
  · exact absurd ht (hnone t)
  · rw [honly t ht, honly u hu]

variable [DecidableEq T]

theorem Guards.wait (h : Guards holds value locals) (hwait : wait value = some n)
    (hl : holds l) : Guards holds n (Function.update locals t l) := by
  unfold Semaphore.wait at hwait
  rcases h with ⟨rfl, hnone⟩ | ⟨rfl, -⟩
  · obtain rfl : 0 = n := by simpa using hwait
    refine Or.inr ⟨rfl, t, by simpa using hl, ?_⟩
    intro u hu
    by_contra hne
    rw [Function.update_of_ne hne] at hu
    exact hnone u hu
  · simp at hwait

theorem Guards.post (h : Guards holds value locals) (ht : holds (locals t)) (hl : ¬ holds l) :
    Guards holds (post value) (Function.update locals t l) := by
  rcases h with ⟨-, hnone⟩ | ⟨rfl, w, -, honly⟩
  · exact absurd ht (hnone t)
  · refine Or.inl ⟨rfl, ?_⟩
    intro u hu
    by_cases hne : u = t
    · subst hne
      rw [Function.update_self] at hu
      exact hl hu
    · rw [Function.update_of_ne hne] at hu
      exact hne ((honly u hu).trans (honly t ht).symm)

theorem Guards.keep (h : Guards holds value locals) (hl : holds l ↔ holds (locals t)) :
    Guards holds value (Function.update locals t l) := by
  have hsame : ∀ u, holds (Function.update locals t l u) ↔ holds (locals u) := by
    intro u
    by_cases hne : u = t
    · subst hne
      rw [Function.update_self]
      exact hl
    · rw [Function.update_of_ne hne]
  simpa only [Guards, hsame] using h

-- What a step from `l` to `l'` does to a semaphore worth `value`, then `n`.
def Uses (holds : L → Prop) (value n : ℕ) (l l' : L) : Prop :=
  (Semaphore.wait value = some n ∧ holds l') ∨ (n = Semaphore.post value ∧ holds l ∧ ¬ holds l') ∨
    (n = value ∧ (holds l' ↔ holds l))

theorem Guards.use (h : Guards holds value locals) (huse : Uses holds value n (locals t) l) :
    Guards holds n (Function.update locals t l) := by
  rcases huse with ⟨hwait, hl⟩ | ⟨rfl, ht, hl⟩ | ⟨rfl, hl⟩
  · exact h.wait hwait hl
  · exact h.post ht hl
  · exact h.keep hl

end Semaphore
