import Mathlib.Algebra.GroupWithZero.Nat
import Mathlib.Order.Bounds.Basic
import Mathlib.Order.Monotone.Basic

namespace UpwardIteration

variable {f : ℕ → ℕ} {w s r n : ℕ}

def FixpointsFrom (f : ℕ → ℕ) (s : ℕ) : Set ℕ :=
  {t | s ≤ t ∧ f t = t}

inductive Outcome where
  | running
  | overflow
  | converged (r : ℕ)
  deriving DecidableEq

-- At most `n` rounds that replace `t` by `f t` until it stands still or `f t` reaches `w`.
def run (f : ℕ → ℕ) (w : ℕ) : ℕ → ℕ → Outcome
  | 0, _ => .running
  | n + 1, t => if w ≤ f t then .overflow else if t = f t then .converged t else run f w n (f t)

theorem fixpointsFrom_image (hmono : Monotone f) (hs : s ≤ f s) :
    FixpointsFrom f (f s) = FixpointsFrom f s := by
  ext t
  constructor
  · rintro ⟨hle, hfix⟩
    exact ⟨hs.trans hle, hfix⟩
  · rintro ⟨hle, hfix⟩
    refine ⟨?_, hfix⟩
    rw [← hfix]
    exact hmono hle

theorem run_stops (hmono : Monotone f) (hs : s ≤ f s) (hw : s < w) (hn : w ≤ s + n) :
    run f w n s ≠ .running := by
  induction n generalizing s with
  | zero => omega
  | succ n ih =>
    rw [run]
    split
    · exact fun h => by cases h
    · split
      · exact fun h => by cases h
      · exact ih (hmono hs) (by omega) (by omega)

theorem run_converged (hmono : Monotone f) (hs : s ≤ f s) (hw : s < w) (hn : w ≤ s + n) :
    run f w n s = .converged r ↔ r < w ∧ IsLeast (FixpointsFrom f s) r := by
  induction n generalizing s with
  | zero => omega
  | succ n ih =>
    rw [run]
    split
    · rename_i hover
      constructor
      · exact fun h => by cases h
      · rintro ⟨hr, ⟨hle, hfix⟩, _⟩
        have hbelow := hmono hle
        omega
    · split
      · rename_i hfix
        have hleast : IsLeast (FixpointsFrom f s) s := ⟨⟨le_refl s, hfix.symm⟩, fun t ht => ht.1⟩
        constructor
        · intro h
          obtain rfl := Outcome.converged.inj h
          exact ⟨hw, hleast⟩
        · rintro ⟨_, hr⟩
          rw [hleast.unique hr]
      · rw [ih (hmono hs) (by omega) (by omega), fixpointsFrom_image hmono hs]

end UpwardIteration
