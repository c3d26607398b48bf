import Mathlib.Algebra.GroupWithZero.Nat
import Mathlib.Data.Nat.GCD.Basic
import Mathlib.Data.List.Basic
import Mathlib.Order.Basic

namespace WrappedLcm

-- One step of a running least common multiple whose product is taken modulo `w`.
def step (w m t : ℕ) : ℕ :=
  m * t % w / Nat.gcd m t

-- No product of the run reaches `w`.
def Fits (w : ℕ) : ℕ → List ℕ → Prop
  | _, [] => True
  | m, t :: ts => m * t < w ∧ Fits w (Nat.lcm m t) ts

instance decidableFits (w : ℕ) : ∀ (m : ℕ) (ts : List ℕ), Decidable (Fits w m ts)
  | _, [] => isTrue trivial
  | m, t :: ts =>
    have : Decidable (Fits w (Nat.lcm m t) ts) := decidableFits w (Nat.lcm m t) ts
    inferInstanceAs (Decidable (m * t < w ∧ Fits w (Nat.lcm m t) ts))

variable {w m t : ℕ} {ts : List ℕ}

theorem step_of_lt (h : m * t < w) : step w m t = Nat.lcm m t := by
  rw [step, Nat.mod_eq_of_lt h, Nat.lcm_eq_mul_div]

theorem step_lt (hw : 0 < w) (h : w ≤ m * t) : step w m t < Nat.lcm m t := by
  rw [step, Nat.lcm_eq_mul_div]
  apply Nat.div_lt_div_of_lt_of_dvd
  · exact (Nat.gcd_dvd_left m t).trans (Nat.dvd_mul_right m t)
  · exact Nat.lt_of_lt_of_le (Nat.mod_lt _ hw) h

theorem step_eq_lcm_iff (hw : 0 < w) : step w m t = Nat.lcm m t ↔ m * t < w := by
  refine ⟨?_, step_of_lt⟩
  intro heq
  by_contra hge
  exact absurd heq (Nat.ne_of_lt (step_lt hw (Nat.not_lt.mp hge)))

theorem foldl_step_of_fits (h : Fits w m ts) : ts.foldl (step w) m = ts.foldl Nat.lcm m := by
  induction ts generalizing m with
  | nil => rfl
  | cons t ts ih =>
    rw [List.foldl_cons, List.foldl_cons, step_of_lt h.1]
    exact ih h.2

theorem fits_append {us : List ℕ} :
    Fits w m (ts ++ us) ↔ Fits w m ts ∧ Fits w (ts.foldl Nat.lcm m) us := by
  induction ts generalizing m with
  | nil => exact (and_iff_right trivial).symm
  | cons t ts ih =>
    rw [List.cons_append, Fits, Fits, ih, and_assoc]
    rfl

-- The last step is exact if and only if its product fits, when the steps before it are.
theorem foldl_step_concat (hw : 0 < w) (h : Fits w m ts) :
    (ts ++ [t]).foldl (step w) m = (ts ++ [t]).foldl Nat.lcm m ↔ Fits w m (ts ++ [t]) := by
  rw [List.foldl_append, List.foldl_append, foldl_step_of_fits h, fits_append]
  simp only [List.foldl_cons, List.foldl_nil, Fits, and_true, step_eq_lcm_iff hw]
  exact (and_iff_right h).symm

end WrappedLcm
