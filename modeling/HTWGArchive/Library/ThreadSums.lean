import HTWGArchive.Library.Interleaving
import Mathlib.Algebra.BigOperators.Group.Finset.Basic
import Mathlib.Algebra.BigOperators.Group.Finset.Piecewise
import Mathlib.Algebra.Order.BigOperators.Group.Finset
import Mathlib.Algebra.GroupWithZero.Nat
import Mathlib.Data.Fintype.BigOperators

namespace ThreadSums

variable {T L : Type*} [Fintype T] {locals : T → L}

theorem le_sum (f : L → ℕ) (locals : T → L) (t : T) : f (locals t) ≤ ∑ u, f (locals u) :=
  Finset.single_le_sum (f := fun u => f (locals u)) (fun _ _ => Nat.zero_le _) (Finset.mem_univ t)

-- What only the holder of a lock contributes to is bounded by its one term.
theorem sum_le_of_guards {holds : L → Prop} {value bound : ℕ} (f : L → ℕ)
    (h : Semaphore.Guards holds value locals) (hzero : ∀ l, ¬holds l → f l = 0)
    (hle : ∀ u, f (locals u) ≤ bound) : ∑ u, f (locals u) ≤ bound := by
  rcases h with ⟨-, hnone⟩ | ⟨-, t, -, honly⟩
  · rw [Finset.sum_eq_zero (fun u _ => hzero _ (hnone u))]
    exact Nat.zero_le bound
  · rw [Finset.sum_eq_single_of_mem t (Finset.mem_univ t)]
    · exact hle t
    · exact fun u _ hne => hzero _ (fun hu => hne (honly u hu))

-- One thread moves on and the sum changes by its own term.
theorem sum_update [DecidableEq T] (f : L → ℕ) (locals : T → L) (t : T) (l : L) :
    (∑ u, f (Function.update locals t l u)) + f (locals t) = (∑ u, f (locals u)) + f l := by
  have hrest : ∑ u ∈ Finset.univ.erase t, f (Function.update locals t l u) =
      ∑ u ∈ Finset.univ.erase t, f (locals u) := by
    apply Finset.sum_congr rfl
    intro u hu
    rw [Function.update_of_ne (Finset.ne_of_mem_erase hu)]
  rw [← Finset.add_sum_erase _ _ (Finset.mem_univ t), ← Finset.add_sum_erase _ _ (Finset.mem_univ t),
    hrest, Function.update_self]
  omega

end ThreadSums
