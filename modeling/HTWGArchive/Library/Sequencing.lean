import Mathlib.Algebra.Order.Monoid.Defs
import Mathlib.Data.List.Sort

namespace Sequencing

variable {α : Type*} [AddCommMonoid α] [LinearOrder α] [IsOrderedAddMonoid α] {t : α} {s l : List α}

-- The sum of the times at which tasks of these lengths start, one after the other from `t` on.
def starts (t : α) : List α → α
  | [] => 0
  | a :: l => t + starts (t + a) l

-- A shorter task is better moved before a longer one.
theorem starts_swap {a b : α} (h : b ≤ a) (t : α) (l : List α) :
    starts t (b :: a :: l) ≤ starts t (a :: b :: l) := by
  have hlast : starts (t + b + a) l = starts (t + a + b) l := by rw [add_right_comm]
  change t + (t + b + starts (t + b + a) l) ≤ t + (t + a + starts (t + a + b) l)
  rw [hlast]
  exact add_le_add_right (add_le_add_left (add_le_add_right h t) _) t

theorem starts_orderedInsert (t a : α) (l : List α) :
    starts t (l.orderedInsert (· ≤ ·) a) ≤ starts t (a :: l) := by
  induction l generalizing t with
  | nil => exact le_refl _
  | cons b l ih =>
    by_cases hab : a ≤ b
    · rw [List.orderedInsert_cons_of_le _ _ hab]
    · rw [List.orderedInsert_of_not_le _ _ hab]
      calc starts t (b :: l.orderedInsert (· ≤ ·) a)
          ≤ starts t (b :: a :: l) := add_le_add_right (ih (t + b)) t
        _ ≤ starts t (a :: b :: l) := starts_swap (le_of_not_ge hab) t l

theorem starts_insertionSort (t : α) (l : List α) :
    starts t (l.insertionSort (· ≤ ·)) ≤ starts t l := by
  induction l generalizing t with
  | nil => exact le_refl _
  | cons a l ih =>
    calc starts t ((a :: l).insertionSort (· ≤ ·))
        ≤ starts t (a :: l.insertionSort (· ≤ ·)) := starts_orderedInsert t a _
      _ ≤ starts t (a :: l) := add_le_add_right (ih (t + a)) t

theorem starts_le_of_sorted (hs : s.Pairwise (· ≤ ·)) (hperm : l.Perm s) (t : α) :
    starts t s ≤ starts t l := by
  have hsort : l.insertionSort (· ≤ ·) = s := by
    refine ((List.perm_insertionSort _ l).trans hperm).eq_of_pairwise ?_
      (List.pairwise_insertionSort _ l) hs
    exact fun a b _ _ hab hba => le_antisymm hab hba
  rw [← hsort]
  exact starts_insertionSort t l

end Sequencing
