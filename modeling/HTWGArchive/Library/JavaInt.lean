import Mathlib.Order.Interval.Finset.Fin
import Mathlib.Data.Int.Interval
import Mathlib.Tactic.NormNum

namespace JavaInt

-- 32-bit integers wrap around.
def int (x : Int) : Int :=
  x.bmod (2 ^ 32)

def minValue : Int := -2 ^ 31

def maxValue : Int := 2 ^ 31 - 1

-- The absolute value of the smallest integer is that integer itself.
def abs (x : Int) : Int :=
  if x < 0 then int (-x) else x

theorem int_range (x : Int) : minValue ≤ int x ∧ int x ≤ maxValue := by
  unfold int minValue maxValue
  have hlow := Int.le_bmod (x := x) (m := 2 ^ 32) (by norm_num)
  have hhigh := Int.bmod_lt (x := x) (m := 2 ^ 32) (by norm_num)
  norm_num at hlow hhigh ⊢
  omega

theorem int_eq {x : Int} (hlow : minValue ≤ x) (hhigh : x ≤ maxValue) : int x = x := by
  unfold minValue at hlow
  unfold maxValue at hhigh
  unfold int
  rw [Int.bmod_eq_of_le]
  · norm_num
    omega
  · norm_num
    omega

theorem abs_eq {x : Int} (hlow : minValue < x) : abs x = |x| := by
  unfold abs
  split
  · rename_i hneg
    rw [int_eq, abs_of_neg hneg]
    · unfold minValue
      omega
    · unfold minValue at hlow
      unfold maxValue
      omega
  · rename_i hpos
    rw [abs_of_nonneg (not_lt.mp hpos)]

abbrev JInt :=
  {x : Int // minValue ≤ x ∧ x ≤ maxValue}

instance : Finite JInt :=
  Finite.of_injective (fun x : JInt => (⟨x.1, Set.mem_Icc.mpr x.2⟩ : Set.Icc minValue maxValue))
    (fun _ _ h => Subtype.ext (congrArg (fun y => y.1) h))

end JavaInt
