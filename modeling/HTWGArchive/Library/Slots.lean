import Mathlib.Data.List.Basic

namespace Slots

variable {A : Type*} {l rest : List A} {i : ℕ} {x y : A}

-- An array with signed indices; `none` is an index out of bounds.
def slot (l : List A) (i : Int) : Option A :=
  if 0 ≤ i then l[i.toNat]? else none

def write (l : List A) (i : Int) (x : A) : Option (List A) :=
  if 0 ≤ i ∧ i < l.length then some (l.set i.toNat x) else none

theorem slot_natCast (l : List A) (i : ℕ) : slot l i = l[i]? := by
  simp [slot]

theorem write_natCast (h : i < l.length) (x : A) : write l i x = some (l.set i x) := by
  simp [write, h]

theorem slot_middle (l : List A) (x : A) (rest : List A) :
    slot (l ++ x :: rest) l.length = some x := by
  simp [slot_natCast]

theorem write_middle (l : List A) (x y : A) (rest : List A) :
    write (l ++ x :: rest) l.length y = some (l ++ y :: rest) := by
  rw [write_natCast (by simp)]
  simp

theorem slot_eq_some {j : Int} (h : slot l j = some x) : ∃ i : ℕ, j = i ∧ l[i]? = some x := by
  unfold slot at h
  split at h
  · exact ⟨j.toNat, by omega, h⟩
  · cases h

theorem write_length {l' : List A} {j : Int} (h : write l j x = some l') :
    l'.length = l.length := by
  unfold write at h
  split_ifs at h
  obtain rfl := Option.some.inj h
  exact List.length_set

theorem slot_write {l' : List A} {i j : Int} (h : write l i x = some l') :
    slot l' j = if j = i then some x else slot l j := by
  unfold write at h
  split_ifs at h with hi
  obtain rfl := Option.some.inj h
  unfold slot
  by_cases hj : j = i
  · subst hj
    rw [if_pos hi.1, if_pos rfl, List.getElem?_set_self (by omega)]
  · rw [if_neg hj]
    split_ifs with h0
    · rw [List.getElem?_set_ne (by omega)]
    · rfl

theorem write_of_slot {i : Int} (h : slot l i = some x) (y : A) : ∃ l', write l i y = some l' := by
  obtain ⟨n,rfl,hn⟩ := slot_eq_some h
  exact ⟨_,write_natCast (List.getElem?_eq_some_iff.mp hn).1 y⟩

end Slots
