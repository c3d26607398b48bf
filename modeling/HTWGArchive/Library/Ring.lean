import Mathlib.Data.List.Cycle

namespace Ring

variable {A : Type*} {l : List A} {a b : A}

theorem head?_eq_getElem_iff (hl : l.Nodup) {i : ℕ} (hi : i < l.length) :
    l.head? = some l[i] ↔ i = 0 := by
  rw [List.head?_eq_getElem?, List.getElem?_eq_getElem (Nat.zero_lt_of_lt hi), Option.some_inj,
    hl.getElem_inj_iff]
  exact eq_comm

theorem getLast?_eq_getElem_iff (hl : l.Nodup) {i : ℕ} (hi : i < l.length) :
    l.getLast? = some l[i] ↔ i + 1 = l.length := by
  have hlast : l.length - 1 < l.length := by omega
  rw [List.getLast?_eq_getElem?, List.getElem?_eq_getElem hlast, Option.some_inj,
    hl.getElem_inj_iff]
  omega

variable [DecidableEq A]

-- A newcomer at the end stands between the last one and the first one.
theorem prev_concat (hnodup : (l ++ [a]).Nodup) (hb : b ∈ l) :
    (l ++ [a]).prev b (List.mem_append_left _ hb) =
      if l.head? = some b then a else l.prev b hb := by
  obtain ⟨i, hi, rfl⟩ := List.getElem_of_mem hb
  have hl : l.Nodup := hnodup.sublist (List.sublist_append_left l [a])
  have hi' : i < (l ++ [a]).length := by
    rw [List.length_append, List.length_singleton]
    omega
  have hprev := List.prev_getElem (l ++ [a]) hnodup i hi'
  have hold := List.prev_getElem l hl i hi
  simp only [List.getElem_append_left hi, List.length_append, List.length_singleton,
    Nat.add_sub_cancel] at hprev
  rw [hprev]
  simp only [head?_eq_getElem_iff hl hi]
  cases i with
  | zero => simp
  | succ i =>
    have hmod : (i + 1 + l.length) % (l.length + 1) = i := by
      have hsplit : i + 1 + l.length = i + (l.length + 1) := by omega
      rw [hsplit, Nat.add_mod_right, Nat.mod_eq_of_lt (by omega)]
    have hmod' : (i + 1 + (l.length - 1)) % l.length = i := by
      have hsplit : i + 1 + (l.length - 1) = i + l.length := by omega
      rw [hsplit, Nat.add_mod_right, Nat.mod_eq_of_lt (by omega)]
    simp only [hmod'] at hold
    rw [if_neg (Nat.succ_ne_zero i), hold]
    simp only [hmod]
    exact List.getElem_append_left _

theorem next_concat (hnodup : (l ++ [a]).Nodup) (hb : b ∈ l) :
    (l ++ [a]).next b (List.mem_append_left _ hb) =
      if l.getLast? = some b then a else l.next b hb := by
  obtain ⟨i, hi, rfl⟩ := List.getElem_of_mem hb
  have hl : l.Nodup := hnodup.sublist (List.sublist_append_left l [a])
  have hi' : i < (l ++ [a]).length := by
    rw [List.length_append, List.length_singleton]
    omega
  have hnext := List.next_getElem (l ++ [a]) hnodup i hi'
  have hold := List.next_getElem l hl i hi
  have hmod : (i + 1) % (l.length + 1) = i + 1 := Nat.mod_eq_of_lt (by omega)
  simp only [List.getElem_append_left hi, List.length_append, List.length_singleton, hmod] at hnext
  rw [hnext]
  simp only [getLast?_eq_getElem_iff hl hi]
  rcases eq_or_ne (i + 1) l.length with hlast | hne
  · rw [if_pos hlast]
    simp [hlast]
  · have hmod' : (i + 1) % l.length = i + 1 := Nat.mod_eq_of_lt (by omega)
    simp only [hmod'] at hold
    rw [if_neg hne, hold]
    exact List.getElem_append_left _

theorem prev_concat_self (hnodup : (l ++ [a]).Nodup) :
    (l ++ [a]).prev a (List.mem_append_right _ List.mem_cons_self) = l.getLastD a := by
  have hi : l.length < (l ++ [a]).length := by simp
  have hprev := List.prev_getElem (l ++ [a]) hnodup l.length hi
  simp only [List.getElem_concat_length, List.length_append, List.length_singleton,
    Nat.add_sub_cancel] at hprev
  rw [hprev]
  cases l using List.reverseRecOn with
  | nil => rfl
  | append_singleton l x =>
    have hmod : ((l ++ [x]).length + (l ++ [x]).length) % ((l ++ [x]).length + 1) = l.length := by
      have hsplit : (l ++ [x]).length + (l ++ [x]).length = l.length + ((l ++ [x]).length + 1) := by
        simp only [List.length_append, List.length_singleton]
        omega
      rw [hsplit, Nat.add_mod_right, Nat.mod_eq_of_lt]
      simp only [List.length_append, List.length_singleton]
      omega
    simp only [hmod]
    simp

theorem next_concat_self (hnodup : (l ++ [a]).Nodup) :
    (l ++ [a]).next a (List.mem_append_right _ List.mem_cons_self) = l.headD a := by
  have hi : l.length < (l ++ [a]).length := by simp
  have hnext := List.next_getElem (l ++ [a]) hnodup l.length hi
  simp only [List.getElem_concat_length, List.length_append, List.length_singleton,
    Nat.mod_self] at hnext
  rw [hnext]
  cases l with
  | nil => rfl
  | cons x l => rfl

theorem prev_ne_self (hl : l.Nodup) (hlen : 2 ≤ l.length) (hb : b ∈ l) : l.prev b hb ≠ b := by
  obtain ⟨i, hi, rfl⟩ := List.getElem_of_mem hb
  rw [List.prev_getElem l hl i hi]
  intro heq
  have hindex := hl.getElem_inj_iff.mp heq
  rcases Nat.eq_zero_or_pos i with rfl | hpos
  · rw [Nat.zero_add, Nat.mod_eq_of_lt (by omega)] at hindex
    omega
  · have hsplit : i + (l.length - 1) = i - 1 + l.length := by omega
    rw [hsplit, Nat.add_mod_right, Nat.mod_eq_of_lt (by omega)] at hindex
    omega

theorem prev_ne_next (hl : l.Nodup) (hlen : 3 ≤ l.length) (hb : b ∈ l) : l.prev b hb ≠ l.next b hb := by
  obtain ⟨i, hi, rfl⟩ := List.getElem_of_mem hb
  rw [List.prev_getElem l hl i hi, List.next_getElem l hl i hi]
  intro heq
  have hindex := hl.getElem_inj_iff.mp heq
  have hnext : (i + 1) % l.length = if i + 1 = l.length then 0 else i + 1 := by
    split
    · rename_i hlast
      rw [hlast, Nat.mod_self]
    · exact Nat.mod_eq_of_lt (by omega)
  rcases Nat.eq_zero_or_pos i with rfl | hpos
  · rw [Nat.zero_add, Nat.mod_eq_of_lt (by omega), hnext] at hindex
    split at hindex <;> omega
  · have hsplit : i + (l.length - 1) = i - 1 + l.length := by omega
    rw [hsplit, Nat.add_mod_right, Nat.mod_eq_of_lt (by omega), hnext] at hindex
    split at hindex <;> omega

-- Following the links from any member leads to every member.
theorem exists_iterate_next (hl : l.Nodup) {f : Option A → Option A}
    (hf : ∀ c, ∀ hc : c ∈ l, f (some c) = some (l.next c hc)) (ha : a ∈ l) (hb : b ∈ l) :
    ∃ k, f^[k] (some a) = some b := by
  obtain ⟨i, hi, rfl⟩ := List.getElem_of_mem ha
  obtain ⟨j, hj, rfl⟩ := List.getElem_of_mem hb
  have hiterate : ∀ k, f^[k] (some l[i]) = l[(i + k) % l.length]? := by
    intro k
    induction k with
    | zero =>
      rw [Function.iterate_zero_apply, Nat.add_zero, Nat.mod_eq_of_lt hi, List.getElem?_eq_getElem hi]
    | succ k ih =>
      have hlt : (i + k) % l.length < l.length := Nat.mod_lt _ (Nat.zero_lt_of_lt hi)
      have hlt' : (i + (k + 1)) % l.length < l.length := Nat.mod_lt _ (Nat.zero_lt_of_lt hi)
      rw [Function.iterate_succ_apply', ih, List.getElem?_eq_getElem hlt, hf _ (List.getElem_mem hlt),
        List.next_getElem l hl, List.getElem?_eq_getElem hlt']
      simp only [Nat.mod_add_mod, Nat.add_assoc]
  refine ⟨j + l.length - i, ?_⟩
  have hindex : i + (j + l.length - i) = j + l.length := by omega
  rw [hiterate, hindex, Nat.add_mod_right, Nat.mod_eq_of_lt hj, List.getElem?_eq_getElem hj]

end Ring
