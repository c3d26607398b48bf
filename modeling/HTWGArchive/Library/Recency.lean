import Mathlib.Algebra.GroupWithZero.Nat
import Mathlib.Data.List.Dedup

namespace Recency

variable {P : Type*} [DecidableEq P]

-- `dedup` keeps the last occurrence, so its end is what was asked for most recently.
theorem dedup_append_single (l : List P) (n : P) :
    (l ++ [n]).dedup = l.dedup.erase n ++ [n] := by
  induction l with
  | nil => rfl
  | cons a l ih =>
    rw [List.cons_append]
    by_cases hal : a ∈ l
    · rw [List.dedup_cons_of_mem hal, List.dedup_cons_of_mem (List.mem_append_left _ hal)]
      exact ih
    · rw [List.dedup_cons_of_notMem hal]
      rcases eq_or_ne a n with rfl | hne
      · have hlast : a ∈ l ++ [a] := List.mem_append_right _ List.mem_cons_self
        have habsent : a ∉ l.dedup := fun hmem => hal (List.mem_dedup.mp hmem)
        rw [List.dedup_cons_of_mem hlast, ih, List.erase_of_not_mem habsent, List.erase_cons_head]
      · have habsent : a ∉ l ++ [n] := by simp [hal, hne]
        rw [List.dedup_cons_of_notMem habsent, ih, List.erase_cons_tail (by simpa using hne),
          List.cons_append]

-- The last `k` different requests, in the order of their last occurrence.
structure Recent (k : ℕ) (seen memory : List P) : Prop where
  suffix : memory <:+ seen.dedup
  length : memory.length = min k seen.dedup.length

variable {k : ℕ} {seen memory : List P} {n v : P}

theorem Recent.nil (k : ℕ) : Recent k ([] : List P) [] :=
  ⟨List.suffix_refl _, (Nat.min_zero k).symm⟩

theorem length_dedup_append (seen : List P) (n : P) :
    (seen ++ [n]).dedup.length = seen.dedup.length + if n ∈ seen then 0 else 1 := by
  rw [dedup_append_single, List.length_append, List.length_singleton]
  split
  · rename_i hmem
    have hlength := List.length_erase_of_mem (List.mem_dedup.mpr hmem)
    have hpos := List.length_pos_of_mem (List.mem_dedup.mpr hmem)
    omega
  · rename_i hmem
    rw [List.erase_of_not_mem (fun h => hmem (List.mem_dedup.mp h))]

theorem Recent.subset (h : Recent k seen memory) : memory ⊆ seen :=
  fun _ hp => List.mem_dedup.mp (h.suffix.subset hp)

theorem Recent.hit (h : Recent k seen memory) (hn : n ∈ memory) :
    Recent k (seen ++ [n]) (memory.erase n ++ [n]) := by
  have hseen := h.subset hn
  obtain ⟨older, hsplit⟩ := h.suffix
  have hnodup := List.nodup_dedup seen
  rw [← hsplit] at hnodup
  have habsent : n ∉ older := fun hold => (List.disjoint_of_nodup_append hnodup) hold hn
  refine ⟨⟨older, ?_⟩, ?_⟩
  · rw [dedup_append_single, ← hsplit, List.erase_append_right memory habsent, List.append_assoc]
  · have hlength := List.length_erase_of_mem hn
    have hpos := List.length_pos_of_mem hn
    have hkept := h.length
    have hmore := length_dedup_append seen n
    rw [if_pos hseen] at hmore
    rw [List.length_append, List.length_singleton]
    omega

theorem Recent.room (h : Recent k seen memory) (hn : n ∉ memory) (hroom : memory.length < k) :
    Recent k (seen ++ [n]) (memory ++ [n]) := by
  have hlength := h.length
  have hall : memory = seen.dedup := h.suffix.eq_of_length (by omega)
  have hseen : n ∉ seen := by
    intro hmem
    rw [← List.mem_dedup, ← hall] at hmem
    exact hn hmem
  refine ⟨?_, ?_⟩
  · have hsame : (seen ++ [n]).dedup = memory ++ [n] := by
      rw [dedup_append_single, ← hall, List.erase_of_not_mem hn]
    exact hsame ▸ List.suffix_refl _
  · have hmore := length_dedup_append seen n
    rw [if_neg hseen] at hmore
    have hlast : (memory ++ [n]).length = memory.length + 1 := List.length_append
    omega

theorem Recent.evict (h : Recent k seen memory) (hn : n ∉ memory) (hfull : memory.length = k)
    (hv : memory.head? = some v) : Recent k (seen ++ [n]) (memory.erase v ++ [n]) := by
  obtain ⟨rest, rfl⟩ : ∃ rest, memory = v :: rest := List.head?_eq_some_iff.mp hv
  obtain ⟨older, hsplit⟩ := h.suffix
  have hlength := h.length
  rw [List.erase_cons_head]
  refine ⟨?_, ?_⟩
  · rw [dedup_append_single, ← hsplit, List.erase_append]
    split
    · exact ⟨older.erase n ++ [v], by simp⟩
    · rw [List.erase_of_not_mem hn]
      exact ⟨older ++ [v], by simp⟩
  · have hmore := length_dedup_append seen n
    rw [List.length_append, List.length_singleton]
    rw [List.length_cons] at hfull hlength
    omega

-- What a smaller cache holds, a larger one holds as well.
theorem Recent.suffix_of_le {k' : ℕ} {memory' : List P} (h : Recent k seen memory)
    (h' : Recent k' seen memory') (hk : k ≤ k') : memory <:+ memory' := by
  apply List.suffix_of_suffix_length_le h.suffix h'.suffix
  rw [h.length, h'.length]
  omega

end Recency
