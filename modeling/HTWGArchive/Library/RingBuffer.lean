import Mathlib.Algebra.GroupWithZero.Nat
import Mathlib.Data.Nat.ModEq

namespace RingBuffer

variable {A : Type*} {empty : A} {max use fill : ℕ} {cells : ℕ → A} {queue : List A}

-- The cells from `use` on hold the queue and all others are empty.
structure Holds (empty : A) (max : ℕ) (cells : ℕ → A) (use fill : ℕ) (queue : List A) : Prop where
  use_lt : use < max
  fill_eq : fill = (use + queue.length) % max
  length_le : queue.length ≤ max
  cell : ∀ i, (h : i < queue.length) → cells ((use + i) % max) = queue[i]
  rest : ∀ i, queue.length ≤ i → i < max → cells ((use + i) % max) = empty

theorem offset_inj {i j : ℕ} (hi : i < max) (hj : j < max)
    (h : (use + i) % max = (use + j) % max) : i = j := by
  have hmod : i ≡ j [MOD max] := Nat.ModEq.add_left_cancel' use h
  exact hmod.eq_of_lt_of_lt hi hj

theorem Holds.nil (hmax : 0 < max) (hcells : ∀ i, i < max → cells i = empty) :
    Holds empty max cells 0 0 [] := by
  refine ⟨hmax, ?_, Nat.zero_le max, ?_, ?_⟩
  · rw [List.length_nil, Nat.zero_add, Nat.zero_mod]
  · intro i hi
    exact absurd hi (Nat.not_lt_zero i)
  · intro i _ hi
    exact hcells _ (Nat.mod_lt _ hmax)

theorem Holds.fill_empty (h : Holds empty max cells use fill queue) (hlt : queue.length < max) :
    cells fill = empty := by
  rw [h.fill_eq]
  exact h.rest queue.length (Nat.le_refl _) hlt

theorem Holds.push (h : Holds empty max cells use fill queue) (hlt : queue.length < max) (a : A) :
    Holds empty max (Function.update cells fill a) use ((fill + 1) % max) (queue ++ [a]) := by
  have hfill := h.fill_eq
  have hother : ∀ i, i < max → i ≠ queue.length → (use + i) % max ≠ fill := by
    intro i hi hne heq
    rw [hfill] at heq
    exact hne (offset_inj hi hlt heq)
  refine ⟨h.use_lt, ?_, ?_, ?_, ?_⟩
  · rw [hfill, Nat.mod_add_mod, List.length_append, List.length_singleton, Nat.add_assoc]
  · rw [List.length_append, List.length_singleton]
    exact hlt
  · intro i hi
    rw [List.length_append, List.length_singleton] at hi
    rcases Nat.lt_succ_iff_lt_or_eq.mp hi with hi | rfl
    · rw [Function.update_of_ne (hother i (hi.trans hlt) hi.ne), List.getElem_append_left hi]
      exact h.cell i hi
    · rw [← hfill, Function.update_self, List.getElem_concat_length]
      rfl
  · intro i hle hi
    rw [List.length_append, List.length_singleton] at hle
    rw [Function.update_of_ne (hother i hi (by omega))]
    exact h.rest i (by omega) hi

theorem Holds.pop {a : A} (h : Holds empty max cells use fill (a :: queue)) :
    cells use = a ∧
      Holds empty max (Function.update cells use empty) ((use + 1) % max) fill queue := by
  have hlength := h.length_le
  rw [List.length_cons] at hlength
  have hmax : 0 < max := by omega
  have huse : (use + 0) % max = use := Nat.mod_eq_of_lt h.use_lt
  have hnext : ∀ i, ((use + 1) % max + i) % max = (use + (i + 1)) % max := by
    intro i
    rw [Nat.mod_add_mod, Nat.add_assoc, Nat.add_comm 1 i]
  have hother : ∀ i, i + 1 < max → (use + (i + 1)) % max ≠ use := by
    intro i hi heq
    rw [← huse] at heq
    have hzero := offset_inj hi hmax (by rwa [huse] at heq ⊢)
    omega
  refine ⟨?_, Nat.mod_lt _ hmax, ?_, by omega, ?_, ?_⟩
  · have hcell := h.cell 0 (Nat.succ_pos _)
    rwa [huse] at hcell
  · rw [h.fill_eq, hnext, List.length_cons]
  · intro i hi
    rw [hnext, Function.update_of_ne (hother i (by omega))]
    exact h.cell (i + 1) (Nat.succ_lt_succ hi)
  · intro i hle hi
    rw [hnext]
    rcases Nat.lt_or_ge (i + 1) max with hlt | hge
    · rw [Function.update_of_ne (hother i hlt)]
      exact h.rest (i + 1) (Nat.succ_le_succ hle) hlt
    · -- The last offset is the cell that has just been emptied.
      have hfull : use + (i + 1) = use + max := by omega
      rw [hfull, Nat.add_mod_right, Nat.mod_eq_of_lt h.use_lt, Function.update_self]

end RingBuffer
