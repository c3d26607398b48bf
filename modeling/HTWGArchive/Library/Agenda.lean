import Mathlib.Algebra.Order.Ring.Int
import Mathlib.Data.List.Basic
import Mathlib.Data.List.Nodup
import Mathlib.Logic.Function.Basic

namespace Agenda

variable {J K : Type*} {events : ℤ → List (J × K)} {now t : ℤ} {due : J → Option ℤ} {j : J}

-- Who is due when: nobody twice, and nobody before `now`.
structure Lists (events : ℤ → List (J × K)) (now : ℤ) (due : J → Option ℤ) : Prop where
  nodup : ∀ t, now ≤ t → ((events t).map Prod.fst).Nodup
  listed : ∀ t, now ≤ t → ∀ j, j ∈ (events t).map Prod.fst ↔ due j = some t
  notPast : ∀ j t, due j = some t → now ≤ t

def served (now : ℤ) (due : J → Option ℤ) (j : J) : Option ℤ :=
  if due j = some now then none else due j

theorem served_eq_some : served now due j = some t ↔ due j = some t ∧ t ≠ now := by
  rw [served]
  by_cases h : due j = some now
  · rw [if_pos h, h]
    simp only [reduceCtorEq, Option.some.injEq, ne_eq, false_iff, not_and, not_not]
    exact fun hnow => hnow.symm
  · rw [if_neg h]
    exact ⟨fun hdue => ⟨hdue, fun hnow => h (hnow ▸ hdue)⟩, fun hdue => hdue.1⟩

theorem Lists.served (h : Lists events now due) :
    Lists events (now + 1) (served now due) := by
  refine ⟨fun t ht => h.nodup t (by omega), fun t ht j => ?_, fun j t hj => ?_⟩
  · rw [h.listed t (by omega) j, served_eq_some]
    exact ⟨fun hdue => ⟨hdue, by omega⟩, fun hdue => hdue.1⟩
  · obtain ⟨hdue, hne⟩ := served_eq_some.mp hj
    have hle := h.notPast j t hdue
    omega

theorem Lists.post [DecidableEq J] (h : Lists events now due) (hj : due j = none)
    (ht : now ≤ t) (k : K) :
    Lists (Function.update events t (events t ++ [(j, k)])) now
      (Function.update due j (some t)) := by
  have hfresh : ∀ t', now ≤ t' → j ∉ (events t').map Prod.fst := by
    intro t' ht' hmem
    rw [h.listed t' ht' j, hj] at hmem
    exact absurd hmem (Option.some_ne_none t').symm
  refine ⟨fun t' ht' => ?_, fun t' ht' i => ?_, fun i t' hi => ?_⟩
  · rcases eq_or_ne t' t with rfl | hne
    · rw [Function.update_self, List.map_append]
      exact (h.nodup t' ht').append (List.nodup_singleton j)
        (List.disjoint_singleton.mpr (hfresh t' ht'))
    · rw [Function.update_of_ne hne]
      exact h.nodup t' ht'
  · rcases eq_or_ne i j with rfl | hij
    · rw [Function.update_self, Option.some.injEq]
      rcases eq_or_ne t' t with rfl | hne
      · simp
      · rw [Function.update_of_ne hne]
        exact iff_of_false (hfresh t' ht') (fun heq => hne heq.symm)
    · rw [Function.update_of_ne hij, ← h.listed t' ht' i]
      rcases eq_or_ne t' t with rfl | hne
      · simp [hij]
      · rw [Function.update_of_ne hne]
  · rcases eq_or_ne i j with rfl | hij
    · rw [Function.update_self] at hi
      exact Option.some.inj hi ▸ ht
    · rw [Function.update_of_ne hij] at hi
      exact h.notPast i t' hi

end Agenda
