import Mathlib.Data.List.Sort
import Mathlib.Order.Lattice

namespace LeastFirst

variable {A O : Type*} [LinearOrder O] {key : A → O} {q rest : List A} {a : A}

def pop (key : A → O) (q : List A) : Option (A × List A) :=
  match q.insertionSort (fun a b => key a ≤ key b) with
  | [] => none
  | a :: rest => some (a, rest)

theorem pop_eq_none (h : pop key q = none) : q = [] := by
  have hperm := List.perm_insertionSort (fun a b => key a ≤ key b) q
  unfold pop at h
  split at h
  · rename_i hnil
    rw [hnil] at hperm
    exact hperm.symm.eq_nil
  · cases h

theorem pairwise_insertionSort (key : A → O) (q : List A) :
    (q.insertionSort (fun a b => key a ≤ key b)).Pairwise (fun a b => key a ≤ key b) := by
  have htotal : Std.Total (fun a b : A => key a ≤ key b) := ⟨fun a b => le_total (key a) (key b)⟩
  have htrans : IsTrans A (fun a b => key a ≤ key b) := ⟨fun _ _ _ hab hbc => le_trans hab hbc⟩
  exact List.pairwise_insertionSort _ q

theorem pop_eq_some (h : pop key q = some (a, rest)) :
    q.Perm (a :: rest) ∧ ∀ b ∈ q, key a ≤ key b := by
  have hperm := List.perm_insertionSort (fun a b => key a ≤ key b) q
  have hsorted := pairwise_insertionSort key q
  unfold pop at h
  split at h
  · cases h
  · rename_i b bs hcons
    obtain ⟨rfl, rfl⟩ := Prod.mk.inj (Option.some.inj h)
    rw [hcons] at hperm hsorted
    refine ⟨hperm.symm, ?_⟩
    intro b hb
    rcases List.mem_cons.mp (hperm.mem_iff.mpr hb) with rfl | hmem
    · exact le_refl _
    · exact (List.pairwise_cons.mp hsorted).1 b hmem

theorem pop_isSome (h : q ≠ []) : ∃ a rest, pop key q = some (a, rest) := by
  cases hpop : pop key q with
  | none => exact absurd (pop_eq_none hpop) h
  | some x => exact ⟨x.1, x.2, rfl⟩

end LeastFirst
