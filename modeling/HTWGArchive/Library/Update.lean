import Mathlib.Algebra.BigOperators.Group.List.Basic
import Mathlib.Algebra.GroupWithZero.Nat
import Mathlib.Data.List.Perm.Basic

namespace Update

variable {A B C : Type*} [DecidableEq A] {l : List A} {a : A}

-- Replacing one member's value changes one entry of what is listed over all members.
theorem map_perm (hl : l.Nodup) (ha : a ∈ l) (f : A → C) (c : C) (g : A → C → B) :
    ∃ rest, (l.map (fun x => g x (f x))).Perm (g a (f a) :: rest) ∧
      (l.map (fun x => g x (Function.update f a c x))).Perm (g a c :: rest) := by
  have hperm := List.perm_cons_erase ha
  refine ⟨(l.erase a).map (fun x => g x (f x)), ?_, ?_⟩
  · exact (hperm.map (fun x => g x (f x))).trans (List.Perm.of_eq (List.map_cons))
  · refine (hperm.map (fun x => g x (Function.update f a c x))).trans (List.Perm.of_eq ?_)
    rw [List.map_cons, Function.update_self]
    congr 1
    apply List.map_congr_left
    intro x hx
    have hne : x ≠ a := fun heq => hl.not_mem_erase (heq ▸ hx)
    rw [Function.update_of_ne hne]

theorem flatMap_perm (hl : l.Nodup) (ha : a ∈ l) (f : A → C) (c : C) (g : A → C → List B) :
    ∃ rest, (l.flatMap (fun x => g x (f x))).Perm (g a (f a) ++ rest) ∧
      (l.flatMap (fun x => g x (Function.update f a c x))).Perm (g a c ++ rest) := by
  obtain ⟨rest, hbefore, hafter⟩ := map_perm hl ha f c g
  refine ⟨rest.flatten, ?_, ?_⟩
  · have hflat := hbefore.flatten
    rwa [List.flatten_cons, ← List.flatMap_def] at hflat
  · have hflat := hafter.flatten
    rwa [List.flatten_cons, ← List.flatMap_def] at hflat

theorem sum_map (hl : l.Nodup) (ha : a ∈ l) (f : A → C) (c : C) (g : C → ℕ) :
    (l.map (fun x => g (Function.update f a c x))).sum + g (f a) =
      (l.map (fun x => g (f x))).sum + g c := by
  obtain ⟨rest, hbefore, hafter⟩ := map_perm hl ha f c (fun _ => g)
  rw [hbefore.sum_eq, hafter.sum_eq, List.sum_cons, List.sum_cons]
  omega

end Update
