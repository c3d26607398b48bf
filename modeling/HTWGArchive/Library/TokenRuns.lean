import Mathlib.Data.List.Basic

namespace TokenRuns

variable {α : Type*}

-- The maximal runs of elements that are no separators; `run` is the one that has begun.
def runsFrom (sep : α → Bool) : List α → List α → List (List α)
  | run, [] => if run.isEmpty then [] else [run]
  | run, x :: xs =>
    if sep x then
      if run.isEmpty then runsFrom sep [] xs else run :: runsFrom sep [] xs
    else runsFrom sep (run ++ [x]) xs

def runs (sep : α → Bool) (xs : List α) : List (List α) :=
  runsFrom sep [] xs

-- The second list is the first with `x` behind its last run, or as a run of its own.
inductive Ends (x : α) : List (List α) → List (List α) → Prop where
  | nil : Ends x [] []
  | alone : Ends x [] [[x]]
  | behind (run : List α) : Ends x [run] [run ++ [x]]
  | cons (run : List α) {l l' : List (List α)} (h : Ends x l l') : Ends x (run :: l) (run :: l')

namespace Ends

variable {x : α} {l l' : List (List α)}

theorem refl (x : α) (l : List (List α)) : Ends x l l := by
  induction l with
  | nil => exact Ends.nil
  | cons run l ih => exact Ends.cons run ih

theorem length_le (h : Ends x l l') : l'.length ≤ l.length + 1 := by
  induction h with
  | nil => exact Nat.zero_le _
  | alone => exact Nat.le_refl 1
  | behind run => exact Nat.le_succ 1
  | cons run _ ih => exact Nat.succ_le_succ ih

theorem cons_inv {run : List α} (h : Ends x (run :: l) l') (hne : l ≠ []) :
    ∃ l'', l' = run :: l'' ∧ Ends x l l'' := by
  cases h with
  | behind _ => exact absurd rfl hne
  | cons _ h => exact ⟨_, rfl, h⟩

theorem uncons {run : List α} (h : Ends x (run :: l) l') :
    ∃ run' l'', l' = run' :: l'' ∧ (run' = run ∨ run' = run ++ [x]) ∧ Ends x l l'' := by
  cases h with
  | behind _ => exact ⟨run ++ [x], [], rfl, Or.inr rfl, Ends.nil⟩
  | cons _ h => exact ⟨run, _, rfl, Or.inl rfl, h⟩

end Ends

theorem runsFrom_congr {sep sep' : α → Bool} {xs : List α} (h : ∀ y ∈ xs, sep y = sep' y)
    (run : List α) : runsFrom sep run xs = runsFrom sep' run xs := by
  induction xs generalizing run with
  | nil => rfl
  | cons y xs ih =>
    have ih := ih (fun z hz => h z (List.mem_cons_of_mem y hz))
    rw [runsFrom, runsFrom, h y List.mem_cons_self, ih, ih]

theorem ends_runsFrom {sep sep' : α → Bool} {x : α} {xs : List α} (h : ∀ y ∈ xs, sep y = sep' y)
    (hx : sep x = true) (hx' : sep' x = false) (run : List α) :
    Ends x (runsFrom sep run (xs ++ [x])) (runsFrom sep' run (xs ++ [x])) := by
  induction xs generalizing run with
  | nil =>
    have hkept : runsFrom sep' run [x] = [run ++ [x]] := by
      simp [runsFrom, hx']
    rw [List.nil_append, hkept]
    cases run with
    | nil =>
      have hcut : runsFrom sep [] [x] = [] := by simp [runsFrom, hx]
      rw [hcut]
      exact Ends.alone
    | cons y run =>
      have hcut : runsFrom sep (y :: run) [x] = [y :: run] := by simp [runsFrom, hx]
      rw [hcut]
      exact Ends.behind (y :: run)
  | cons y xs ih =>
    have ih := ih (fun z hz => h z (List.mem_cons_of_mem y hz))
    rw [List.cons_append, runsFrom, runsFrom, h y List.mem_cons_self]
    split
    · split
      · exact ih []
      · exact Ends.cons run (ih [])
    · exact ih (run ++ [y])

end TokenRuns
