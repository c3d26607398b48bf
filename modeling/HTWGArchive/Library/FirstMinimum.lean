import Mathlib.Data.List.Basic
import Mathlib.Data.List.Induction
import Mathlib.Order.Lattice

namespace FirstMinimum

variable {α κ : Type*} [LinearOrder κ]

def IsFirstMin (ks : List κ) (i : ℕ) : Prop :=
  ∃ k, ks[i]? = some k ∧ ∀ j k', ks[j]? = some k' → k ≤ k' ∧ (j < i → k < k')

-- One step of a scan that replaces the best element so far by a strictly better one.
def better (key : α → κ) (best x : α) : α :=
  if key x < key best then x else best

namespace IsFirstMin

variable {ks : List κ} {i j : ℕ}

theorem lt_length (h : IsFirstMin ks i) : i < ks.length := by
  obtain ⟨k, hk, _⟩ := h
  exact (List.getElem?_eq_some_iff.mp hk).1

theorem unique (hi : IsFirstMin ks i) (hj : IsFirstMin ks j) : i = j := by
  obtain ⟨k, hk, hmin⟩ := hi
  obtain ⟨k', hk', hmin'⟩ := hj
  rcases Nat.lt_trichotomy i j with hlt | heq | hgt
  · exact absurd ((hmin' i k hk).2 hlt) (not_lt.mpr (hmin j k' hk').1)
  · exact heq
  · exact absurd ((hmin j k' hk').2 hgt) (not_lt.mpr (hmin' i k hk).1)

theorem singleton (k : κ) : IsFirstMin [k] 0 := by
  refine ⟨k, rfl, ?_⟩
  intro j k' hk'
  cases j with
  | zero =>
    obtain rfl := Option.some_inj.mp hk'
    exact ⟨le_refl k, fun h => absurd h (Nat.lt_irrefl 0)⟩
  | succ j => cases hk'

theorem snoc_lt {k x : κ} (h : IsFirstMin ks i) (hk : ks[i]? = some k) (hx : x < k) :
    IsFirstMin (ks ++ [x]) ks.length := by
  obtain ⟨m, hm, hmin⟩ := h
  obtain rfl := Option.some_inj.mp (hm.symm.trans hk)
  refine ⟨x, List.getElem?_concat_length, ?_⟩
  intro j k' hk'
  rcases Nat.lt_or_ge j ks.length with hlt | hge
  · rw [List.getElem?_append_left hlt] at hk'
    have hless := hx.trans_le (hmin j k' hk').1
    exact ⟨hless.le, fun _ => hless⟩
  · rw [List.getElem?_append_right hge, List.getElem?_singleton] at hk'
    split at hk'
    · obtain rfl := Option.some_inj.mp hk'
      exact ⟨le_refl x, fun hlt => absurd hlt (Nat.not_lt.mpr hge)⟩
    · cases hk'

theorem snoc_le {k x : κ} (h : IsFirstMin ks i) (hk : ks[i]? = some k) (hx : k ≤ x) :
    IsFirstMin (ks ++ [x]) i := by
  have hi := h.lt_length
  obtain ⟨m, hm, hmin⟩ := h
  obtain rfl := Option.some_inj.mp (hm.symm.trans hk)
  refine ⟨m, (List.getElem?_append_left hi).trans hm, ?_⟩
  intro j k' hk'
  rcases Nat.lt_or_ge j ks.length with hlt | hge
  · rw [List.getElem?_append_left hlt] at hk'
    exact hmin j k' hk'
  · rw [List.getElem?_append_right hge, List.getElem?_singleton] at hk'
    split at hk'
    · obtain rfl := Option.some_inj.mp hk'
      refine ⟨hx, fun hlt => ?_⟩
      omega
    · cases hk'

theorem of_map {κ' : Type*} [LinearOrder κ'] {f : κ → κ'}
    (hf : ∀ a ∈ ks, ∀ b ∈ ks, a < b ↔ f a < f b) (h : IsFirstMin (ks.map f) i) :
    IsFirstMin ks i := by
  obtain ⟨m, hm, hmin⟩ := h
  rw [List.getElem?_map, Option.map_eq_some_iff] at hm
  obtain ⟨k, hk, rfl⟩ := hm
  refine ⟨k, hk, ?_⟩
  intro j k' hk'
  have hleast := hmin j (f k') (by rw [List.getElem?_map, hk']; rfl)
  have hmem := List.mem_of_getElem? hk
  have hmem' := List.mem_of_getElem? hk'
  constructor
  · rw [← not_lt, hf k' hmem' k hmem]
    exact not_lt.mpr hleast.1
  · intro hlt
    exact (hf k hmem k' hmem').mpr (hleast.2 hlt)

end IsFirstMin

theorem foldl_better (key : α → κ) (t : α) (ts : List α) :
    ∃ i, IsFirstMin ((t :: ts).map key) i ∧ (t :: ts)[i]? = some (ts.foldl (better key) t) := by
  induction ts using List.reverseRecOn with
  | nil => exact ⟨0, IsFirstMin.singleton (key t), rfl⟩
  | append_singleton ts x ih =>
    obtain ⟨i, hmin, hbest⟩ := ih
    have hkey : ((t :: ts).map key)[i]? = some (key (ts.foldl (better key) t)) := by
      rw [List.getElem?_map, hbest]
      rfl
    rw [List.foldl_append, List.foldl_cons, List.foldl_nil, ← List.cons_append, List.map_append,
      better]
    split
    · rename_i hlt
      have hsnoc := hmin.snoc_lt hkey hlt
      rw [List.length_map] at hsnoc
      exact ⟨_, hsnoc, List.getElem?_concat_length⟩
    · rename_i hge
      refine ⟨i, hmin.snoc_le hkey (not_lt.mp hge), ?_⟩
      have hi := hmin.lt_length
      rw [List.length_map] at hi
      exact (List.getElem?_append_left hi).trans hbest

end FirstMinimum
