import Mathlib.Algebra.GroupWithZero.Nat
import Mathlib.Data.Finset.Card

namespace DemandPaging

variable {P : Type*} [DecidableEq P]

-- A cache of `k` pages that loads a page only when it is asked for; the number counts the misses.
inductive Serves (k : ℕ) : Finset P → List P → ℕ → Prop where
  | nil (A : Finset P) : Serves k A [] 0
  | hit {A A' : Finset P} {x : P} {rest : List P} {n : ℕ} : x ∈ A → A' ⊆ A →
      Serves k A' rest n → Serves k A (x :: rest) n
  | miss {A A' : Finset P} {x : P} {rest : List P} {n : ℕ} : x ∉ A → A' ⊆ insert x A →
      x ∈ A' → A'.card ≤ k → Serves k A' rest n → Serves k A (x :: rest) (n + 1)

-- What is evicted is needed last.
inductive Furthest (k : ℕ) : Finset P → List P → ℕ → Prop where
  | nil (M : Finset P) : Furthest k M [] 0
  | hit {M : Finset P} {x : P} {rest : List P} {n : ℕ} : x ∈ M → Furthest k M rest n →
      Furthest k M (x :: rest) n
  | room {M : Finset P} {x : P} {rest : List P} {n : ℕ} : x ∉ M → M.card < k →
      Furthest k (insert x M) rest n → Furthest k M (x :: rest) (n + 1)
  | evict {M : Finset P} {x v : P} {rest : List P} {n : ℕ} : x ∉ M → M.card = k → v ∈ M →
      (∀ p ∈ M, rest.idxOf p ≤ rest.idxOf v) → Furthest k (insert x (M.erase v)) rest n →
        Furthest k M (x :: rest) (n + 1)

-- How many pages of a cache are asked for within the next `d + 1` requests.
def soon (rest : List P) (d : ℕ) (A : Finset P) : ℕ :=
  (A.filter (fun p => rest.idxOf p ≤ d)).card

variable {A A' M : Finset P} {x v : P} {rest : List P} {d : ℕ}

def has (A : Finset P) (x : P) : ℕ :=
  if x ∈ A then 1 else 0

theorem soon_mono (h : A ⊆ A') : soon rest d A ≤ soon rest d A' :=
  Finset.card_le_card (Finset.filter_subset_filter _ h)

theorem soon_le_card (rest : List P) (d : ℕ) (A : Finset P) : soon rest d A ≤ A.card :=
  Finset.card_filter_le _ _

theorem soon_insert (rest : List P) (d : ℕ) (h : x ∉ A) :
    soon rest d (insert x A) = soon rest d A + if rest.idxOf x ≤ d then 1 else 0 := by
  rw [soon, soon, Finset.filter_insert]
  split
  · rw [Finset.card_insert_of_notMem (fun hmem => h (Finset.mem_filter.mp hmem).1)]
  · rfl

theorem soon_erase (rest : List P) (d : ℕ) (h : v ∈ A) :
    soon rest d (A.erase v) + (if rest.idxOf v ≤ d then 1 else 0) = soon rest d A := by
  have hinsert := soon_insert rest d (Finset.notMem_erase v A)
  rw [Finset.insert_erase h] at hinsert
  exact hinsert.symm

theorem idxOf_cons_of_ne {p : P} (h : p ≠ x) : (x :: rest).idxOf p = rest.idxOf p + 1 :=
  List.idxOf_cons_ne rest h.symm

theorem soon_cons_zero (x : P) (rest : List P) (A : Finset P) :
    soon (x :: rest) 0 A = has A x := by
  have hfilter : A.filter (fun p => (x :: rest).idxOf p ≤ 0) = A.filter (fun p => p = x) := by
    apply Finset.filter_congr
    intro p _
    by_cases hp : p = x
    · subst hp
      simp
    · rw [idxOf_cons_of_ne hp]
      simp [hp]
  rw [soon, hfilter, Finset.filter_eq', has]
  split <;> rfl

theorem soon_cons_succ (x : P) (rest : List P) (d : ℕ) (A : Finset P) :
    soon (x :: rest) (d + 1) A = soon rest d (A.erase x) + has A x := by
  have herase : ∀ B : Finset P, x ∉ B → soon (x :: rest) (d + 1) B = soon rest d B := by
    intro B hB
    rw [soon, soon]
    congr 1
    apply Finset.filter_congr
    intro p hp
    have hne : p ≠ x := fun heq => hB (heq ▸ hp)
    rw [idxOf_cons_of_ne hne]
    omega
  unfold has
  split
  · rename_i hmem
    have hsplit := soon_erase (x :: rest) (d + 1) hmem
    rw [herase _ (Finset.notMem_erase x A), List.idxOf_cons_self, if_pos (Nat.zero_le _)] at hsplit
    exact hsplit.symm
  · rename_i hmem
    rw [herase A hmem, Finset.erase_eq_of_notMem hmem]
    rfl

-- Wherever the rival has more pages that are needed soon, it has paid for them.
structure Ahead (l : List P) (M A : Finset P) (paid paid' : ℕ) : Prop where
  le : paid ≤ paid'
  soon : ∀ d, soon l d A + paid ≤ soon l d M + paid'

variable {paid paid' k : ℕ}

theorem Ahead.next (h : Ahead (x :: rest) M A paid paid') (d : ℕ) :
    has A x + paid ≤ has M x + paid' ∧
      DemandPaging.soon rest d (A.erase x) + has A x + paid ≤
        DemandPaging.soon rest d (M.erase x) + has M x + paid' := by
  have hzero := h.soon 0
  have hsucc := h.soon (d + 1)
  rw [soon_cons_zero, soon_cons_zero] at hzero
  rw [soon_cons_succ, soon_cons_succ] at hsucc
  exact ⟨hzero, hsucc⟩

def missed (A : Finset P) (x : P) : ℕ :=
  if x ∈ A then 0 else 1

theorem has_add_missed (A : Finset P) (x : P) : has A x + missed A x = 1 := by
  unfold has missed
  split <;> rfl

theorem soon_le_of_subset (rest : List P) (d : ℕ) (h : A' ⊆ insert x A) :
    soon rest d A' ≤ soon rest d (A.erase x) + if rest.idxOf x ≤ d then 1 else 0 := by
  have hsub : A' ⊆ insert x (A.erase x) := by
    have herase := Finset.erase_subset_erase x h
    rw [Finset.erase_insert_eq_erase] at herase
    exact Finset.subset_insert_iff.mpr herase
  exact (soon_mono hsub).trans_eq (soon_insert rest d (Finset.notMem_erase x A))

-- The step of the rival: whatever it keeps, it pays for what it did not have.
structure Step (k : ℕ) (x : P) (A A' : Finset P) : Prop where
  subset : A' ⊆ insert x A
  card_lt : (A'.erase x).card < k

theorem Step.soon_le (h : Step k x A A') (rest : List P) (d : ℕ) :
    soon rest d A' + 1 ≤ k + if rest.idxOf x ≤ d then 1 else 0 := by
  have hle : soon rest d A' ≤
      soon rest d (A'.erase x) + if rest.idxOf x ≤ d then 1 else 0 := by
    apply soon_le_of_subset
    exact Finset.subset_insert x A'
  have hcard := soon_le_card rest d (A'.erase x)
  have hlt := h.card_lt
  omega

theorem Ahead.hit (h : Ahead (x :: rest) M A paid paid') (hM : x ∈ M) (hstep : Step k x A A') :
    Ahead rest M A' paid (paid' + missed A x) := by
  refine ⟨h.le.trans (Nat.le_add_right _ _), fun d => ?_⟩
  have hnext := (h.next d).2
  have hA := soon_le_of_subset rest d hstep.subset
  have hsplit := soon_erase rest d hM
  have hmissed := has_add_missed A x
  have hhas : has M x = 1 := if_pos hM
  omega

theorem Ahead.room (h : Ahead (x :: rest) M A paid paid') (hM : x ∉ M) (hstep : Step k x A A') :
    Ahead rest (insert x M) A' (paid + 1) (paid' + missed A x) := by
  have hmissed := has_add_missed A x
  have hhas : has M x = 0 := if_neg hM
  have hzero := (h.next 0).1
  refine ⟨by omega, fun d => ?_⟩
  have hnext := (h.next d).2
  have hA := soon_le_of_subset rest d hstep.subset
  have hinsert := soon_insert rest d hM
  rw [Finset.erase_eq_of_notMem hM] at hnext
  omega

theorem Ahead.evict (h : Ahead (x :: rest) M A paid paid') (hM : x ∉ M) (hcard : M.card = k)
    (hv : v ∈ M) (hlast : ∀ p ∈ M, rest.idxOf p ≤ rest.idxOf v) (hstep : Step k x A A') :
    Ahead rest (insert x (M.erase v)) A' (paid + 1) (paid' + missed A x) := by
  have hroom := h.room hM hstep
  refine ⟨hroom.le, fun d => ?_⟩
  have hold := hroom.soon d
  have hinsert := soon_insert rest d hM
  have hinsert' := soon_insert rest d
    (fun hmem : x ∈ M.erase v => hM (Finset.mem_of_mem_erase hmem))
  have hsplit := soon_erase rest d hv
  by_cases hd : rest.idxOf v ≤ d
  · -- Then every page of the cache is needed as soon as that, so nobody has more of them.
    have hfull : DemandPaging.soon rest d M = k := by
      rw [← hcard, DemandPaging.soon, Finset.filter_true_of_mem]
      intro p hp
      exact (hlast p hp).trans hd
    have hA := hstep.soon_le rest d
    have hle := hroom.le
    rw [if_pos hd] at hsplit
    omega
  · rw [if_neg hd] at hsplit
    omega

theorem Serves.step {n : ℕ} {l : List P} (h : Serves k A l n) (hcard : A.card ≤ k) :
    (l = [] ∧ n = 0) ∨ ∃ x rest A' m, l = x :: rest ∧ Step k x A A' ∧ A'.card ≤ k ∧
      Serves k A' rest m ∧ n = m + missed A x := by
  cases h with
  | nil => exact Or.inl ⟨rfl, rfl⟩
  | @hit _ A' x rest n hx hsub hrest =>
    refine Or.inr ⟨x, rest, A', n, rfl, ⟨hsub.trans (Finset.subset_insert x A), ?_⟩,
      (Finset.card_le_card hsub).trans hcard, hrest, by rw [missed, if_pos hx]; rfl⟩
    have hlt := Finset.card_erase_lt_of_mem hx
    have hle := Finset.card_le_card (Finset.erase_subset_erase x hsub)
    omega
  | @miss _ A' x rest n hx hsub hmem hle hrest =>
    refine Or.inr ⟨x, rest, A', n, rfl, ⟨hsub, ?_⟩, hle, hrest, by rw [missed, if_neg hx]⟩
    exact (Finset.card_erase_lt_of_mem hmem).trans_le hle

theorem Serves.mono {k' n : ℕ} {l : List P} (h : Serves k A l n) (hk : k ≤ k') :
    Serves k' A l n := by
  induction h with
  | nil A => exact .nil A
  | hit hx hsub _ ih => exact .hit hx hsub ih
  | miss hx hsub hmem hcard _ ih => exact .miss hx hsub hmem (hcard.trans hk) ih

theorem Ahead.furthest {l : List P} {n m : ℕ} (h : Ahead l M A paid paid')
    (hM : Furthest k M l n) (hA : Serves k A l m) (hcard : A.card ≤ k) :
    paid + n ≤ paid' + m := by
  induction hM generalizing A paid paid' m with
  | nil M =>
    have hle := h.le
    omega
  | hit hx _ ih =>
    obtain ⟨hnil, -⟩ | ⟨x, rest, A', j, hl, hstep, hcard', hrest, rfl⟩ := hA.step hcard
    · cases hnil
    · cases hl
      have hle := ih (h.hit hx hstep) hrest hcard'
      omega
  | room hx hlt _ ih =>
    obtain ⟨hnil, -⟩ | ⟨x, rest, A', j, hl, hstep, hcard', hrest, rfl⟩ := hA.step hcard
    · cases hnil
    · cases hl
      have hle := ih (h.room hx hstep) hrest hcard'
      omega
  | evict hx hfull hv hlast _ ih =>
    obtain ⟨hnil, -⟩ | ⟨x, rest, A', j, hl, hstep, hcard', hrest, rfl⟩ := hA.step hcard
    · cases hnil
    · cases hl
      have hle := ih (h.evict hx hfull hv hlast hstep) hrest hcard'
      omega

-- No way of serving the requests on demand misses less often, with a smaller cache or the same.
theorem Furthest.le {k' n m : ℕ} {l : List P} (h : Furthest k' ∅ l n) (h' : Serves k ∅ l m)
    (hk : k ≤ k') : n ≤ m := by
  have hstart : Ahead l ∅ ∅ 0 0 := ⟨Nat.le_refl 0, fun _ => Nat.le_refl _⟩
  have hle := hstart.furthest h (h'.mono hk) (Nat.zero_le _)
  omega

end DemandPaging
