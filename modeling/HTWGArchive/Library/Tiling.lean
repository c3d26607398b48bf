import Mathlib.Algebra.BigOperators.Group.Finset.Basic
import Mathlib.Algebra.BigOperators.Group.List.Basic
import Mathlib.Algebra.Order.BigOperators.Group.List
import Mathlib.Algebra.Order.Ring.Int
import Mathlib.Algebra.Order.Ring.Nat
import Mathlib.Data.Int.Interval

namespace Tiling

-- The address and the size of a block.
abbrev Block : Type := ℤ × ℤ

def covers (p : ℤ) (b : Block) : ℕ :=
  if b.1 ≤ p ∧ p < b.1 + b.2 then 1 else 0

def cover (blocks : List Block) (p : ℤ) : ℕ :=
  (blocks.map (covers p)).sum

structure Tiles (start stop : ℤ) (blocks : List Block) : Prop where
  pos : ∀ b ∈ blocks, 0 < b.2
  once : ∀ p, cover blocks p = if start ≤ p ∧ p < stop then 1 else 0

def Apart (a b : Block) : Prop :=
  a.1 + a.2 ≤ b.1 ∨ b.1 + b.2 ≤ a.1

variable {start stop : ℤ} {blocks blocks' : List Block} {a b : Block} {p : ℤ}

@[simp] theorem cover_cons (b : Block) (blocks : List Block) (p : ℤ) :
    cover (b :: blocks) p = covers p b + cover blocks p := by
  rw [cover, List.map_cons, List.sum_cons]
  rfl

theorem covers_le_cover (h : b ∈ blocks) (p : ℤ) : covers p b ≤ cover blocks p :=
  List.single_le_sum (fun _ _ => Nat.zero_le _) _ (List.mem_map_of_mem h)

theorem covers_self (h : 0 < b.2) : covers b.1 b = 1 :=
  if_pos ⟨le_refl _, by omega⟩

theorem apart_of_cover_le (ha : 0 < a.2) (hb : b ∈ blocks) (hpos : 0 < b.2)
    (h : ∀ p, cover (a :: blocks) p ≤ 1) : Apart a b := by
  by_contra hover
  have hlt : b.1 < a.1 + a.2 ∧ a.1 < b.1 + b.2 := by
    simpa only [Apart, not_or, not_le] using hover
  -- The later of the two addresses lies in both blocks.
  have honce := h (max a.1 b.1)
  have hle := covers_le_cover hb (max a.1 b.1)
  have hfirst : covers (max a.1 b.1) a = 1 := if_pos ⟨le_max_left _ _, by omega⟩
  have hsecond : covers (max a.1 b.1) b = 1 := if_pos ⟨le_max_right _ _, by omega⟩
  rw [cover_cons, hfirst] at honce
  rw [hsecond] at hle
  omega

theorem pairwise_of_cover_le (hpos : ∀ b ∈ blocks, 0 < b.2) (h : ∀ p, cover blocks p ≤ 1) :
    blocks.Pairwise Apart := by
  induction blocks with
  | nil => exact List.Pairwise.nil
  | cons a blocks ih =>
    have hrest : ∀ b ∈ blocks, 0 < b.2 := fun b hb => hpos b (List.mem_cons_of_mem _ hb)
    refine List.Pairwise.cons ?_ (ih hrest ?_)
    · intro b hb
      exact apart_of_cover_le (hpos a List.mem_cons_self) hb (hrest b hb) h
    · intro p
      have hle := h p
      rw [cover_cons] at hle
      omega

namespace Tiles

theorem cover_le (h : Tiles start stop blocks) (p : ℤ) : cover blocks p ≤ 1 := by
  rw [h.once p]
  split <;> omega

theorem pairwise (h : Tiles start stop blocks) : blocks.Pairwise Apart :=
  pairwise_of_cover_le h.pos h.cover_le

theorem single (h : start < stop) : Tiles start stop [(start, stop - start)] := by
  refine ⟨?_, ?_⟩
  · intro b hb
    obtain rfl := List.mem_singleton.mp hb
    exact sub_pos.mpr h
  · intro p
    rw [cover_cons, covers, add_sub_cancel]
    rfl

theorem perm (h : Tiles start stop blocks) (hperm : blocks.Perm blocks') :
    Tiles start stop blocks' := by
  refine ⟨fun b hb => h.pos b (hperm.mem_iff.mpr hb), fun p => ?_⟩
  rw [← h.once p, cover, cover, (hperm.map _).sum_eq]

theorem split {x s k : ℤ} (h : Tiles start stop ((x, s) :: blocks)) (hk : 0 < k) (hlt : k < s) :
    Tiles start stop ((x + k, s - k) :: (x, k) :: blocks) := by
  refine ⟨?_, ?_⟩
  · intro b hb
    rcases List.mem_cons.mp hb with rfl | hb
    · exact sub_pos.mpr hlt
    · rcases List.mem_cons.mp hb with rfl | hb
      · exact hk
      · exact h.pos b (List.mem_cons_of_mem _ hb)
  · intro p
    rw [← h.once p, cover_cons, cover_cons, cover_cons, ← Nat.add_assoc]
    congr 1
    simp only [covers]
    split_ifs <;> omega

theorem join {x s t : ℤ} (h : Tiles start stop ((x, s) :: (x + s, t) :: blocks)) :
    Tiles start stop ((x, s + t) :: blocks) := by
  have hs : 0 < s := h.pos _ List.mem_cons_self
  have ht : 0 < t := h.pos _ (List.mem_cons_of_mem _ List.mem_cons_self)
  refine ⟨?_, ?_⟩
  · intro b hb
    rcases List.mem_cons.mp hb with rfl | hb
    · exact add_pos hs ht
    · exact h.pos b (List.mem_cons_of_mem _ (List.mem_cons_of_mem _ hb))
  · intro p
    rw [← h.once p, cover_cons, cover_cons, cover_cons, ← Nat.add_assoc]
    congr 1
    simp only [covers]
    split_ifs <;> omega

theorem inside (h : Tiles start stop blocks) (hb : b ∈ blocks) (hp : b.1 ≤ p ∧ p < b.1 + b.2) :
    start ≤ p ∧ p < stop := by
  have hle := covers_le_cover hb p
  rw [covers, if_pos hp, h.once p] at hle
  by_contra hout
  rw [if_neg hout] at hle
  exact absurd hle (by decide)

theorem within (h : Tiles start stop blocks) (hb : b ∈ blocks) :
    start ≤ b.1 ∧ b.1 + b.2 ≤ stop := by
  have hpos := h.pos b hb
  have hfirst := h.inside hb (p := b.1) ⟨le_refl _, by omega⟩
  have hlast := h.inside hb (p := b.1 + b.2 - 1) ⟨by omega, by omega⟩
  exact ⟨hfirst.1, by omega⟩

theorem exists_mem (h : Tiles start stop blocks) (hp : start ≤ p ∧ p < stop) :
    ∃ b ∈ blocks, b.1 ≤ p ∧ p < b.1 + b.2 := by
  by_contra hnone
  push Not at hnone
  have hzero : cover blocks p = 0 := by
    rw [cover, List.sum_eq_zero_iff]
    intro n hn
    obtain ⟨b, hb, rfl⟩ := List.mem_map.mp hn
    exact if_neg (fun hin => absurd (hnone b hb hin.1) (not_le.mpr hin.2))
  rw [h.once p, if_pos hp] at hzero
  exact absurd hzero (by decide)

theorem sum (h : Tiles start stop blocks) (hle : start ≤ stop) :
    (blocks.map Prod.snd).sum = stop - start := by
  have hcount : ∑ p ∈ Finset.Ico start stop, (cover blocks p : ℤ) = stop - start := by
    have hone : ∀ p ∈ Finset.Ico start stop, (cover blocks p : ℤ) = 1 := by
      intro p hp
      rw [h.once p, if_pos (Finset.mem_Ico.mp hp)]
      rfl
    rw [Finset.sum_congr rfl hone, Finset.sum_const, Int.card_Ico, nsmul_one]
    omega
  have hblock : ∀ b ∈ blocks, ∑ p ∈ Finset.Ico start stop, (covers p b : ℤ) = b.2 := by
    intro b hb
    have hwithin := h.within hb
    have hpos := h.pos b hb
    have hfilter : (Finset.Ico start stop).filter (fun p => b.1 ≤ p ∧ p < b.1 + b.2) =
        Finset.Ico b.1 (b.1 + b.2) := by
      ext p
      simp only [Finset.mem_filter, Finset.mem_Ico]
      omega
    simp only [covers, Nat.cast_ite, Nat.cast_one, Nat.cast_zero]
    rw [← Finset.sum_filter, hfilter, Finset.sum_const, Int.card_Ico, nsmul_one]
    omega
  rw [← hcount]
  clear hcount h
  induction blocks with
  | nil => simp [cover]
  | cons b blocks ih =>
    rw [List.map_cons, List.sum_cons, ih (fun b hb => hblock b (List.mem_cons_of_mem _ hb)),
      ← hblock b List.mem_cons_self, ← Finset.sum_add_distrib]
    apply Finset.sum_congr rfl
    intro p _
    rw [cover_cons, Nat.cast_add]

end Tiles

end Tiling
