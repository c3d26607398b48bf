import Mathlib.Algebra.BigOperators.Group.Finset.Basic
import Mathlib.Algebra.GroupWithZero.Nat
import Mathlib.Algebra.Order.Ring.Nat
import Mathlib.Data.Finset.Card
import Mathlib.Data.Nat.Init

namespace StripedParity

-- Where each stripe keeps its columns, and where it keeps their sum.
structure Layout (columns chunk : ℕ) where
  disk : ℕ → ℕ → ℕ
  parity : ℕ → ℕ
  columns_pos : 0 < columns
  chunk_pos : 0 < chunk
  disk_le : ∀ {s k}, k < columns → disk s k ≤ columns
  parity_le : ∀ s, parity s ≤ columns
  disk_inj : ∀ {s k l}, k < columns → l < columns → disk s k = disk s l → k = l
  disk_ne_parity : ∀ {s k}, k < columns → disk s k ≠ parity s

variable {columns chunk : ℕ} {l : Layout columns chunk} {b b' d off s : ℕ}

def stripe (columns chunk b : ℕ) : ℕ :=
  b / chunk / columns

-- Column and offset of a block when chunks are dealt out to the columns in turn.
def spread (columns chunk b : ℕ) : ℕ × ℕ :=
  (b / chunk % columns, stripe columns chunk b * chunk + b % chunk)

theorem spread_inj (h : spread columns chunk b = spread columns chunk b') (hchunk : 0 < chunk) :
    b = b' := by
  have hoff : ∀ b, (spread columns chunk b).2 / chunk = stripe columns chunk b := by
    intro b
    rw [spread, Nat.add_comm, Nat.add_mul_div_right _ _ hchunk,
      Nat.div_eq_of_lt (Nat.mod_lt _ hchunk), Nat.zero_add]
  have hrest : ∀ b, (spread columns chunk b).2 % chunk = b % chunk := by
    intro b
    rw [spread, Nat.add_comm, Nat.add_mul_mod_self_right, Nat.mod_mod]
  have hstripe := hoff b
  have hmod := hrest b
  rw [h, hoff b'] at hstripe
  rw [h, hrest b'] at hmod
  have hcol : b / chunk % columns = b' / chunk % columns := congrArg Prod.fst h
  have hdiv : b / chunk = b' / chunk := by
    rw [← Nat.div_add_mod (b / chunk) columns, ← Nat.div_add_mod (b' / chunk) columns, hcol]
    rw [stripe, stripe] at hstripe
    rw [hstripe]
  rw [← Nat.div_add_mod b chunk, ← Nat.div_add_mod b' chunk, hdiv, hmod]

theorem exists_spread {k : ℕ} (hk : k < columns) (hchunk : 0 < chunk) (off : ℕ) :
    ∃ b, spread columns chunk b = (k, off) := by
  have hcolumns : 0 < columns := Nat.zero_lt_of_lt hk
  have hmod : off % chunk < chunk := Nat.mod_lt _ hchunk
  have hdiv : ((off / chunk * columns + k) * chunk + off % chunk) / chunk =
      off / chunk * columns + k := by
    rw [Nat.add_comm, Nat.add_mul_div_right _ _ hchunk, Nat.div_eq_of_lt hmod, Nat.zero_add]
  have hstripe : (off / chunk * columns + k) / columns = off / chunk := by
    rw [Nat.add_comm, Nat.add_mul_div_right _ _ hcolumns, Nat.div_eq_of_lt hk, Nat.zero_add]
  have hcol : (off / chunk * columns + k) % columns = k := by
    rw [Nat.add_comm, Nat.add_mul_mod_self_right, Nat.mod_eq_of_lt hk]
  refine ⟨(off / chunk * columns + k) * chunk + off % chunk, ?_⟩
  rw [spread, stripe, hdiv, hstripe, hcol, Nat.add_comm _ (off % chunk),
    Nat.add_mul_mod_self_right, Nat.mod_mod, Nat.div_add_mod']

theorem existsUnique_spread {k : ℕ} (hk : k < columns) (hchunk : 0 < chunk) (off : ℕ) :
    ∃! b, spread columns chunk b = (k, off) := by
  obtain ⟨b, hb⟩ := exists_spread hk hchunk off
  exact ⟨b, hb, fun b' hb' => spread_inj (hb'.trans hb.symm) hchunk⟩

def Layout.block (l : Layout columns chunk) (b : ℕ) : ℕ × ℕ :=
  (l.disk (stripe columns chunk b) (b / chunk % columns),
    stripe columns chunk b * chunk + b % chunk)

theorem Layout.offset_div (l : Layout columns chunk) (b : ℕ) :
    (l.block b).2 / chunk = stripe columns chunk b := by
  have hpos := l.chunk_pos
  rw [block, Nat.add_comm, Nat.add_mul_div_right _ _ hpos, Nat.div_eq_of_lt (Nat.mod_lt _ hpos),
    Nat.zero_add]

theorem Layout.block_inj (l : Layout columns chunk) (h : l.block b = l.block b') : b = b' := by
  have hstripe := l.offset_div b
  rw [h, l.offset_div b'] at hstripe
  have hdisk := congrArg Prod.fst h
  simp only [block, hstripe] at hdisk
  have hcol := l.disk_inj (Nat.mod_lt _ l.columns_pos) (Nat.mod_lt _ l.columns_pos) hdisk
  have hoff : (l.block b).2 = (l.block b').2 := congrArg Prod.snd h
  exact spread_inj (Prod.ext hcol hoff) l.chunk_pos

theorem Layout.block_le (l : Layout columns chunk) (b : ℕ) : (l.block b).1 ≤ columns :=
  l.disk_le (Nat.mod_lt _ l.columns_pos)

theorem Layout.block_ne_parity (l : Layout columns chunk) (b : ℕ) :
    (l.block b).1 ≠ l.parity (stripe columns chunk b) :=
  l.disk_ne_parity (Nat.mod_lt _ l.columns_pos)

-- A stripe has one disk more than columns, so the columns take up all but the one of their sum.
theorem Layout.exists_column (l : Layout columns chunk) (hd : d ≤ columns)
    (hne : d ≠ l.parity s) : ∃ k < columns, l.disk s k = d := by
  have hsub : (Finset.range columns).image (l.disk s) ⊆
      (Finset.range (columns + 1)).erase (l.parity s) := by
    intro e he
    obtain ⟨k, hk, rfl⟩ := Finset.mem_image.mp he
    have hlt := Finset.mem_range.mp hk
    refine Finset.mem_erase.mpr ⟨l.disk_ne_parity hlt, ?_⟩
    exact Finset.mem_range.mpr (Nat.lt_succ_of_le (l.disk_le hlt))
  have hcard : ((Finset.range (columns + 1)).erase (l.parity s)).card ≤
      ((Finset.range columns).image (l.disk s)).card := by
    rw [Finset.card_image_of_injOn, Finset.card_range, Finset.card_erase_of_mem,
      Finset.card_range, Nat.add_sub_cancel]
    · exact Finset.mem_range.mpr (Nat.lt_succ_of_le (l.parity_le s))
    · intro k hk k' hk' heq
      exact l.disk_inj (Finset.mem_range.mp hk) (Finset.mem_range.mp hk') heq
  have hall := Finset.eq_of_subset_of_card_le hsub hcard
  have hmem : d ∈ (Finset.range columns).image (l.disk s) := by
    rw [hall]
    exact Finset.mem_erase.mpr ⟨hne, Finset.mem_range.mpr (Nat.lt_succ_of_le hd)⟩
  obtain ⟨k, hk, heq⟩ := Finset.mem_image.mp hmem
  exact ⟨k, Finset.mem_range.mp hk, heq⟩

theorem Layout.exists_block (l : Layout columns chunk) (hd : d ≤ columns)
    (hne : d ≠ l.parity (off / chunk)) : ∃ b, l.block b = (d, off) := by
  obtain ⟨k, hk, rfl⟩ := l.exists_column hd hne
  obtain ⟨b, hb⟩ := exists_spread hk l.chunk_pos off
  have hcol : b / chunk % columns = k := congrArg Prod.fst hb
  have hoff : (l.block b).2 = off := congrArg Prod.snd hb
  refine ⟨b, Prod.ext ?_ hoff⟩
  rw [← hoff, l.offset_div, ← hcol]
  rfl

theorem stripe_eq_iff (hcolumns : 0 < columns) (hchunk : 0 < chunk) :
    stripe columns chunk b = s ↔
      s * (columns * chunk) ≤ b ∧ b < s * (columns * chunk) + columns * chunk := by
  rw [stripe, Nat.div_div_eq_div_mul, Nat.mul_comm chunk columns,
    Nat.div_eq_iff (Nat.mul_pos hcolumns hchunk)]
  have hpos := Nat.mul_pos hcolumns hchunk
  omega

variable {B : Type*} [AddCommGroup B]

-- Every row of the disks adds up to nothing.
def Consistent (columns : ℕ) (contents : ℕ → ℕ → B) : Prop :=
  ∀ off, ∑ d ∈ Finset.range (columns + 1), contents d off = 0

open Classical in
-- The block that makes the row add up to nothing once it holds what is new.
noncomputable def parityOf (columns p : ℕ) (written : ℕ → Prop) (new row : ℕ → B) : B :=
  -∑ d ∈ (Finset.range (columns + 1)).erase p, if written d then new d else row d

-- A request for some blocks: what it writes, and that what it reads says what the parity has to be,
-- be it from the blocks that change and the old parity or from all the blocks that do not change.
structure Plan (l : Layout columns chunk) (blocks : ℕ → Prop) (reads writes : ℕ → ℕ → Prop) :
    Prop where
  writes : ∀ d off, writes d off ↔ (∃ b, blocks b ∧ l.block b = (d, off)) ∨
    (d = l.parity (off / chunk) ∧ ∃ b, blocks b ∧ (l.block b).2 = off)
  enough : ∀ off, (∃ b, blocks b ∧ (l.block b).2 = off) →
    (reads (l.parity (off / chunk)) off ∧
      ∀ d, (∃ b, blocks b ∧ l.block b = (d, off)) → reads d off) ∨
    ∀ b, ¬ blocks b → (l.block b).2 = off → reads (l.block b).1 off

open Classical in
noncomputable def store (l : Layout columns chunk) (writes : ℕ → ℕ → Prop)
    (new contents : ℕ → ℕ → B) (d off : ℕ) : B :=
  if writes d off then
    if d = l.parity (off / chunk) then
      parityOf columns d (fun e => writes e off) (fun e => new e off) (fun e => contents e off)
    else new d off
  else contents d off

variable {blocks : ℕ → Prop} {reads writes : ℕ → ℕ → Prop} {new contents contents' : ℕ → ℕ → B}

theorem parity_mem (l : Layout columns chunk) (s : ℕ) :
    l.parity s ∈ Finset.range (columns + 1) :=
  Finset.mem_range.mpr (Nat.lt_succ_of_le (l.parity_le s))

theorem store_consistent (h : Plan l blocks reads writes) (hold : Consistent columns contents) :
    Consistent columns (store l writes new contents) := by
  intro off
  by_cases hrow : ∃ b, blocks b ∧ (l.block b).2 = off
  · have hparity : writes (l.parity (off / chunk)) off :=
      (h.writes _ off).mpr (Or.inr ⟨rfl, hrow⟩)
    rw [← Finset.add_sum_erase _ _ (parity_mem l (off / chunk))]
    have hfirst : store l writes new contents (l.parity (off / chunk)) off =
        -∑ d ∈ (Finset.range (columns + 1)).erase (l.parity (off / chunk)),
          store l writes new contents d off := by
      rw [store, if_pos hparity, if_pos rfl, parityOf]
      refine congrArg Neg.neg (Finset.sum_congr rfl fun d hd => ?_)
      rw [store, if_neg (Finset.ne_of_mem_erase hd)]
    rw [hfirst, neg_add_cancel]
  · have hnone : ∀ d, ¬ writes d off := by
      intro d hd
      obtain ⟨b, hb, heq⟩ | ⟨-, hsome⟩ := (h.writes d off).mp hd
      · exact hrow ⟨b, hb, congrArg Prod.snd heq⟩
      · exact hrow hsome
    rw [← hold off]
    exact Finset.sum_congr rfl fun d _ => if_neg (hnone d)

theorem parityOf_determined (h : Plan l blocks reads writes) (hold : Consistent columns contents)
    (hold' : Consistent columns contents')
    (hsame : ∀ d off, reads d off → contents d off = contents' d off)
    (hrow : ∃ b, blocks b ∧ (l.block b).2 = off) :
    parityOf columns (l.parity (off / chunk)) (fun e => writes e off) (fun e => new e off)
        (fun e => contents e off) =
      parityOf columns (l.parity (off / chunk)) (fun e => writes e off) (fun e => new e off)
        (fun e => contents' e off) := by
  classical
  refine congrArg Neg.neg ?_
  obtain ⟨hparity, hwritten⟩ | hrest := h.enough off hrow
  · -- What the written blocks and the parity were is known, and the rest of the row follows.
    have hsum := (hold off).trans (hold' off).symm
    rw [← Finset.add_sum_erase _ _ (parity_mem l (off / chunk)),
      ← Finset.add_sum_erase _ _ (parity_mem l (off / chunk)), hsame _ _ hparity] at hsum
    have hothers := add_left_cancel hsum
    rw [← sub_eq_zero, ← Finset.sum_sub_distrib] at hothers ⊢
    rw [← hothers]
    refine Finset.sum_congr rfl fun d hd => ?_
    split
    · rename_i hd'
      obtain hblock | ⟨heq, -⟩ := (h.writes d off).mp hd'
      · rw [hsame d off (hwritten d hblock), sub_self, sub_self]
      · exact absurd heq (Finset.ne_of_mem_erase hd)
    · rfl
  · refine Finset.sum_congr rfl fun d hd => ?_
    split
    · rfl
    · rename_i hd'
      have hle := Nat.le_of_lt_succ (Finset.mem_range.mp (Finset.mem_of_mem_erase hd))
      obtain ⟨b, hb⟩ := l.exists_block hle (Finset.ne_of_mem_erase hd)
      have hfree : ¬ blocks b := fun hblocks => hd' ((h.writes d off).mpr (Or.inl ⟨b, hblocks, hb⟩))
      have hread := hrest b hfree (congrArg Prod.snd hb)
      rw [congrArg Prod.fst hb] at hread
      exact hsame d off hread

end StripedParity
