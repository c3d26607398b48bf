import Mathlib.Data.Int.ModEq
import Mathlib.Data.Nat.Digits.Defs
import HTWGArchive.Dictionary.HashGrowth

namespace HashDictionary

open JavaInt Slots Key

section Index

variable {K V : Type*} [Key K] {key : Int} {length : ℕ} {k : K} {d : Dictionary K V}

-- The text of the key as a number to the base `key`, without any wrap-around.
def number (key : Int) (k : K) : Int :=
  Nat.ofDigits key ((valueOf k).reverse.map UInt16.toNat)

-- The smallest integer keeps its sign, and only a divisor of it leaves no negative remainder.
def SignFixed (key : Int) (length : ℕ) (k : K) : Prop :=
  ¬number key k ≡ 2 ^ 31 [ZMOD 2 ^ 32] ∨ (length : Int) - 1 ∣ 2 ^ 31

theorem hashSum_eq (key : Int) (s : List UInt16) :
    hashSum key s = int (Nat.ofDigits key (s.reverse.map UInt16.toNat)) := by
  induction s using List.reverseRecOn with
  | nil => rfl
  | append_singleton s c ih =>
    have hstep : hashSum key (s ++ [c]) = int (key * hashSum key s + c.toNat) := by
      rw [hashSum, List.foldl_append]
      rfl
    have hdigits : Nat.ofDigits key ((s ++ [c]).reverse.map UInt16.toNat) =
        c.toNat + key * Nat.ofDigits key (s.reverse.map UInt16.toNat) := by
      rw [List.reverse_append]
      rfl
    rw [hstep, hdigits, ih, Int.add_comm]
    unfold int
    rw [← Int.add_bmod_bmod, Int.mul_bmod_bmod, Int.add_bmod_bmod]

theorem hashable_iff : Hashable key k ↔ ¬number key k ≡ 2 ^ 31 [ZMOD 2 ^ 32] := by
  unfold Hashable number
  rw [hashSum_eq, ne_eq, not_iff_not, Int.ModEq]
  generalize Nat.ofDigits key ((valueOf k).reverse.map UInt16.toNat) = n
  simp only [int, Int.bmod_def, minValue]
  norm_num
  omega

theorem signFixed_iff : SignFixed key length k ↔
    Hashable key k ∨ (length : Int) - 1 ∣ minValue := by
  rw [SignFixed, hashable_iff, show minValue = -2 ^ 31 from rfl, dvd_neg]

theorem genHash_unhashable (hk : ¬Hashable key k) (hl : 2 ≤ length) :
    genHash key length k = some (minValue.tmod (length - 1)) := by
  have hsum : hashSum key (valueOf k) = minValue := not_not.mp hk
  have hneg : int (-minValue) = minValue := by decide
  have hlt : minValue < 0 := by decide
  unfold genHash
  simp only [hsum, if_pos hlt, hneg]
  exact if_neg (by omega)

-- The remainder takes the sign of the dividend.
theorem tmod_minValue_nonneg_iff {n : Int} : 0 ≤ minValue.tmod n ↔ n ∣ minValue := by
  rw [Int.dvd_iff_tmod_eq_zero]
  constructor
  · intro hpos
    have hneg : minValue.tmod n = -(2 ^ 31 : Int).tmod n := Int.neg_tmod _ _
    have habs := Int.tmod_nonneg n (show (0 : Int) ≤ 2 ^ 31 by decide)
    omega
  · intro hzero
    rw [hzero]

theorem genHash_index_iff (hl : 2 ≤ length) :
    (∃ i : ℕ, genHash key length k = some (i : Int) ∧ i < length) ↔ SignFixed key length k := by
  by_cases hk : Hashable key k
  · exact iff_of_true (genHash_range hk hl) (signFixed_iff.mpr (Or.inl hk))
  · rw [genHash_unhashable hk hl, signFixed_iff, or_iff_right hk, ← tmod_minValue_nonneg_iff]
    constructor
    · rintro ⟨i, hi, -⟩
      rw [Option.some.inj hi]
      exact Int.natCast_nonneg i
    · intro hpos
      have hlt := Int.tmod_lt_of_pos minValue (show (0 : Int) < length - 1 by omega)
      refine ⟨(minValue.tmod (length - 1)).toNat, ?_, by omega⟩
      rw [Int.toNat_of_nonneg hpos]

omit [Key K] in
theorem slot_index {i : ℕ} (hi : i < d.dict.length) :
    ∃ b, slot d.dict i = some b ∧ ∀ c, ∃ dict, write d.dict i c = some dict := by
  refine ⟨d.dict[i], ?_, ?_⟩
  · rw [slot_natCast]
    exact List.getElem?_eq_getElem hi
  · exact fun c => ⟨_, write_natCast hi c⟩

theorem put_inside {i : ℕ} (hk : genHash d.key d.dict.length k = some (i : Int))
    (hi : i < d.dict.length) (v : V) : put d k v ≠ none := by
  obtain ⟨b, hb, hwrite⟩ := slot_index hi
  cases b with
  | none =>
    obtain ⟨dict, hdict⟩ := hwrite (some [⟨k, v⟩])
    simp [put, search, hk, hb, hdict]
  | some es =>
    cases hes : find es k with
    | none =>
      obtain ⟨dict, hdict⟩ := hwrite (some (es ++ [⟨k, v⟩]))
      simp [put, search, hk, hb, hes, hdict]
    | some old =>
      obtain ⟨dict, hdict⟩ := hwrite (some (replace k v es))
      simp [put, search, hk, hb, hes, hdict]

theorem remove_inside {i : ℕ} (hk : genHash d.key d.dict.length k = some (i : Int))
    (hi : i < d.dict.length) (h : remove d k = none) : slot d.dict i = some none := by
  obtain ⟨b, hb, hwrite⟩ := slot_index hi
  cases b with
  | none => exact hb
  | some es =>
    cases hes : find es k with
    | none => simp [remove, hk, hb, hes] at h
    | some old =>
      obtain ⟨dict, hdict⟩ := hwrite (some (es.eraseP (fun e => e.key == k)))
      simp [remove, hk, hb, hes, hdict] at h

theorem outside (hl : 2 ≤ d.dict.length) (hk : ¬SignFixed d.key d.dict.length k) (v : V) :
    search d k = none ∧ put d k v = none ∧ remove d k = none := by
  rw [signFixed_iff, not_or] at hk
  have hhash := genHash_unhashable hk.1 hl
  have hneg := mt tmod_minValue_nonneg_iff.mp hk.2
  have hslot : slot d.dict (minValue.tmod (d.dict.length - 1)) = none := if_neg hneg
  simp [search, put, remove, hhash, hslot]

-- The index lies in the table for `search`, for `insert` once the table is as large as
-- `ensurecapacity` leaves it, and for `remove`, which can still meet an empty slot.
structure Indexed (d : Dictionary K V) (k : K) : Prop where
  index : ∃ i : ℕ, genHash d.key d.dict.length k = some (i : Int) ∧ i < d.dict.length
  search : search d k ≠ none
  insert : ∀ depth d₀ v, ensurecapacity depth d₀ = some d → insert depth d₀ k v ≠ none
  remove : remove d k = none → ∃ i, genHash d.key d.dict.length k = some i ∧
    slot d.dict i = some none

theorem genHash_valid_iff (hl : 2 ≤ d.dict.length) :
    Indexed d k ↔ SignFixed d.key d.dict.length k := by
  constructor
  · exact fun h => (genHash_index_iff hl).mp h.index
  · intro hfixed
    obtain ⟨i, hk, hi⟩ := (genHash_index_iff hl).mpr hfixed
    refine ⟨⟨i, hk, hi⟩, ?_, ?_, ?_⟩
    · obtain ⟨b, hb, -⟩ := slot_index hi
      cases b <;> simp [search, hk, hb]
    · intro depth d₀ v hgrown
      simpa [insert, hgrown] using put_inside hk hi v
    · exact fun hnone => ⟨i, hk, remove_inside hk hi hnone⟩

end Index

-- The texts "a" and "eabbbaacccacccab".
def shortText : List UInt16 := [97]

def longText : List UInt16 := [101, 97, 98, 98, 98, 97, 97, 99, 99, 99, 97, 99, 99, 99, 97, 98]

theorem genHash_valid_short : ∃ d : Dictionary (List UInt16) ℕ, create 3 31 = some d ∧
    (Indexed d shortText ↔ SignFixed d.key d.dict.length shortText) :=
  ⟨_, rfl, genHash_valid_iff (by decide)⟩

theorem genHash_negative : ∃ d : Dictionary (List UInt16) ℕ, create 3 31 = some d ∧
    2 ≤ d.dict.length ∧ genHash d.key d.dict.length longText = some (-8) ∧
    ¬Indexed d longText := by
  have hhash : genHash 3 31 longText = some (-8) := by decide +kernel
  refine ⟨_, rfl, by decide, hhash, ?_⟩
  intro h
  obtain ⟨i, hi, -⟩ := h.index
  have hneg := Option.some.inj (hhash.symm.trans hi)
  omega

end HashDictionary
