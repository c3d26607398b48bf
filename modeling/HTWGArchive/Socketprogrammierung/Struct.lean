import HTWGArchive.PeerToPeerChat.Framing
import Mathlib.Tactic.NormNum

namespace Struct

open PeerToPeerChat

-- The formats of `struct` in network byte order; `none` is the `struct.error`.
def pack_I (n : Int) : Option (List UInt8) :=
  if 0 ≤ n ∧ n < 2 ^ 32 then some (littleEndian 4 n.toNat).reverse else none

def pack_i (n : Int) : Option (List UInt8) :=
  if -2 ^ 31 ≤ n ∧ n < 2 ^ 31 then some (littleEndian 4 (n % 2 ^ 32).toNat).reverse else none

def pack_B (n : ℕ) : Option (List UInt8) :=
  if n < 2 ^ 8 then some [UInt8.ofNat n] else none

def pack_s (count : ℕ) (b : List UInt8) : List UInt8 :=
  b.take count ++ List.replicate (count - b.length) 0

def pack_is (ns : List Int) : Option (List UInt8) :=
  (ns.mapM pack_i).map List.flatten

def unpack_I (b : List UInt8) : ℕ :=
  from_bytes .big b

def unpack_i (b : List UInt8) : Int :=
  (from_bytes .big b : Int).bmod (2 ^ 32)

def unpack_is : ℕ → List UInt8 → List Int
  | 0, _ => []
  | number + 1, b => unpack_i (b.take 4) :: unpack_is number (b.drop 4)

variable {n : Int} {ns : List Int} {b : List UInt8}

theorem from_bytes_big {k length : ℕ} (h : k < 256 ^ length) :
    from_bytes .big (littleEndian length k).reverse = k := by
  rw [from_bytes, List.reverse_reverse, ofDigits_littleEndian h]

theorem pack_I_inv (h : pack_I n = some b) :
    ∃ k : ℕ, k < 256 ^ 4 ∧ n = k ∧ b = (littleEndian 4 k).reverse := by
  obtain ⟨⟨hlow, hhigh⟩, hb⟩ := Option.ite_none_right_eq_some.mp h
  obtain ⟨k, rfl⟩ := Int.eq_ofNat_of_zero_le hlow
  rw [Int.toNat_natCast] at hb
  exact ⟨k, by omega, rfl, (Option.some.inj hb).symm⟩

theorem pack_i_inv (h : pack_i n = some b) :
    (-2 ^ 31 ≤ n ∧ n < 2 ^ 31) ∧
      ∃ k : ℕ, k < 256 ^ 4 ∧ n % 2 ^ 32 = k ∧ b = (littleEndian 4 k).reverse := by
  obtain ⟨hrange, hb⟩ := Option.ite_none_right_eq_some.mp h
  obtain ⟨k, hk⟩ := Int.eq_ofNat_of_zero_le (Int.emod_nonneg n (show (2 : Int) ^ 32 ≠ 0 by decide))
  rw [hk, Int.toNat_natCast] at hb
  refine ⟨hrange, k, ?_, hk, (Option.some.inj hb).symm⟩
  have hlt := Int.emod_lt_of_pos n (show (0 : Int) < 2 ^ 32 by decide)
  omega

theorem length_pack_I (h : pack_I n = some b) : b.length = 4 := by
  obtain ⟨k, -, -, rfl⟩ := pack_I_inv h
  rw [List.length_reverse, length_littleEndian]

theorem length_pack_i (h : pack_i n = some b) : b.length = 4 := by
  obtain ⟨-, k, -, -, rfl⟩ := pack_i_inv h
  rw [List.length_reverse, length_littleEndian]

theorem unpack_pack_I (h : pack_I n = some b) : (unpack_I b : Int) = n := by
  obtain ⟨k, hk, rfl, rfl⟩ := pack_I_inv h
  rw [unpack_I, from_bytes_big hk]

theorem signed_emod (hlow : -2 ^ 31 ≤ n) (hhigh : n < 2 ^ 31) :
    (n % 2 ^ 32).bmod (2 ^ 32) = n := by
  have hcast : (2 : Int) ^ 32 = ((2 ^ 32 : ℕ) : Int) := by norm_num
  rw [hcast, Int.emod_bmod]
  apply Int.bmod_eq_of_le
  · norm_num
    omega
  · norm_num
    omega

theorem unpack_pack_i (h : pack_i n = some b) : unpack_i b = n := by
  obtain ⟨hrange, k, hk, hmod, rfl⟩ := pack_i_inv h
  unfold unpack_i
  rw [from_bytes_big hk, ← hmod]
  exact signed_emod hrange.1 hrange.2

theorem pack_i_isSome : (∃ b, pack_i n = some b) ↔ -2 ^ 31 ≤ n ∧ n < 2 ^ 31 := by
  constructor
  · rintro ⟨b, hb⟩
    exact (pack_i_inv hb).1
  · exact fun h => ⟨_, if_pos h⟩

theorem pack_is_nil : pack_is [] = some [] :=
  rfl

theorem pack_is_cons :
    pack_is (n :: ns) = some b ↔
      ∃ first rest, pack_i n = some first ∧ pack_is ns = some rest ∧ b = first ++ rest := by
  rw [pack_is, List.mapM_cons]
  cases hfirst : pack_i n with
  | none => simp
  | some first =>
    cases hrest : ns.mapM pack_i with
    | none => simp [pack_is, hrest]
    | some rest => simp [pack_is, hrest, eq_comm]

theorem length_pack_is (h : pack_is ns = some b) : b.length = 4 * ns.length := by
  induction ns generalizing b with
  | nil =>
    obtain rfl := Option.some.inj h
    rfl
  | cons n ns ih =>
    obtain ⟨first, rest, hfirst, hrest, rfl⟩ := pack_is_cons.mp h
    rw [List.length_append, length_pack_i hfirst, ih hrest, List.length_cons]
    omega

theorem unpack_pack_is (h : pack_is ns = some b) : unpack_is ns.length b = ns := by
  induction ns generalizing b with
  | nil => rfl
  | cons n ns ih =>
    obtain ⟨first, rest, hfirst, hrest, rfl⟩ := pack_is_cons.mp h
    have hlength := length_pack_i hfirst
    rw [List.length_cons, unpack_is, List.take_left' hlength, List.drop_left' hlength,
      unpack_pack_i hfirst, ih hrest]

theorem pack_is_isSome : (∃ b, pack_is ns = some b) ↔ ∀ n ∈ ns, -2 ^ 31 ≤ n ∧ n < 2 ^ 31 := by
  induction ns with
  | nil => simp [pack_is_nil]
  | cons n ns ih =>
    rw [List.forall_mem_cons, ← ih, ← pack_i_isSome]
    constructor
    · rintro ⟨b, hb⟩
      obtain ⟨first, rest, hfirst, hrest, -⟩ := pack_is_cons.mp hb
      exact ⟨⟨first, hfirst⟩, rest, hrest⟩
    · rintro ⟨⟨first, hfirst⟩, rest, hrest⟩
      exact ⟨_, pack_is_cons.mpr ⟨first, rest, hfirst, hrest, rfl⟩⟩

theorem length_pack_s (count : ℕ) (b : List UInt8) : (pack_s count b).length = count := by
  rw [pack_s, List.length_append, List.length_take, List.length_replicate]
  omega

end Struct
