import Mathlib.Data.List.Range
import Mathlib.Data.List.Chain
import Mathlib.Order.Nat

namespace EdgeDetector

inductive Pulse where
  | rise
  | fall
  deriving DecidableEq

def delayed (level : ℕ → Bool) : ℕ → Bool
  | 0 => false
  | n + 1 => level n

def rise (level : ℕ → Bool) (n : ℕ) : Bool :=
  !delayed level n && level n

def fall (level : ℕ → Bool) (n : ℕ) : Bool :=
  !level n && delayed level n

def pulse (rising falling : Bool) : Option Pulse :=
  if rising then some .rise else if falling then some .fall else none

def pulses (level : ℕ → Bool) (n : ℕ) : List Pulse :=
  (List.range n).filterMap fun k => pulse (rise level k) (fall level k)

variable (level : ℕ → Bool)

theorem not_both (n : ℕ) : ¬ (rise level n = true ∧ fall level n = true) := by
  rintro ⟨hr,hf⟩
  simp only [rise, fall, Bool.and_eq_true, Bool.not_eq_true'] at hr hf
  simp [hr.1] at hf

theorem rise_once {n : ℕ} (h : rise level n = true) : rise level (n + 1) = false := by
  simp only [rise, Bool.and_eq_true] at h
  simp [rise, delayed, h.2]

theorem fall_once {n : ℕ} (h : fall level n = true) : fall level (n + 1) = false := by
  simp only [fall, Bool.and_eq_true, Bool.not_eq_true'] at h
  simp [fall, delayed, h.1]

theorem level_iff (n : ℕ) :
    level n = true ↔ rise level n = true ∨ delayed level n = true ∧ fall level n = false := by
  cases hl : level n <;> cases hd : delayed level n <;> simp [rise, fall, hl, hd]

theorem delayed_iff (n : ℕ) :
    delayed level n = true ↔
      ∃ m, m < n ∧ rise level m = true ∧ ∀ k, m < k → k < n → fall level k = false := by
  induction n with
  | zero => simp [delayed]
  | succ n ih =>
    rw [show delayed level (n + 1) = level n from rfl, level_iff, ih]
    constructor
    · rintro (hr | ⟨⟨m,hm,hr,hf⟩,hn⟩)
      · exact ⟨n,n.lt_succ_self,hr,fun k hk hk' => by omega⟩
      · refine ⟨m,by omega,hr,fun k hk hk' => ?_⟩
        rcases Nat.lt_succ_iff_lt_or_eq.mp hk' with h | rfl
        · exact hf k hk h
        · exact hn
    · rintro ⟨m,hm,hr,hf⟩
      rcases Nat.lt_succ_iff_lt_or_eq.mp hm with h | rfl
      · exact .inr ⟨⟨m,h,hr,fun k hk hk' => hf k hk (by omega)⟩,hf n h n.lt_succ_self⟩
      · exact .inl hr

theorem pulses_succ (n : ℕ) :
    pulses level (n + 1) =
      pulses level n ++ (pulse (rise level n) (fall level n)).toList := by
  rw [pulses, List.range_succ, List.filterMap_append]
  cases h : pulse (rise level n) (fall level n) <;> simp [pulses, h]

theorem last_pulse (n : ℕ) :
    (pulses level n).getLast? = some .rise ∧ delayed level n = true ∨
      (pulses level n).getLast? ≠ some .rise ∧ delayed level n = false := by
  induction n with
  | zero => simp [pulses, delayed]
  | succ n ih =>
    rw [pulses_succ, show delayed level (n + 1) = level n from rfl]
    cases hl : level n <;> cases hd : delayed level n <;>
      simp_all [rise, fall, pulse]

theorem alternate_append {ps : List Pulse} {p : Pulse}
    (hc : ps.IsChain (· ≠ ·)) (hh : ∀ q ∈ ps.head?, q = .rise)
    (hl : ∀ q ∈ ps.getLast?, q ≠ p) (hn : ps = [] → p = .rise) :
    (ps ++ [p]).IsChain (· ≠ ·) ∧ ∀ q ∈ (ps ++ [p]).head?, q = .rise := by
  refine ⟨List.isChain_append.mpr ⟨hc,.singleton p,fun q hq r hr => ?_⟩,?_⟩
  · obtain rfl : p = r := by simpa using hr
    exact hl q hq
  · cases ps with
    | nil => simpa using hn rfl
    | cons q qs => simpa using hh

theorem alternate (n : ℕ) :
    (pulses level n).IsChain (· ≠ ·) ∧ ∀ p ∈ (pulses level n).head?, p = .rise := by
  induction n with
  | zero => simp [pulses]
  | succ n ih =>
    obtain ⟨hc,hh⟩ := ih
    rw [pulses_succ]
    cases hl : level n <;> cases hd : delayed level n
    · simpa [rise, fall, pulse, hl, hd] using ⟨hc,hh⟩
    · have hlast : (pulses level n).getLast? = some .rise := by
        simpa [hd] using last_pulse level n
      have h := alternate_append (p := .fall) hc hh (by simp [hlast]) fun hn => by simp [hn] at hlast
      simpa [rise, fall, pulse, hl, hd] using h
    · have hlast : (pulses level n).getLast? ≠ some .rise := by
        simpa [hd] using last_pulse level n
      have h := alternate_append (p := .rise) hc hh
        (fun q hq he => hlast (he ▸ hq)) fun _ => rfl
      simpa [rise, fall, pulse, hl, hd] using h
    · simpa [rise, fall, pulse, hl, hd] using ⟨hc,hh⟩

end EdgeDetector
