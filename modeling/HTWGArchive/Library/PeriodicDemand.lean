import Mathlib.Algebra.Order.BigOperators.Group.List
import Mathlib.Data.List.Range
import Mathlib.Tactic.Ring

namespace PeriodicDemand

structure Stream where
  phase : ℕ
  period : ℕ
  cost : ℕ
  deriving DecidableEq, Repr

def Stream.releasesAt (a : Stream) (r : ℕ) : Bool :=
  a.phase ≤ r && (r - a.phase) % a.period = 0

def Stream.releasesIn (a : Stream) (s n : ℕ) : ℕ :=
  (List.range' s (n - s)).countP a.releasesAt

def released (streams : List Stream) (r : ℕ) : ℕ :=
  ((streams.filter (fun a => a.releasesAt r)).map Stream.cost).sum

def demand (streams : List Stream) (s n : ℕ) : ℕ :=
  (streams.map (fun a => a.cost * a.releasesIn s n)).sum

def workload (streams : List Stream) : ℕ :=
  (streams.map Stream.cost).sum

theorem countP_le_one {α : Type*} {p : α → Bool} {xs : List α}
    (h : xs.Pairwise (fun x y => ¬(p x ∧ p y))) : xs.countP p ≤ 1 := by
  induction xs with
  | nil => simp
  | cons x xs ih =>
    obtain ⟨hx, hxs⟩ := List.pairwise_cons.mp h
    rw [List.countP_cons]
    cases hp : p x with
    | false => simpa using ih hxs
    | true =>
      have hnone : xs.countP p = 0 := by
        rw [List.countP_eq_zero]
        intro y hy hpy
        exact hx y hy ⟨hp, hpy⟩
      simp [hnone]

section Stream

variable {a : Stream} {s n : ℕ}

theorem releasesIn_self (a : Stream) (n : ℕ) : a.releasesIn n n = 0 := by
  simp [Stream.releasesIn]

theorem releasesIn_succ (h : s ≤ n) :
    a.releasesIn s (n + 1) = a.releasesIn s n + if a.releasesAt n then 1 else 0 := by
  have hlen : n + 1 - s = (n - s) + 1 := by omega
  have hlast : s + (n - s) = n := by omega
  rw [Stream.releasesIn, hlen, List.range'_concat, List.countP_append, Nat.one_mul, hlast,
    List.countP_singleton, Stream.releasesIn]

theorem releasesAt_apart {r r' : ℕ} (hlt : r < r') (h : a.releasesAt r = true)
    (h' : a.releasesAt r' = true) : r + a.period ≤ r' := by
  simp only [Stream.releasesAt, Bool.and_eq_true, decide_eq_true_eq] at h h'
  have hdvd : a.period ∣ (r' - a.phase) - (r - a.phase) :=
    Nat.dvd_sub (Nat.dvd_of_mod_eq_zero h'.2) (Nat.dvd_of_mod_eq_zero h.2)
  have hle := Nat.le_of_dvd (by omega) hdvd
  omega

theorem releasesAt_iff {r : ℕ} : a.releasesAt r = true ↔ ∃ k, r = a.phase + k * a.period := by
  simp only [Stream.releasesAt, Bool.and_eq_true, decide_eq_true_eq]
  constructor
  · rintro ⟨hle, hmod⟩
    obtain ⟨k, hk⟩ := Nat.dvd_of_mod_eq_zero hmod
    refine ⟨k, ?_⟩
    rw [Nat.mul_comm k, ← hk]
    omega
  · rintro ⟨k, rfl⟩
    exact ⟨Nat.le_add_right _ _, by rw [Nat.add_sub_cancel_left, Nat.mul_mod_left]⟩

theorem releasesIn_zero (n : ℕ) :
    a.releasesIn 0 n = if n ≤ a.phase then 0 else (n - a.phase - 1) / a.period + 1 := by
  induction n with
  | zero => simp [releasesIn_self]
  | succ n ih =>
    rw [releasesIn_succ (Nat.zero_le n), ih]
    simp only [Stream.releasesAt, Bool.and_eq_true, decide_eq_true_eq]
    rcases Nat.lt_trichotomy n a.phase with hlt | heq | hgt
    · rw [if_pos hlt.le, if_neg (fun h => absurd h.1 (Nat.not_le.mpr hlt)),
        if_pos (Nat.succ_le_of_lt hlt)]
    · have hnext : ¬n + 1 ≤ a.phase := by omega
      rw [if_pos heq.le, if_pos ⟨heq.ge, by rw [heq, Nat.sub_self, Nat.zero_mod]⟩, if_neg hnext]
      have hgap : n + 1 - a.phase - 1 = 0 := by omega
      rw [hgap, Nat.zero_div]
    · have hnext : ¬n + 1 ≤ a.phase := by omega
      have hgap : n + 1 - a.phase - 1 = (n - a.phase - 1) + 1 := by omega
      have hback : (n - a.phase - 1) + 1 = n - a.phase := by omega
      have hdvd : (a.phase ≤ n ∧ (n - a.phase) % a.period = 0) ↔ a.period ∣ n - a.phase := by
        rw [Nat.dvd_iff_mod_eq_zero]
        exact and_iff_right hgt.le
      rw [if_neg (Nat.not_le.mpr hgt), if_neg hnext, hgap, Nat.succ_div, hback, Nat.add_right_comm,
        if_congr hdvd rfl rfl]

theorem releasesIn_progression (hperiod : 0 < a.period) (k : ℕ) :
    a.releasesIn 0 (a.phase + k * a.period) = k := by
  rw [releasesIn_zero]
  cases k with
  | zero => simp
  | succ k =>
    have hpos : 0 < (k + 1) * a.period := Nat.mul_pos (Nat.succ_pos k) hperiod
    have hlast : a.phase + (k + 1) * a.period - a.phase - 1 = (a.period - 1) + k * a.period := by
      rw [Nat.succ_mul]
      omega
    rw [if_neg (by omega), hlast, Nat.add_mul_div_right _ _ hperiod,
      Nat.div_eq_of_lt (Nat.sub_lt hperiod Nat.one_pos), Nat.zero_add]

theorem releasesIn_le_one (h : n - s ≤ a.period) : a.releasesIn s n ≤ 1 := by
  apply countP_le_one
  apply List.Pairwise.imp_of_mem _ List.pairwise_lt_range'
  intro r r' hr hr' hlt hboth
  have hapart := releasesAt_apart hlt hboth.1 hboth.2
  rw [List.mem_range'_1] at hr hr'
  omega

end Stream

section Streams

variable {streams : List Stream} {s n : ℕ}

theorem demand_self (streams : List Stream) (n : ℕ) : demand streams n n = 0 := by
  rw [demand, List.sum_eq_zero]
  intro x hx
  obtain ⟨a, _, rfl⟩ := List.mem_map.mp hx
  rw [releasesIn_self, Nat.mul_zero]

theorem demand_succ (h : s ≤ n) :
    demand streams s (n + 1) = demand streams s n + released streams n := by
  induction streams with
  | nil => rfl
  | cons a streams ih =>
    simp only [demand, released, List.map_cons, List.sum_cons, releasesIn_succ h,
      List.filter_cons] at ih ⊢
    rw [ih]
    cases a.releasesAt n with
    | true =>
      simp only [if_true, List.map_cons, List.sum_cons]
      ring
    | false =>
      simp only [Bool.false_eq_true, if_false]
      ring

theorem demand_le_workload (h : ∀ a ∈ streams, n - s ≤ a.period) :
    demand streams s n ≤ workload streams := by
  apply List.sum_le_sum
  intro a ha
  calc a.cost * a.releasesIn s n ≤ a.cost * 1 :=
        Nat.mul_le_mul_left a.cost (releasesIn_le_one (h a ha))
    _ = a.cost := Nat.mul_one a.cost

theorem phase_lt_of_demand_pos (h : 0 < demand streams s n) : ∃ a ∈ streams, a.phase < n := by
  by_contra hnone
  push Not at hnone
  have hzero : demand streams s n = 0 := by
    rw [demand, List.sum_eq_zero]
    intro x hx
    obtain ⟨a, ha, rfl⟩ := List.mem_map.mp hx
    have hcount : a.releasesIn s n = 0 := by
      rw [Stream.releasesIn, List.countP_eq_zero]
      intro r hr hrel
      rw [List.mem_range'_1] at hr
      simp only [Stream.releasesAt, Bool.and_eq_true, decide_eq_true_eq] at hrel
      have hphase := hnone a ha
      omega
    rw [hcount, Nat.mul_zero]
  omega

theorem released_sublist {streams' : List Stream} (h : streams.Sublist streams') (n : ℕ) :
    released streams n ≤ released streams' n :=
  ((h.filter _).map _).sum_le_sum (fun _ _ => Nat.zero_le _)

end Streams

end PeriodicDemand
