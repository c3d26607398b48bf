import HTWGArchive.Library.EdgeDetector
import Mathlib.Order.Interval.Finset.Nat

namespace SyncBuffer

inductive StdLogic where
  | U
  | X
  | zero
  | one
  | Z
  | W
  | L
  | H
  | dash
  deriving DecidableEq

namespace StdLogic

def not : StdLogic → StdLogic
  | .U => .U
  | .zero | .L => .one
  | .one | .H => .zero
  | .X | .Z | .W | .dash => .X

def and : StdLogic → StdLogic → StdLogic
  | .zero, _ | .L, _ | _, .zero | _, .L => .zero
  | .U, _ | _, .U => .U
  | .one, .one | .one, .H | .H, .one | .H, .H => .one
  | _, _ => .X

end StdLogic

structure Buffer where
  cnt : ℕ
  state : StdLogic
  dout_t : StdLogic
  dff1 : StdLogic
  dff2 : StdLogic
  dff3 : StdLogic
  deriving DecidableEq

structure Wake where
  rst : StdLogic
  rising : Bool
  en : StdLogic
  swrst : StdLogic
  din : StdLogic

def SAMPLES : ℕ := 31

def p1 (RSTDEF : StdLogic) (w : Wake) (b : Buffer) : StdLogic :=
  if w.rst = RSTDEF then .zero else if w.rising then w.din else b.dff1

def p2 (RSTDEF : StdLogic) (w : Wake) (b : Buffer) : StdLogic :=
  if w.rst = RSTDEF then .zero else if w.rising then b.dff1 else b.dff2

def clear (b : Buffer) : Buffer :=
  { b with cnt := 0, state := .zero, dout_t := .zero }

def sample (b : Buffer) : Buffer :=
  match b.state with
  | .zero =>
    if b.dff2 = .zero then
      if 0 < b.cnt then { b with dout_t := .zero, cnt := b.cnt - 1 }
      else { b with dout_t := .zero }
    else if b.cnt < SAMPLES then { b with dout_t := .zero, cnt := b.cnt + 1 }
    else { b with dout_t := .zero, state := .one }
  | .one =>
    if b.dff2 = .one then
      if b.cnt < SAMPLES then { b with dout_t := .one, cnt := b.cnt + 1 }
      else { b with dout_t := .one }
    else if 0 < b.cnt then { b with dout_t := .one, cnt := b.cnt - 1 }
    else { b with dout_t := .one, state := .zero }
  | _ => b

def p3 (RSTDEF : StdLogic) (w : Wake) (b : Buffer) : Buffer :=
  if w.rst = RSTDEF then clear b
  else if w.rising then
    if w.swrst = RSTDEF then clear b else if w.en = .one then sample b else b
  else b

def p4 (RSTDEF : StdLogic) (w : Wake) (b : Buffer) : StdLogic :=
  if w.rst = RSTDEF then .zero else if w.rising then b.dout_t else b.dff3

def step (RSTDEF : StdLogic) (w : Wake) (b : Buffer) : Buffer :=
  { p3 RSTDEF w b with
    dff1 := p1 RSTDEF w b
    dff2 := p2 RSTDEF w b
    dff3 := p4 RSTDEF w b }

theorem step_idle {RSTDEF : StdLogic} {w : Wake} (hr : w.rst ≠ RSTDEF) (hw : w.rising = false)
    (b : Buffer) : step RSTDEF w b = b := by
  simp [step, p1, p2, p3, p4, hr, hw]

def dout (b : Buffer) : StdLogic := b.dff3

def redge (b : Buffer) : StdLogic := (b.dff3.not).and b.dout_t

def fedge (b : Buffer) : StdLogic := (b.dout_t.not).and b.dff3

def after (RSTDEF : StdLogic) (b : Buffer) (reset : Wake) (inputs : ℕ → Wake) : ℕ → Buffer
  | 0 => step RSTDEF reset b
  | n + 1 => step RSTDEF (inputs n) (after RSTDEF b reset inputs n)

def pulse (b : Buffer) : Option EdgeDetector.Pulse :=
  EdgeDetector.pulse (redge b = .one) (fedge b = .one)

def pulses (trace : ℕ → Buffer) (n : ℕ) : List EdgeDetector.Pulse :=
  (List.range n).filterMap fun k => pulse (trace k)

def opposed (inputs : ℕ → Wake) (trace : ℕ → Buffer) (held : StdLogic) (a c : ℕ) : Finset ℕ :=
  {k ∈ Finset.Ico a c | (inputs k).en = .one ∧ (trace k).dff2 ≠ held}

def Bit (x : StdLogic) : Prop := x = .zero ∨ x = .one

structure InRange (b : Buffer) : Prop where
  cnt : b.cnt ≤ SAMPLES
  state : Bit b.state
  dout_t : Bit b.dout_t
  dff3 : Bit b.dff3

theorem clear_inRange {b : Buffer} (h : Bit b.dff3) : InRange (clear b) :=
  ⟨Nat.zero_le _,.inl rfl,.inl rfl,h⟩

theorem sample_inRange {b : Buffer} (h : InRange b) : InRange (sample b) := by
  obtain ⟨hc,hs | hs,-,h3⟩ := h
  · simp only [sample, hs]
    split_ifs with hf hn hn
    · exact ⟨(Nat.sub_le _ _).trans hc,.inl rfl,.inl rfl,h3⟩
    · exact ⟨hc,.inl rfl,.inl rfl,h3⟩
    · exact ⟨hn,.inl rfl,.inl rfl,h3⟩
    · exact ⟨hc,.inr rfl,.inl rfl,h3⟩
  · simp only [sample, hs]
    split_ifs with hf hn hn
    · exact ⟨hn,.inr rfl,.inr rfl,h3⟩
    · exact ⟨hc,.inr rfl,.inr rfl,h3⟩
    · exact ⟨(Nat.sub_le _ _).trans hc,.inr rfl,.inr rfl,h3⟩
    · exact ⟨hc,.inl rfl,.inr rfl,h3⟩

theorem p3_inRange (RSTDEF : StdLogic) (w : Wake) {b : Buffer} (h : InRange b) :
    InRange (p3 RSTDEF w b) := by
  unfold p3
  split_ifs
  · exact clear_inRange h.dff3
  · exact clear_inRange h.dff3
  · exact sample_inRange h
  · exact h
  · exact h

theorem p4_bit (RSTDEF : StdLogic) (w : Wake) {b : Buffer} (h : InRange b) :
    Bit (p4 RSTDEF w b) := by
  unfold p4
  split_ifs
  · exact .inl rfl
  · exact h.dout_t
  · exact h.dff3

theorem step_inRange (RSTDEF : StdLogic) (w : Wake) {b : Buffer} (h : InRange b) :
    InRange (step RSTDEF w b) :=
  have hp := p3_inRange RSTDEF w h
  ⟨hp.cnt,hp.state,hp.dout_t,p4_bit RSTDEF w h⟩

theorem reset_inRange {RSTDEF : StdLogic} {w : Wake} (hw : w.rst = RSTDEF) (b : Buffer) :
    InRange (step RSTDEF w b) := by
  refine ⟨?_,.inl ?_,.inl ?_,.inl ?_⟩ <;> simp [step, p3, p4, hw, clear]

def margin (b : Buffer) : ℕ :=
  if b.state = .one then b.cnt else SAMPLES - b.cnt

theorem sample_held {b : Buffer} (h : InRange b) (hs : (sample b).state = b.state) :
    margin b ≤ margin (sample b) + if b.dff2 = b.state then 0 else 1 := by
  obtain ⟨-,h0 | h1,-,-⟩ := h
  · by_cases hf : b.dff2 = .zero
    · by_cases hn : 0 < b.cnt
      · simp only [sample, margin, h0, hf, hn, if_true, reduceCtorEq, if_false]
        omega
      · simp [sample, margin, h0, hf, hn]
    · by_cases hn : b.cnt < SAMPLES
      · simp only [sample, margin, h0, hf, hn, if_true, reduceCtorEq, if_false]
        omega
      · simp [sample, h0, hf, hn] at hs
  · by_cases hf : b.dff2 = .one
    · by_cases hn : b.cnt < SAMPLES
      · simp [sample, margin, h1, hf, hn]
      · simp [sample, margin, h1, hf, hn]
    · by_cases hn : 0 < b.cnt
      · simp only [sample, margin, h1, hf, hn, if_true, if_false]
        omega
      · simp [sample, h1, hf, hn] at hs

theorem sample_flip {b : Buffer} (h : InRange b) (hs : (sample b).state ≠ b.state) :
    margin b = 0 ∧ b.dff2 ≠ b.state ∧ margin (sample b) = SAMPLES := by
  obtain ⟨hc,h0 | h1,-,-⟩ := h
  · by_cases hf : b.dff2 = .zero
    · by_cases hn : 0 < b.cnt <;> simp [sample, h0, hf, hn] at hs
    · by_cases hn : b.cnt < SAMPLES
      · simp [sample, h0, hf, hn] at hs
      · obtain hcnt : b.cnt = SAMPLES := by omega
        simp [sample, margin, h0, hf, hcnt]
  · by_cases hf : b.dff2 = .one
    · by_cases hn : b.cnt < SAMPLES <;> simp [sample, h1, hf, hn] at hs
    · by_cases hn : 0 < b.cnt
      · simp [sample, h1, hf, hn] at hs
      · obtain hcnt : b.cnt = 0 := by omega
        simp [sample, margin, h1, hf, hcnt]

theorem opposed_succ (inputs : ℕ → Wake) (trace : ℕ → Buffer) (held : StdLogic) {a c : ℕ} (hac : a ≤ c) :
    (opposed inputs trace held a (c + 1)).card =
      (opposed inputs trace held a c).card +
        if (inputs c).en = .one ∧ (trace c).dff2 ≠ held then 1 else 0 := by
  have hico : Finset.Ico a (c + 1) = insert c (Finset.Ico a c) := by
    ext k
    simp only [Finset.mem_Ico, Finset.mem_insert]
    omega
  have hc : c ∉ Finset.Ico a c := by simp
  unfold opposed
  rw [hico, Finset.filter_insert]
  split_ifs with h
  · exact Finset.card_insert_of_notMem fun hm => hc (Finset.mem_filter.mp hm).1
  · rfl

section Run

variable {RSTDEF : StdLogic} {b : Buffer} {reset : Wake} {inputs : ℕ → Wake}

theorem after_inRange (hr : reset.rst = RSTDEF) (n : ℕ) :
    InRange (after RSTDEF b reset inputs n) := by
  induction n with
  | zero => exact reset_inRange hr b
  | succ n ih => exact step_inRange RSTDEF (inputs n) ih

def level (trace : ℕ → Buffer) (n : ℕ) : Bool := (trace n).dout_t = .one

theorem dff3_delayed (hr : reset.rst = RSTDEF)
    (hi : ∀ n, (inputs n).rst ≠ RSTDEF ∧ (inputs n).rising = true) (n : ℕ) :
    (after RSTDEF b reset inputs n).dff3 = .one ↔
      EdgeDetector.delayed (level (after RSTDEF b reset inputs)) n = true := by
  cases n with
  | zero => simp [after, step, p4, hr, EdgeDetector.delayed]
  | succ n => simp [after, step, p4, hi n, EdgeDetector.delayed, level]

theorem redge_iff {b : Buffer} (h : InRange b) :
    redge b = .one ↔ b.dff3 ≠ .one ∧ b.dout_t = .one := by
  obtain ⟨-,-,hd | hd,h3 | h3⟩ := h <;> simp [redge, hd, h3, StdLogic.not, StdLogic.and]

theorem fedge_iff {b : Buffer} (h : InRange b) :
    fedge b = .one ↔ b.dout_t ≠ .one ∧ b.dff3 = .one := by
  obtain ⟨-,-,hd | hd,h3 | h3⟩ := h <;> simp [fedge, hd, h3, StdLogic.not, StdLogic.and]

theorem redge_rise (hr : reset.rst = RSTDEF)
    (hi : ∀ n, (inputs n).rst ≠ RSTDEF ∧ (inputs n).rising = true) (n : ℕ) :
    redge (after RSTDEF b reset inputs n) = .one ↔
      EdgeDetector.rise (level (after RSTDEF b reset inputs)) n = true := by
  rw [redge_iff (after_inRange hr n), Ne, dff3_delayed hr hi]
  simp [EdgeDetector.rise, level]

theorem fedge_fall (hr : reset.rst = RSTDEF)
    (hi : ∀ n, (inputs n).rst ≠ RSTDEF ∧ (inputs n).rising = true) (n : ℕ) :
    fedge (after RSTDEF b reset inputs n) = .one ↔
      EdgeDetector.fall (level (after RSTDEF b reset inputs)) n = true := by
  rw [fedge_iff (after_inRange hr n), dff3_delayed hr hi]
  simp [EdgeDetector.fall, level]

theorem pulses_eq (hr : reset.rst = RSTDEF)
    (hi : ∀ n, (inputs n).rst ≠ RSTDEF ∧ (inputs n).rising = true) (n : ℕ) :
    pulses (after RSTDEF b reset inputs) n =
      EdgeDetector.pulses (level (after RSTDEF b reset inputs)) n := by
  unfold pulses EdgeDetector.pulses
  congr 1
  funext k
  simp only [pulse, redge_rise hr hi, fedge_fall hr hi, Bool.decide_eq_true]

theorem step_quiet {w : Wake} (hw : w.rst ≠ RSTDEF ∧ w.rising = true) (hq : w.swrst ≠ RSTDEF)
    (b : Buffer) :
    (step RSTDEF w b).state = (if w.en = .one then sample b else b).state ∧
      margin (step RSTDEF w b) = margin (if w.en = .one then sample b else b) := by
  have hp : p3 RSTDEF w b = if w.en = .one then sample b else b := by simp [p3, hw, hq]
  change (p3 RSTDEF w b).state = _ ∧ margin (p3 RSTDEF w b) = _
  rw [hp]
  exact ⟨rfl,rfl⟩

theorem step_flip {w : Wake} (hw : w.rst ≠ RSTDEF ∧ w.rising = true) (hq : w.swrst ≠ RSTDEF)
    {b : Buffer} (h : InRange b) (hs : (step RSTDEF w b).state ≠ b.state) :
    w.en = .one ∧ b.dff2 ≠ b.state ∧ margin b = 0 ∧ margin (step RSTDEF w b) = SAMPLES := by
  obtain ⟨hst,hm⟩ := step_quiet hw hq b
  by_cases he : w.en = .one
  · rw [if_pos he] at hst hm
    obtain ⟨h0,hd,h1⟩ := sample_flip h (hst ▸ hs)
    exact ⟨he,hd,h0,hm ▸ h1⟩
  · rw [if_neg he] at hst
    exact absurd hst hs

theorem step_held {w : Wake} (hw : w.rst ≠ RSTDEF ∧ w.rising = true) (hq : w.swrst ≠ RSTDEF)
    {b : Buffer} (h : InRange b) (hs : (step RSTDEF w b).state = b.state) :
    margin b ≤ margin (step RSTDEF w b) +
      if w.en = .one ∧ b.dff2 ≠ b.state then 1 else 0 := by
  obtain ⟨hst,hm⟩ := step_quiet hw hq b
  by_cases he : w.en = .one
  · rw [if_pos he] at hst hm
    have hb := sample_held h (hst ▸ hs)
    rw [hm]
    by_cases hd : b.dff2 = b.state <;> simpa [he, hd] using hb
  · rw [if_neg he] at hm
    simp [hm, he]

theorem held_of_few (hr : reset.rst = RSTDEF)
    (hi : ∀ n, (inputs n).rst ≠ RSTDEF ∧ (inputs n).rising = true)
    (hq : ∀ n, (inputs n).swrst ≠ RSTDEF) {a : ℕ}
    (ha : margin (after RSTDEF b reset inputs a) = SAMPLES) {c : ℕ} (hac : a ≤ c)
    (hfew : (opposed inputs (after RSTDEF b reset inputs)
      (after RSTDEF b reset inputs a).state a c).card ≤ SAMPLES) :
    (after RSTDEF b reset inputs c).state = (after RSTDEF b reset inputs a).state ∧
      SAMPLES ≤ margin (after RSTDEF b reset inputs c) +
        (opposed inputs (after RSTDEF b reset inputs)
          (after RSTDEF b reset inputs a).state a c).card := by
  induction c, hac using Nat.le_induction with
  | base => exact ⟨rfl,by omega⟩
  | succ c hac ih =>
    have hcard := opposed_succ inputs (after RSTDEF b reset inputs)
      (after RSTDEF b reset inputs a).state hac
    obtain ⟨hst,hm⟩ := ih (by omega)
    have hin : InRange (after RSTDEF b reset inputs c) := after_inRange hr c
    by_cases hs : (after RSTDEF b reset inputs (c + 1)).state
        = (after RSTDEF b reset inputs c).state
    · have hb := step_held (hi c) (hq c) hin hs
      rw [hst] at hb
      exact ⟨hs.trans hst,by change _ ≤ margin (step _ _ _) + _; omega⟩
    · obtain ⟨he,hd,h0,-⟩ := step_flip (hi c) (hq c) hin hs
      rw [hst] at hd
      rw [if_pos ⟨he,hd⟩] at hcard
      omega

theorem margin_of_change (hr : reset.rst = RSTDEF)
    (hi : ∀ n, (inputs n).rst ≠ RSTDEF ∧ (inputs n).rising = true)
    (hq : ∀ n, (inputs n).swrst ≠ RSTDEF) {a : ℕ}
    (ha : (after RSTDEF b reset inputs (a + 1)).state ≠ (after RSTDEF b reset inputs a).state) :
    margin (after RSTDEF b reset inputs (a + 1)) = SAMPLES :=
  (step_flip (hi a) (hq a) (after_inRange hr a) ha).2.2.2

theorem margin_reset (hr : reset.rst = RSTDEF) :
    margin (after RSTDEF b reset inputs 0) = SAMPLES := by
  simp [after, step, p3, hr, clear, margin]

theorem flip_needs_samples (hr : reset.rst = RSTDEF)
    (hi : ∀ n, (inputs n).rst ≠ RSTDEF ∧ (inputs n).rising = true)
    (hq : ∀ n, (inputs n).swrst ≠ RSTDEF) {a c : ℕ}
    (ha : margin (after RSTDEF b reset inputs a) = SAMPLES) (hac : a ≤ c)
    (hc : (after RSTDEF b reset inputs (c + 1)).state ≠ (after RSTDEF b reset inputs a).state) :
    32 ≤ (opposed inputs (after RSTDEF b reset inputs)
      (after RSTDEF b reset inputs a).state a (c + 1)).card := by
  by_contra hfew
  exact hc (held_of_few hr hi hq ha (Nat.le_add_right_of_le hac)
    (by simp only [SAMPLES]; omega)).1

theorem first_flip_needs_samples (hr : reset.rst = RSTDEF)
    (hi : ∀ n, (inputs n).rst ≠ RSTDEF ∧ (inputs n).rising = true)
    (hq : ∀ n, (inputs n).swrst ≠ RSTDEF) {c : ℕ}
    (hc : (after RSTDEF b reset inputs (c + 1)).state ≠ (after RSTDEF b reset inputs 0).state) :
    32 ≤ (opposed inputs (after RSTDEF b reset inputs)
      (after RSTDEF b reset inputs 0).state 0 (c + 1)).card :=
  flip_needs_samples hr hi hq (margin_reset hr) c.zero_le hc

end Run

theorem debounces (RSTDEF : StdLogic) (b : Buffer) (reset : Wake) (inputs : ℕ → Wake)
    (hr : reset.rst = RSTDEF)
    (hi : ∀ n, (inputs n).rst ≠ RSTDEF ∧ (inputs n).rising = true) :
    let trace := after RSTDEF b reset inputs
    (∀ n, ¬ (redge (trace n) = .one ∧ fedge (trace n) = .one)) ∧
    (∀ n, redge (trace n) = .one → redge (trace (n + 1)) ≠ .one) ∧
    (∀ n, fedge (trace n) = .one → fedge (trace (n + 1)) ≠ .one) ∧
    (∀ n, (pulses trace n).IsChain (· ≠ ·) ∧ ∀ p ∈ (pulses trace n).head?, p = .rise) ∧
    (∀ n, dout (trace n) = .one ↔
      ∃ m, m < n ∧ redge (trace m) = .one ∧ ∀ k, m < k → k < n → fedge (trace k) ≠ .one) ∧
    ((∀ n, (inputs n).swrst ≠ RSTDEF) →
      ∀ a c, a < c → (trace (a + 1)).state ≠ (trace a).state →
        ((trace (c + 1)).state ≠ (trace c).state →
          (∀ k, a < k → k ≤ c → (trace k).state = (trace (a + 1)).state) →
          32 ≤ (opposed inputs trace (trace (a + 1)).state (a + 1) (c + 1)).card) ∧
        ((opposed inputs trace (trace (a + 1)).state (a + 1) (c + 1)).card < 32 →
          (trace (c + 1)).state = (trace (a + 1)).state)) := by
  intro trace
  refine ⟨fun n hn => ?_,fun n hn => ?_,fun n hn => ?_,fun n => ?_,fun n => ?_,
    fun hq a c hac ha => ⟨fun hc hheld => ?_,fun hfew => ?_⟩⟩
  · exact EdgeDetector.not_both _ n
      ⟨(redge_rise hr hi n).mp hn.1,(fedge_fall hr hi n).mp hn.2⟩
  · rw [Ne, redge_rise hr hi, EdgeDetector.rise_once _ ((redge_rise hr hi n).mp hn)]
    exact Bool.false_ne_true
  · rw [Ne, fedge_fall hr hi, EdgeDetector.fall_once _ ((fedge_fall hr hi n).mp hn)]
    exact Bool.false_ne_true
  · rw [pulses_eq hr hi]
    exact EdgeDetector.alternate _ n
  · rw [dout, dff3_delayed hr hi, EdgeDetector.delayed_iff]
    simp only [trace, redge_rise hr hi, Ne, fedge_fall hr hi, Bool.not_eq_true]
  · exact flip_needs_samples hr hi hq (margin_of_change hr hi hq ha) hac
      fun he => hc (he.trans (hheld c hac le_rfl).symm)
  · by_contra hne
    exact absurd hfew
      (Nat.not_lt.mpr (flip_needs_samples hr hi hq (margin_of_change hr hi hq ha) hac hne))

def pressed (n : ℕ) : Wake := ⟨.zero,true,.one,.zero,if n < 40 then .one else .zero⟩

def pressedTrace : ℕ → Buffer :=
  after .one ⟨0,.U,.U,.U,.U,.U⟩ ⟨.one,false,.zero,.zero,.zero⟩ pressed

theorem debounces_pressed :
    (∃ m, m < 75 ∧ redge (pressedTrace m) = .one ∧
      ∀ k, m < k → k < 75 → fedge (pressedTrace k) ≠ .one) ∧
    32 ≤ (opposed pressed pressedTrace .one 34 74).card := by
  obtain ⟨-,-,-,-,hd,hs⟩ := debounces .one ⟨0,.U,.U,.U,.U,.U⟩ ⟨.one,false,.zero,.zero,.zero⟩
    pressed rfl fun n => ⟨by simp [pressed],rfl⟩
  have hheld : ∀ k < 74, 33 < k → (pressedTrace k).state = (pressedTrace 34).state := by
    decide +kernel
  have hc := (hs (fun n => by simp [pressed]) 33 73 (by decide) (by decide +kernel)).1
    (by decide +kernel) fun k hk hk' => hheld k (Nat.lt_succ_of_le hk') hk
  exact ⟨(hd 75).mp (by decide +kernel),hc⟩

end SyncBuffer
