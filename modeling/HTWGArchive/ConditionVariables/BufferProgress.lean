import HTWGArchive.ConditionVariables.BufferDelivery
import Mathlib.Algebra.BigOperators.Fin

namespace BoundedBuffer

open Monitor

variable {o : Options} {s : Shared o} {t : Thread o} {l : Local}

-- Threads that will signal `fill` or look into the buffer before they sleep.
def creditFill : Local → ℕ
  | .producer _ _ .signal => 1
  | .endOfStreams _ .signal => 1
  | .consumer _ _ .test => 1
  | .consumer _ _ .access => 1
  | _ => 0

def creditEmpty : Local → ℕ
  | .consumer _ _ .signal => 1
  | .producer _ _ .test => 1
  | .producer _ _ .access => 1
  | .endOfStreams _ .test => 1
  | .endOfStreams _ .access => 1
  | _ => 0

def fillAccount (o : Options) : Account Local (Shared o) where
  stock s := s.buffer.numFull
  credit := creditFill
  rests l := ∃ tmp consumedCount, l = .consumer tmp consumedCount .test
  credit_pos := by
    rintro l ⟨tmp, consumedCount, rfl⟩
    exact Nat.le_refl 1

def emptyAccount (o : Options) : Account Local (Shared o) where
  stock s := o.max - s.buffer.numFull
  credit := creditEmpty
  rests l := (∃ id i, l = .producer id i .test) ∨ ∃ i, l = .endOfStreams i .test
  credit_pos := by
    rintro l (⟨id, i, rfl⟩ | ⟨i, rfl⟩)
    · exact Nat.le_refl 1
    · exact Nat.le_refl 1

-- What a loop over `total` items still costs at a point of item `i`.
def Point.left (total i : ℕ) : Point → ℕ
  | .loop => 14 * (total - i)
  | .test => 14 * (total - i - 1) + 13
  | .access => 14 * (total - i - 1) + 12
  | .signal => 14 * (total - i - 1) + 4
  | .unlock => 14 * (total - i - 1) + 1

def Local.left (o : Options) : Local → ℕ
  | .producer _ i p => p.left o.loops i
  | .consumer _ _ .loop => 10
  | .consumer _ _ .test => 9
  | .consumer _ _ .access => 8
  | .consumer _ _ .signal => 14
  | .consumer _ _ .unlock => 11
  | .joinProducers i => (o.producers - i) + 15 * o.consumers + 2
  | .endOfStreams i p => o.consumers + 1 + p.left o.consumers i
  | .joinConsumers i _ => o.consumers - i
  | .exited => 0

-- Every value in the buffer lets a consumer go round once.
def reserve (s : Shared o) : ℕ :=
  7 * s.buffer.numFull

-- The three rules for what a thread does at its point, each for one use of the library.
structure Runs (o : Options) (l : Local) (s : Shared o) (a : Act o) : Prop where
  fill : Wakes .fill (fillAccount o) l s a
  empty : Wakes .empty (emptyAccount o) l s a
  left : Spends reserve (Local.left o) l s a

structure FillerCosts (o : Options) (here : Point → Local) (next : Local) (rest : ℕ) : Prop where
  fill : ∀ p, p ≠ .loop → creditFill (here p) = if p = .signal then 1 else 0
  empty : ∀ p, p ≠ .loop → creditEmpty (here p) = if p = .test ∨ p = .access then 1 else 0
  rests : (emptyAccount o).rests (here .test)
  nextFill : creditFill next = 0
  nextEmpty : creditEmpty next = 0
  test : (here .test).left o = rest + 13
  access : (here .access).left o = rest + 12
  signal : (here .signal).left o = rest + 4
  unlock : (here .unlock).left o = rest + 1
  next : next.left o = rest

variable {value : ℤ} {here : Point → Local} {next : Local} {rest : ℕ} {p : Point}

theorem FillerCosts.runs (h : FillerCosts o here next rest) (hp : p ≠ .loop)
    (hgood : ∃ queue, Good o queue s) (hlt : p = .access → s.buffer.numFull < o.max)
    (hvalue : value ≠ BoundedBuffer.empty) (ht : ∀ u, t = some u → u.val < o.producers)
    (hmark : t ≠ none → value ≠ endOfStream) :
    Runs o (here p) s (filling t value here next s p) := by
  obtain ⟨queue, hgood⟩ := hgood
  cases p with
  | loop => exact absurd rfl hp
  | test =>
    simp only [filling]
    split
    · rename_i hfull
      refine ⟨?_, ?_, ?_⟩
      · simp [Wakes, fillAccount, h.fill]
      · refine ⟨?_, h.rests⟩
        simp [emptyAccount, hfull]
      · simp [Spends, h.test]
    · refine ⟨?_, ?_, ?_⟩
      · simp [Wakes, fillAccount, h.fill]
      · simp [Wakes, emptyAccount, h.empty]
      · simp [Spends, h.test, h.access]
  | access =>
    have hlt' := hlt rfl
    obtain ⟨buffer, heq, hnum, -⟩ := hgood.fill hlt' hvalue ht hmark
    simp only [filling, heq]
    refine ⟨?_, ?_, ?_⟩
    · simp [Wakes, fillAccount, h.fill, hnum]
    · simp only [Wakes, emptyAccount, h.empty .access (by simp), h.empty .signal (by simp), hnum]
      simp
      omega
    · simp only [Spends, h.access, h.signal, reserve, hnum]
      omega
  | signal =>
    refine ⟨?_, ?_, ?_⟩
    · simp [Wakes, filling, fillAccount, h.fill]
    · simp [Wakes, filling, emptyAccount, h.empty]
    · simp [Spends, filling, h.signal, h.unlock]
  | unlock =>
    refine ⟨?_, ?_, ?_⟩
    · simp [Wakes, filling, fillAccount, h.fill, h.nextFill]
    · simp [Wakes, filling, emptyAccount, h.empty, h.nextEmpty]
    · simp [Spends, filling, h.unlock, h.next]

theorem producer_costs (o : Options) (id i : ℕ) :
    FillerCosts o (.producer id i) (.producer id (i + 1) .loop) (14 * (o.loops - i - 1)) := by
  refine ⟨?_, ?_, Or.inl ⟨id, i, rfl⟩, rfl, rfl, rfl, rfl, rfl, rfl, ?_⟩
  · intro p hp
    cases p <;> simp [creditFill]
  · intro p hp
    cases p <;> simp [creditEmpty]
  · rw [Local.left, Point.left, Nat.sub_sub]

theorem endOfStreams_costs (o : Options) (i : ℕ) :
    FillerCosts o (.endOfStreams i) (.endOfStreams (i + 1) .loop)
      (o.consumers + 1 + 14 * (o.consumers - i - 1)) := by
  refine ⟨?_, ?_, Or.inr ⟨i, rfl⟩, rfl, rfl, rfl, rfl, rfl, rfl, ?_⟩
  · intro p hp
    cases p <;> simp [creditFill]
  · intro p hp
    cases p <;> simp [creditEmpty]
  · rw [Local.left, Point.left, Nat.sub_sub]

theorem producer_runs (hfits : Fits o) {id i : ℕ} (h : (spec o).At t (.producer id i p) s) :
    Runs o (.producer id i p) s (act o t (.producer id i p) s) := by
  obtain ⟨hgood, ⟨⟨u, rfl, rfl⟩, hlt, hi, hmine⟩, hknows⟩ := h
  simp only [act]
  by_cases hp : p = .loop
  · subst hp
    unfold producer
    split
    · exact ⟨trivial, trivial, trivial⟩
    · rename_i hmore
      have hmore' : i < o.loops := by simpa using hmore
      refine ⟨Nat.zero_le _, Nat.zero_le _, ?_⟩
      simp only [filling, Spends, Local.left, Point.left]
      omega
  · have hi' : i < o.loops := by
      rw [if_neg hp] at hi
      exact hi
    rw [producer, if_neg (fun hend => hp hend.1)]
    refine (producer_costs o u i).runs hp hgood ?_ ?_ ?_ ?_
    · rintro rfl
      exact hknows hp
    · have hnonneg := item_nonneg hfits hlt i
      simp only [BoundedBuffer.empty]
      omega
    · intro w hw
      cases hw
      exact hlt
    · intro _
      have hnonneg := item_nonneg hfits hlt i
      simp only [endOfStream]
      omega

theorem endOfStreams_runs {i : ℕ} (h : (spec o).At t (.endOfStreams i p) s) :
    Runs o (.endOfStreams i p) s (act o t (.endOfStreams i p) s) := by
  obtain ⟨hgood, ⟨rfl, hi, -⟩, hknows⟩ := h
  simp only [act]
  by_cases hp : p = .loop
  · subst hp
    split
    · refine ⟨Nat.le_refl _, Nat.le_refl _, ?_⟩
      simp only [Spends, Local.left, Point.left]
      omega
    · rename_i hmore
      have hmore' : i < o.consumers := by simpa using hmore
      refine ⟨Nat.zero_le _, Nat.zero_le _, ?_⟩
      simp only [filling, Spends, Local.left, Point.left]
      omega
  · have hi' : i < o.consumers := by
      rw [if_neg hp] at hi
      exact hi
    rw [if_neg (fun hend => hp hend.1)]
    refine (endOfStreams_costs o i).runs hp hgood ?_ endOfStream_ne (fun _ hu => by cases hu)
      (fun hnone => absurd rfl hnone)
    rintro rfl
    exact hknows hp

theorem consumer_runs {tmp : ℤ} {consumedCount : ℕ}
    (h : (spec o).At t (.consumer tmp consumedCount p) s) :
    Runs o (.consumer tmp consumedCount p) s (act o t (.consumer tmp consumedCount p) s) := by
  obtain ⟨⟨queue, hgood⟩, ⟨hid, -⟩, hknows⟩ := h
  simp only [act]
  cases p with
  | loop =>
    simp only [consumer]
    split
    · exact ⟨Nat.zero_le _, Nat.zero_le _, by simp [Spends, Local.left]⟩
    · exact ⟨trivial, trivial, trivial⟩
  | test =>
    simp only [consumer]
    split
    · rename_i hnone
      refine ⟨?_, ?_, ?_⟩
      · exact ⟨hnone, tmp, consumedCount, rfl⟩
      · simp [Wakes, emptyAccount, creditEmpty]
      · simp [Spends, Local.left]
    · exact ⟨Nat.le_refl _, Nat.le_refl _, by simp [Spends, Local.left]⟩
  | access =>
    have hlt : 0 < s.buffer.numFull := hknows (by simp [spec, Local.inside])
    obtain ⟨value, buffer, rest, hget, hnum, -⟩ := hgood.get hlt hid
    simp only [consumer, hget]
    refine ⟨?_, ?_, ?_⟩
    · simp only [Wakes, fillAccount, creditFill]
      omega
    · simp only [Wakes, emptyAccount, creditEmpty]
      omega
    · simp only [Spends, reserve, Local.left]
      omega
  | signal =>
    refine ⟨?_, ?_, ?_⟩
    · simp [Wakes, consumer, fillAccount, creditFill]
    · simp [Wakes, consumer, emptyAccount, creditEmpty]
    · simp [Spends, consumer, Local.left]
  | unlock =>
    refine ⟨?_, ?_, ?_⟩
    · simp [Wakes, consumer, fillAccount, creditFill]
    · simp [Wakes, consumer, emptyAccount, creditEmpty]
    · simp [Spends, consumer, Local.left]

theorem runs (hfits : Fits o) (h : (spec o).At t l s) : Runs o l s (act o t l s) := by
  cases l with
  | producer id i p => exact producer_runs hfits h
  | consumer tmp consumedCount p => exact consumer_runs h
  | joinProducers i =>
    simp only [act]
    split
    · rename_i hmore
      refine ⟨fun _ => Nat.le_refl _, fun _ => Nat.le_refl _, fun _ => ?_⟩
      simp only [Local.left]
      omega
    · refine ⟨Nat.le_refl _, Nat.le_refl _, ?_⟩
      simp only [Spends, Local.left, Point.left]
      omega
  | endOfStreams i p => exact endOfStreams_runs h
  | joinConsumers i counts =>
    simp only [act]
    split
    · rename_i hmore
      refine ⟨fun _ => Nat.le_refl _, fun _ => Nat.le_refl _, fun _ => ?_⟩
      simp only [Local.left]
      omega
    · exact ⟨trivial, trivial, trivial⟩
  | exited => exact h.own.elim

theorem awake_start (o : Options) (c : Condition) (a : Account Local (Shared o)) :
    Awake c a (start o) := by
  have hrunning : ∀ t l, (start o).threads t ≠ .asleep c l := by
    intro t l
    cases t with
    | none => simp [start]
    | some u =>
      simp only [start]
      split <;> simp
  refine ⟨fun t l ht => absurd ht (hrunning t l), ?_⟩
  rintro ⟨t, l, ht⟩
  exact absurd ht (hrunning t l)

theorem sleepers_start (o : Options) : Sleepers (Local.left o) (start o) := by
  intro t c l ht
  have hawake := awake_start o c ⟨fun _ => 0, fun _ => 1, fun l => 1 ≤ l.left o, by simp⟩
  exact hawake.rests t l ht

-- All that may happen without a spurious wakeup.
def cost (o : Options) : ℕ :=
  o.producers * (14 * o.loops + 1) + 25 * o.consumers + 2

theorem left_start (o : Options) : (start o).left reserve (Local.left o) = cost o := by
  rw [State.left, Fintype.sum_option, Fin.sum_univ_add]
  have hproducers : ∀ u : Fin o.producers, ((start o).threads
      (some (Fin.castAdd o.consumers u))).left (Local.left o) = 14 * o.loops := by
    intro u
    simp [start, Status.left, Local.left, Point.left]
  have hconsumers : ∀ u : Fin o.consumers, ((start o).threads
      (some (Fin.natAdd o.producers u))).left (Local.left o) = 10 := by
    intro u
    simp [start, Status.left, Local.left]
  simp only [hproducers, hconsumers, Finset.sum_const, Finset.card_univ, Fintype.card_fin,
    smul_eq_mul]
  simp only [start, reserve, Buffer.init, Status.left, Local.left, cost]
  have hsplit : o.producers * (14 * o.loops + 1) = o.producers * (14 * o.loops) + o.producers := by
    rw [Nat.mul_add, Nat.mul_one]
  omega

theorem credit_outside (h : ¬ l.inside) : creditFill l = 0 ∧ creditEmpty l = 0 := by
  cases l with
  | producer id i p =>
    obtain rfl : p = .loop := not_not.mp h
    exact ⟨rfl, rfl⟩
  | consumer tmp consumedCount p =>
    obtain rfl : p = .loop := not_not.mp h
    exact ⟨rfl, rfl⟩
  | endOfStreams i p =>
    obtain rfl : p = .loop := not_not.mp h
    exact ⟨rfl, rfl⟩
  | _ => exact ⟨rfl, rfl⟩

variable {s : State (Thread o) Local (Shared o) Condition}

theorem sum_credit_of_stuck (hinv : (spec o).Invariant s) (hfits : Fits o)
    (hstuck : ∀ s', ¬ Step (act o) s s') {credit : Local → ℕ}
    (hzero : ∀ l : Local, ¬ l.inside → credit l = 0) :
    ∑ t, (s.threads t).credit credit = 0 := by
  have hfree := hinv.free_of_stuck (keeps hfits) hstuck
  apply Finset.sum_eq_zero
  intro t _
  rcases hinv.idle_of_stuck (keeps hfits) hstuck t with ⟨c, l, ht⟩ | ⟨l, ht, -⟩
  · rw [ht]
    rfl
  · rw [ht]
    apply hzero
    intro hin
    have howner := (hinv.owner_iff ht).mp hin
    rw [hfree] at howner
    exact absurd howner.symm (Option.some_ne_none t)

-- In a stuck state a thread has ended or sleeps at the condition of its kind.
structure Stuck (s : State (Thread o) Local (Shared o) Condition) : Prop where
  asleepFill : ∀ t l, s.threads t = .asleep .fill l → (fillAccount o).rests l
  asleepEmpty : ∀ t l, s.threads t = .asleep .empty l → (emptyAccount o).rests l
  drained : (∃ t l, s.threads t = .asleep .fill l) → s.shared.buffer.numFull = 0
  filled : (∃ t l, s.threads t = .asleep .empty l) → o.max ≤ s.shared.buffer.numFull
  idle : ∀ t, Idle (act o) s t

theorem stuck_of_run (hfits : Fits o) {n k : ℕ} (h : Run (act o) (start o) n k s)
    (hstuck : ∀ s', ¬ Step (act o) s s') : Stuck s := by
  have hinv := (invariant_start o).run (keeps hfits) h
  have hfill := (awake_start o .fill (fillAccount o)).run (invariant_start o) (keeps hfits)
    (fun t l data hat => (runs hfits hat).fill) h
  have hempty := (awake_start o .empty (emptyAccount o)).run (invariant_start o) (keeps hfits)
    (fun t l data hat => (runs hfits hat).empty) h
  refine ⟨hfill.rests, hempty.rests, ?_, ?_, hinv.idle_of_stuck (keeps hfits) hstuck⟩
  · intro hsleeps
    have hzero := sum_credit_of_stuck hinv hfits hstuck (fun l hl => (credit_outside hl).1)
    exact Nat.le_zero.mp ((hfill.covered hsleeps).trans_eq hzero)
  · intro hsleeps
    have hzero := sum_credit_of_stuck hinv hfits hstuck (fun l hl => (credit_outside hl).2)
    exact Nat.sub_eq_zero_iff_le.mp (Nat.le_zero.mp ((hempty.covered hsleeps).trans_eq hzero))

theorem filling_ne_join (t : Thread o) (value : ℤ) (here : Point → Local) (next : Local)
    (s : Shared o) (p : Point) (u : Thread o) (resume : Local → Local) :
    filling t value here next s p ≠ .join u resume := by
  cases p with
  | test =>
    simp only [filling]
    split <;> simp
  | access =>
    simp only [filling]
    split <;> simp
  | _ => simp [filling]

theorem producer_stuck (h : Stuck s) (hinv : (spec o).Invariant s)
    {w : Fin (o.producers + o.consumers)} (hw : w.val < o.producers) :
    (∃ i, s.threads (some w) = .asleep .empty (.producer w i .test)) ∨
      ∃ l, s.threads (some w) = .running l ∧ act o (some w) l s.shared = .ended := by
  have hown := hinv.own (some w)
  rcases h.idle (some w) with ⟨c, l, ht⟩ | ⟨l, ht, hl⟩
  · rw [ht] at hown
    cases c with
    | fill =>
      obtain ⟨tmp, consumedCount, rfl⟩ := h.asleepFill _ l ht
      obtain ⟨⟨u, hu, hle⟩, -⟩ := hown
      cases hu
      omega
    | empty =>
      rcases h.asleepEmpty _ l ht with ⟨id, i, rfl⟩ | ⟨i, rfl⟩
      · obtain ⟨⟨u, hu, rfl⟩, -⟩ := hown
        cases hu
        exact Or.inl ⟨i, ht⟩
      · exact absurd hown.1 (Option.some_ne_none w)
  · refine Or.inr ⟨l, ht, hl.resolve_right ?_⟩
    rintro ⟨u, resume, hjoin, -⟩
    rw [ht] at hown
    cases l with
    | producer id i p =>
      simp only [act, producer] at hjoin
      split at hjoin
      · cases hjoin
      · exact filling_ne_join _ _ _ _ _ _ _ _ hjoin
    | consumer tmp consumedCount p =>
      obtain ⟨⟨u', hu, hle⟩, -⟩ := hown
      cases hu
      omega
    | joinProducers i => exact absurd hown.1 (Option.some_ne_none w)
    | endOfStreams i p => exact absurd hown.1 (Option.some_ne_none w)
    | joinConsumers i counts => exact absurd hown.1 (Option.some_ne_none w)
    | exited => exact hown

theorem consumer_ne_join (t : Thread o) (tmp : ℤ) (consumedCount : ℕ) (s : Shared o) (p : Point)
    (u : Thread o) (resume : Local → Local) :
    consumer t tmp consumedCount s p ≠ .join u resume := by
  cases p with
  | loop =>
    simp only [consumer]
    split <;> simp
  | test =>
    simp only [consumer]
    split <;> simp
  | access =>
    simp only [consumer]
    split <;> simp
  | _ => simp [consumer]

theorem consumer_stuck (h : Stuck s) (hinv : (spec o).Invariant s)
    {w : Fin (o.producers + o.consumers)} (hw : o.producers ≤ w.val) :
    (∃ tmp consumedCount, s.threads (some w) = .asleep .fill (.consumer tmp consumedCount .test)) ∨
      ∃ l, s.threads (some w) = .running l ∧ act o (some w) l s.shared = .ended := by
  have hown := hinv.own (some w)
  rcases h.idle (some w) with ⟨c, l, ht⟩ | ⟨l, ht, hl⟩
  · rw [ht] at hown
    cases c with
    | fill =>
      obtain ⟨tmp, consumedCount, rfl⟩ := h.asleepFill _ l ht
      exact Or.inl ⟨tmp, consumedCount, ht⟩
    | empty =>
      rcases h.asleepEmpty _ l ht with ⟨id, i, rfl⟩ | ⟨i, rfl⟩
      · obtain ⟨⟨u, hu, rfl⟩, hlt, -⟩ := hown
        cases hu
        omega
      · exact absurd hown.1 (Option.some_ne_none w)
  · refine Or.inr ⟨l, ht, hl.resolve_right ?_⟩
    rintro ⟨u, resume, hjoin, -⟩
    rw [ht] at hown
    cases l with
    | producer id i p =>
      obtain ⟨⟨u', hu, rfl⟩, hlt, -⟩ := hown
      cases hu
      omega
    | consumer tmp consumedCount p => exact consumer_ne_join _ _ _ _ _ _ _ hjoin
    | joinProducers i => exact absurd hown.1 (Option.some_ne_none w)
    | endOfStreams i p => exact absurd hown.1 (Option.some_ne_none w)
    | joinConsumers i counts => exact absurd hown.1 (Option.some_ne_none w)
    | exited => exact hown

theorem count_mine {t : Thread o} {tmp : ℤ} {consumedCount : ℕ} {p : Point} {s : Shared o}
    (h : own o t (.consumer tmp consumedCount p) s) :
    (mine s.got t).count endOfStream = if tmp = endOfStream then 1 else 0 := by
  obtain ⟨-, -, -, ns, hmine, hns⟩ := h
  rw [hmine, List.count_append, List.count_eq_zero_of_not_mem hns, Nat.zero_add]
  split
  · exact List.count_singleton_self
  · rfl

theorem sum_map_lt {J : Type*} {l : List J} {f : J → ℕ} (hle : ∀ j ∈ l, f j ≤ 1)
    (hzero : ∃ j ∈ l, f j = 0) : (l.map f).sum < l.length := by
  induction l with
  | nil =>
    obtain ⟨j, hj, -⟩ := hzero
    exact absurd hj List.not_mem_nil
  | cons j l ih =>
    have hall : ∀ i ∈ l, f i ≤ 1 := fun i hi => hle i (List.mem_cons_of_mem _ hi)
    have hsum : (l.map f).sum ≤ l.length := by
      have hcard := List.sum_le_card_nsmul (l.map f) 1 (by simpa using hall)
      simpa using hcard
    rw [List.map_cons, List.sum_cons, List.length_cons]
    obtain ⟨i, hi, hi0⟩ := hzero
    rcases List.mem_cons.mp hi with rfl | hmem
    · omega
    · have hrest := ih hall ⟨i, hmem, hi0⟩
      have hj := hle j List.mem_cons_self
      omega

-- A consumer that still sleeps has not had its end marker.
theorem count_got_lt {s : State (Thread o) Local (Shared o) Condition} (h : Stuck s)
    (hinv : (spec o).Invariant s) (hsleeps : ∃ t l, s.threads t = .asleep .fill l) :
    (s.shared.got.map Prod.snd).count endOfStream < o.consumers := by
  obtain ⟨queue, hgood⟩ := hinv.good
  rw [(got_perm hgood.getters).count_eq, List.count_flatMap]
  have hlt := @sum_map_lt _ (List.finRange o.consumers)
    (List.count endOfStream ∘ fun j => mine s.shared.got (some (Fin.natAdd o.producers j))) ?_ ?_
  · rwa [List.length_finRange] at hlt
  · intro j _
    have hown := hinv.own (some (Fin.natAdd o.producers j))
    rcases consumer_stuck h hinv (w := Fin.natAdd o.producers j) (Nat.le_add_right _ _) with
      ⟨tmp, consumedCount, ht⟩ | ⟨l, ht, hended⟩
    · rw [ht] at hown
      rw [Function.comp_apply, count_mine hown]
      split
      · exact Nat.le_refl 1
      · exact Nat.zero_le 1
    · rw [ht] at hown
      have hcollected := consumer_ended (Nat.le_add_right _ _) hended hown
      rw [Function.comp_apply, count_mine_of_collected hcollected]
  · obtain ⟨t, l, ht⟩ := hsleeps
    obtain ⟨tmp, consumedCount, rfl⟩ := h.asleepFill t l ht
    have hown := hinv.own t
    rw [ht] at hown
    obtain ⟨⟨u, rfl, hu⟩, htmp, -⟩ := id hown
    refine ⟨⟨u.val - o.producers, by omega⟩, List.mem_finRange _, ?_⟩
    have heq : Fin.natAdd o.producers (⟨u.val - o.producers, by omega⟩ : Fin o.consumers) = u :=
      Fin.ext (Nat.add_sub_cancel' hu)
    rw [Function.comp_apply, heq, count_mine hown, if_neg (htmp (Or.inl rfl))]

theorem count_got_of_ended {s : State (Thread o) Local (Shared o) Condition}
    (hinv : (spec o).Invariant s) (hended : ∀ j : Fin o.consumers, ∃ l,
      s.threads (some (Fin.natAdd o.producers j)) = .running l ∧
        act o (some (Fin.natAdd o.producers j)) l s.shared = .ended) :
    (s.shared.got.map Prod.snd).count endOfStream = o.consumers := by
  obtain ⟨queue, hgood⟩ := hinv.good
  apply count_got hgood.getters
  intro j
  obtain ⟨l, ht, hl⟩ := hended j
  have hown := hinv.own (some (Fin.natAdd o.producers j))
  rw [ht] at hown
  exact ⟨_, consumer_ended (Nat.le_add_right _ _) hl hown⟩

def Ended (s : State (Thread o) Local (Shared o) Condition) (t : Thread o) : Prop :=
  ∃ l, s.threads t = .running l ∧ act o t l s.shared = .ended

-- Where `main` can be stuck.
inductive MainStuck (s : State (Thread o) Local (Shared o) Condition) : Prop where
  | fills {i : ℕ} : s.threads none = .asleep .empty (.endOfStreams i .test) → i < o.consumers →
      Closed s.shared i → MainStuck s
  | joinsProducer {i : ℕ} (h : i < o.producers) : Closed s.shared 0 →
      ¬ Ended s (some (Fin.castAdd o.consumers ⟨i, h⟩)) → MainStuck s
  | joinsConsumer {i : ℕ} (h : i < o.consumers) : Closed s.shared o.consumers →
      Full s.shared → ¬ Ended s (some (Fin.natAdd o.producers ⟨i, h⟩)) → MainStuck s
  | ended {counts : List ℤ} : s.threads none = .running (.joinConsumers o.consumers counts) →
      Closed s.shared o.consumers → Full s.shared → MainStuck s

theorem main_stuck (h : Stuck s) (hinv : (spec o).Invariant s) : MainStuck s := by
  have hown := hinv.own none
  rcases h.idle none with ⟨c, l, ht⟩ | ⟨l, ht, hl⟩
  · rw [ht] at hown
    cases c with
    | fill =>
      obtain ⟨tmp, consumedCount, rfl⟩ := h.asleepFill _ l ht
      obtain ⟨⟨u, hu, -⟩, -⟩ := hown
      cases hu
    | empty =>
      rcases h.asleepEmpty _ l ht with ⟨id, i, rfl⟩ | ⟨i, rfl⟩
      · obtain ⟨⟨u, hu, -⟩, -⟩ := hown
        cases hu
      · obtain ⟨-, hi, -, hclosed⟩ := hown
        exact .fills ht hi hclosed
  · have hnone : ∀ u : Fin (o.producers + o.consumers), (∀ k, s.threads (some u) = .running k →
        act o (some u) k s.shared ≠ .ended) → ¬ Ended s (some u) := by
      rintro u hu ⟨k, hk, hended⟩
      exact hu k hk hended
    rw [ht] at hown
    cases l with
    | producer id i p =>
      obtain ⟨⟨u, hu, -⟩, -⟩ := hown
      cases hu
    | consumer tmp consumedCount p =>
      obtain ⟨⟨u, hu, -⟩, -⟩ := hown
      cases hu
    | joinProducers i =>
      obtain ⟨-, -, hclosed, -⟩ := hown
      simp only [act] at hl
      split at hl
      · rename_i hmore
        rcases hl with hend | ⟨u, next, hjoin, hu⟩
        · cases hend
        · cases hjoin
          exact .joinsProducer hmore hclosed (hnone _ hu)
      · rcases hl with hend | ⟨u, next, hjoin, -⟩
        · cases hend
        · cases hjoin
    | endOfStreams i p =>
      simp only [act] at hl
      split at hl
      · rcases hl with hend | ⟨u, next, hjoin, -⟩
        · cases hend
        · cases hjoin
      · rcases hl with hend | ⟨u, next, hjoin, -⟩
        · exact absurd hend (filling_ne_ended _ _ _ _ _ _)
        · exact absurd hjoin (filling_ne_join _ _ _ _ _ _ _ _)
    | joinConsumers i counts =>
      obtain ⟨-, hi, hfull, hclosed, -⟩ := hown
      simp only [act] at hl
      split at hl
      · rename_i hmore
        rcases hl with hend | ⟨u, next, hjoin, hu⟩
        · cases hend
        · cases hjoin
          exact .joinsConsumer hmore hclosed hfull (hnone _ hu)
      · rename_i hall
        obtain rfl : i = o.consumers := le_antisymm hi (Nat.not_lt.mp hall)
        exact .ended ht hclosed hfull
    | exited => exact hown.elim

theorem not_asleep_fill (h : Stuck s) (hinv : (spec o).Invariant s) :
    ¬ ∃ t l, s.threads t = .asleep .fill l := by
  intro hsleeps
  have hlt := count_got_lt h hinv hsleeps
  have hdrained := h.drained hsleeps
  have hawake : ∀ t l, s.threads t ≠ .asleep .empty l := by
    intro t l ht
    have hfilled := h.filled ⟨t, l, ht⟩
    have hmax := o.max_pos
    omega
  obtain ⟨queue, hgood⟩ := hinv.good
  have hqueue : queue = [] := List.length_eq_zero_iff.mp (hgood.numFull.symm.trans hdrained)
  have hall : (s.shared.got.map Prod.snd).count endOfStream =
      (s.shared.filled.map Prod.snd).count endOfStream := by
    rw [hgood.order, hqueue, List.append_nil]
  cases main_stuck h hinv with
  | fills ht => exact hawake _ _ ht
  | joinsProducer hi hclosed hrest =>
    rcases producer_stuck h hinv (w := Fin.castAdd o.consumers ⟨_, hi⟩) hi with ⟨j, ht⟩ | hended
    · exact hawake _ _ ht
    · exact hrest hended
  | joinsConsumer hi hclosed =>
    rw [hall, hgood.count_filled hclosed] at hlt
    omega
  | ended ht hclosed =>
    rw [hall, hgood.count_filled hclosed] at hlt
    omega

theorem ended_of_stuck (h : Stuck s) (hinv : (spec o).Invariant s) (hconsumers : 0 < o.consumers) :
    (∀ t, Ended s t) ∧ ∃ counts, s.threads none = .running (.joinConsumers o.consumers counts) := by
  have hawake := not_asleep_fill h hinv
  have hended : ∀ w : Fin (o.producers + o.consumers), o.producers ≤ w.val → Ended s (some w) := by
    intro w hw
    rcases consumer_stuck h hinv hw with ⟨tmp, consumedCount, ht⟩ | hended
    · exact absurd ⟨_, _, ht⟩ hawake
    · exact hended
  have hcount := count_got_of_ended hinv (fun j => hended _ (Nat.le_add_right _ _))
  obtain ⟨queue, hgood⟩ := hinv.good
  have hle : ∀ n, Closed s.shared n → o.consumers ≤ n := by
    intro n hclosed
    have hfilled := hgood.count_filled hclosed
    rw [hgood.order, List.count_append, hcount] at hfilled
    omega
  cases main_stuck h hinv with
  | fills ht hi hclosed =>
    have hn := hle _ hclosed
    omega
  | joinsProducer hi hclosed =>
    have hn := hle _ hclosed
    omega
  | joinsConsumer hi _ _ hrest => exact absurd (hended _ (Nat.le_add_right _ _)) hrest
  | @ended counts ht _ hfull =>
    refine ⟨?_, counts, ht⟩
    intro t
    cases t with
    | none => exact ⟨_, ht, by simp [act]⟩
    | some w =>
      rcases Nat.lt_or_ge w.val o.producers with hw | hw
      · rcases producer_stuck h hinv hw with ⟨i, hp⟩ | hended
        · have hown := hinv.own (some w)
          rw [hp] at hown
          obtain ⟨-, -, hi, hmine⟩ := hown
          have hlength := congrArg List.length (hmine.symm.trans (hfull w hw))
          simp only [items_length, Point.after] at hlength
          simp only [reduceCtorEq, if_false] at hi
          omega
        · exact hended
      · exact hended w hw

end BoundedBuffer
