import HTWGArchive.Mlfq.MlfqTicks

namespace Mlfq

open Agenda

variable {o : Options} {jlist : List JobInfo} {n : ℕ} {s s' : State} {due : ℕ → Option ℤ}
  {j q : ℕ} {ran : Option ℕ} {log : List (Option ℕ)}

-- The state in which a pass looks for a job.
def wakeUp (o : Options) (n : ℕ) (s : State) : State :=
  interrupts o (boost o n s)

theorem boost_job (o : Options) (n : ℕ) (s : State) (j : ℕ) : (boost o n s).job j =
    if o.Boosts s.currTime ∧ j < n then (s.job j).boost o else s.job j := by
  rw [boost]
  by_cases hboost : o.Boosts s.currTime
  · rw [if_pos hboost]
    change boostJobs o n s.job j = _
    rw [boostJobs_apply]
    simp [hboost]
  · rw [if_neg hboost, if_neg (fun hc => hboost hc.1)]

theorem boost_frame (o : Options) (n : ℕ) (s : State) :
    (boost o n s).currTime = s.currTime ∧ (boost o n s).ioDone = s.ioDone := by
  rw [boost]
  split_ifs <;> exact ⟨rfl, rfl⟩

theorem wakeUp_frame (o : Options) (n : ℕ) (s : State) :
    (wakeUp o n s).currTime = s.currTime ∧ (wakeUp o n s).ioDone = s.ioDone := by
  obtain ⟨htime, hio⟩ := boost_frame o n s
  obtain ⟨htime', hio', -⟩ := interrupts_frame o ((boost o n s).ioDone (boost o n s).currTime)
    (boost o n s)
  exact ⟨htime'.trans htime, hio'.trans hio⟩

theorem wakeUp_job (o : Options) (n : ℕ) (s : State) (j : ℕ) : ∃ doing,
    (wakeUp o n s).job j = { (boost o n s).job j with doingIo := doing } :=
  (interrupts_frame o ((boost o n s).ioDone (boost o n s).currTime) (boost o n s)).2.2 j

theorem wakeUp_timeLeft (o : Options) (n : ℕ) (s : State) (j : ℕ) :
    ((wakeUp o n s).job j).timeLeft = (s.job j).timeLeft := by
  obtain ⟨doing, hjob⟩ := wakeUp_job o n s j
  rw [hjob]
  change ((boost o n s).job j).timeLeft = _
  rw [boost_job]
  split_ifs
  · exact Job.boost_timeLeft _
  · rfl

theorem Queued.wakeUp (h : Queued o n due s) (hlists : Lists s.ioDone s.currTime due) :
    Queued o n (served s.currTime due) (wakeUp o n s) := by
  obtain ⟨htime, hio⟩ := boost_frame o n s
  have hboost := h.boost.interrupts (by rwa [htime, hio])
  rwa [htime] at hboost

theorem FindQueue_none {queue : ℕ → List ℕ} (h : FindQueue queue q = none) :
    ∀ p ≤ q, queue p = [] := by
  induction q with
  | zero =>
    intro p hp
    obtain rfl := Nat.le_zero.mp hp
    simpa [FindQueue] using h
  | succ q ih =>
    intro p hp
    by_cases hlast : 0 < (queue (q + 1)).length
    · rw [FindQueue, if_pos hlast] at h
      exact absurd h (Option.some_ne_none _)
    · rw [FindQueue, if_neg hlast] at h
      rcases Nat.lt_or_eq_of_le hp with hlt | rfl
      · exact ih h p (by omega)
      · exact List.length_eq_zero_iff.mp (by omega)

theorem FindQueue_some {queue : ℕ → List ℕ} {p : ℕ} (h : FindQueue queue q = some p) :
    p ≤ q ∧ queue p ≠ [] ∧ ∀ r, p < r → r ≤ q → queue r = [] := by
  induction q with
  | zero =>
    by_cases hlast : 0 < (queue 0).length
    · rw [FindQueue, if_pos hlast] at h
      obtain rfl := Option.some.inj h
      exact ⟨Nat.le_refl 0, List.ne_nil_of_length_pos hlast, fun r hr hr' => by omega⟩
    · rw [FindQueue, if_neg hlast] at h
      exact absurd h.symm (Option.some_ne_none _)
  | succ q ih =>
    by_cases hlast : 0 < (queue (q + 1)).length
    · rw [FindQueue, if_pos hlast] at h
      obtain rfl := Option.some.inj h
      exact ⟨Nat.le_refl _, List.ne_nil_of_length_pos hlast, fun r hr hr' => by omega⟩
    · rw [FindQueue, if_neg hlast] at h
      obtain ⟨hle, hne, habove⟩ := ih h
      refine ⟨by omega, hne, fun r hr hr' => ?_⟩
      rcases Nat.lt_or_eq_of_le hr' with hlt | rfl
      · exact habove r hr (by omega)
      · exact List.length_eq_zero_iff.mp (by omega)

-- What a pass does once the interrupts are handled.
inductive Ticked (o : Options) (w : State) : Option ℕ → State → Prop where
  | idle : (∀ q ≤ o.hiQueue, w.queue q = []) →
      Ticked o w none { w with currTime := w.currTime + 1 }
  | run {q j : ℕ} {rest : List ℕ} : w.queue q = j :: rest →
      (∀ p, q < p → p ≤ o.hiQueue → w.queue p = []) → Ticked o w (some j) (runTick o w q j)

theorem tick_ticked (h : Queued o n due (wakeUp o n s)) :
    ∃ ran s', tick o n s = .ok (ran, s') ∧ Ticked o (wakeUp o n s) ran s' := by
  cases hfind : FindQueue (wakeUp o n s).queue o.hiQueue with
  | none =>
    refine ⟨none, { wakeUp o n s with currTime := (wakeUp o n s).currTime + 1 }, ?_,
      .idle (FindQueue_none hfind)⟩
    rw [wakeUp] at hfind
    simp only [tick, hfind]
    rfl
  | some q =>
    obtain ⟨-, hne, habove⟩ := FindQueue_some hfind
    obtain ⟨j, rest, hq⟩ := List.exists_cons_of_ne_nil hne
    obtain ⟨-, -, hleft, hpri⟩ := h.head hq
    have hrun : runJob o (wakeUp o n s) q j = .ok (runTick o (wakeUp o n s) q j) := by
      rw [runJob, if_neg (fun hc => hc hpri), if_neg]
      change ¬ ((wakeUp o n s).job j).timeLeft - 1 < 0
      omega
    refine ⟨some j, runTick o (wakeUp o n s) q j, ?_, .run hq habove⟩
    rw [wakeUp] at hfind hq hrun
    simp only [tick, hfind, hq, hrun]
    rfl

-- The jobs are in order, and the interrupts to come are those that are due.
structure Scheduled (o : Options) (n : ℕ) (due : ℕ → Option ℤ) (s : State) : Prop where
  queued : Queued o n due s
  lists : Lists s.ioDone s.currTime due

theorem Scheduled.wakeUp (h : Scheduled o n due s) :
    Queued o n (served s.currTime due) (wakeUp o n s) ∧
      Lists (wakeUp o n s).ioDone ((wakeUp o n s).currTime + 1) (served s.currTime due) := by
  refine ⟨h.queued.wakeUp h.lists, ?_⟩
  obtain ⟨htime, hio⟩ := wakeUp_frame o n s
  rw [htime, hio]
  exact h.lists.served

def wait (now : ℤ) : Option ℤ → ℤ
  | some t => t - now
  | none => 0

-- The passes that a job can still take up: each of its ticks may be followed by an I/O.
def passesLeft (o : Options) (due : ℕ → Option ℤ) (s : State) (j : ℕ) : ℤ :=
  (s.job j).timeLeft * (1 + o.ioTime) + wait s.currTime (due j)

def potential (o : Options) (n : ℕ) (due : ℕ → Option ℤ) (s : State) : ℤ :=
  ∑ j ∈ Finset.range n, passesLeft o due s j

theorem passesLeft_wakeUp (o : Options) (n : ℕ) (due : ℕ → Option ℤ) (s : State) (j : ℕ) :
    passesLeft o (served s.currTime due) (wakeUp o n s) j = passesLeft o due s j := by
  rw [passesLeft, passesLeft, wakeUp_timeLeft, (wakeUp_frame o n s).1, served]
  by_cases hnow : due j = some s.currTime
  · rw [if_pos hnow, hnow]
    simp [wait]
  · rw [if_neg hnow]

theorem Queued.exists_left (h : Queued o n due s) (hmore : s.finishedJobs < n) :
    ∃ j < n, 0 < (s.job j).timeLeft := by
  by_contra hnone
  have hall : (Finset.range n).filter (fun j => (s.job j).timeLeft = 0) = Finset.range n := by
    refine Finset.filter_true_of_mem (fun j hj => ?_)
    have hjn := Finset.mem_range.mp hj
    have hle := h.left j hjn
    by_contra hne
    exact hnone ⟨j, hjn, by omega⟩
  have hfinished := h.finished
  rw [hall, Finset.card_range] at hfinished
  omega

theorem Queued.passesLeft_nonneg (h : Queued o n due s) (hlists : Lists s.ioDone s.currTime due)
    (hio : 0 ≤ o.ioTime) (hj : j < n) : 0 ≤ passesLeft o due s j := by
  have hleft := h.left j hj
  have hwait : 0 ≤ wait s.currTime (due j) := by
    cases hdue : due j with
    | none => exact Int.le_refl 0
    | some t =>
      have hle := hlists.notPast j t hdue
      simp only [wait]
      omega
  exact Int.add_nonneg (Int.mul_nonneg hleft (by omega)) hwait

theorem Ticked.scheduled {w : State} (h : Ticked o w ran s') (hq : Queued o n due w)
    (hlists : Lists w.ioDone (w.currTime + 1) due) (hio : 0 ≤ o.ioTime)
    (hmore : w.finishedJobs < n) :
    ∃ due', Scheduled o n due' s' ∧ potential o n due' s' < potential o n due w := by
  have hwait : ∀ i t, due i = some t →
      wait (w.currTime + 1) (due i) + 1 = wait w.currTime (due i) := by
    intro i t hi
    rw [hi]
    simp only [wait]
    omega
  have hother : ∀ i, wait (w.currTime + 1) (due i) ≤ wait w.currTime (due i) := by
    intro i
    cases hi : due i with
    | none => exact Int.le_refl _
    | some t =>
      have hstep := hwait i t hi
      rw [hi] at hstep
      omega
  cases h with
  | idle hempty =>
    have hqueued : Queued o n due { w with currTime := w.currTime + 1 } := by
      refine ⟨hq.mem, hq.nodup, hq.pri, hq.waiting, hq.left, fun j hj hd => ?_, fun j t hj => ?_,
        hq.finished⟩
      · obtain ⟨hdoing, hle⟩ := hq.awake j hj hd
        exact ⟨hdoing, Int.le_trans hle (by simp)⟩
      · rcases hq.asleep j t hj with ⟨hdoing, hle⟩ | hbegins
        · exact Or.inl ⟨hdoing, Int.le_trans hle (by simp)⟩
        · exact Or.inr hbegins
    refine ⟨due, ⟨hqueued, hlists⟩, ?_⟩
    obtain ⟨j, hj, hleft⟩ := hq.exists_left hmore
    refine Finset.sum_lt_sum (fun i _ => ?_) ⟨j, Finset.mem_range.mpr hj, ?_⟩
    · exact Int.add_le_add_left (hother i) _
    · cases hdue : due j with
      | none =>
        have hmem := (hq.mem _ j).mpr ⟨hj, hdue, hleft, rfl⟩
        rw [hempty _ (hq.pri j)] at hmem
        exact absurd hmem List.not_mem_nil
      | some t =>
        have hstep := hwait j t hdue
        exact Int.add_lt_add_left (by omega : wait (w.currTime + 1) (due j) < _) _
  | @run q j rest hqueue habove =>
    obtain ⟨hjn, hdue, hleft, hpri⟩ := hq.head hqueue
    have hran := runTick_ran hq hqueue
    refine ⟨Function.update due j (again o w j), ⟨hq.ran hqueue hran, ?_⟩, ?_⟩
    · rw [runTick_currTime, runTick_ioDone]
      cases hagain : again o w j with
      | none =>
        have hsame : Function.update due j none = due := by
          rw [← hdue, Function.update_eq_self]
        rw [hsame]
        exact hlists
      | some t =>
        refine hlists.post hdue ?_ Interrupt.ioDone
        rw [again] at hagain
        split_ifs at hagain
        have ht := Option.some.inj hagain
        omega
    · have hself : passesLeft o (Function.update due j (again o w j)) (runTick o w q j) j <
          passesLeft o due w j := by
        have hwaits : wait (w.currTime + 1) (again o w j) ≤ o.ioTime := by
          rw [again]
          split_ifs
          · simp only [wait]
            omega
          · exact hio
        rw [passesLeft, passesLeft, hran.timeLeft, hran.currTime, Function.update_self, hdue,
          Int.sub_mul, Int.one_mul]
        simp only [wait] at hwaits ⊢
        omega
      refine Finset.sum_lt_sum (fun i _ => ?_) ⟨j, Finset.mem_range.mpr hjn, hself⟩
      rcases eq_or_ne i j with rfl | hne
      · exact Int.le_of_lt hself
      · rw [passesLeft, passesLeft, hran.others i hne, hran.currTime, Function.update_of_ne hne]
        exact Int.add_le_add_left (hother i) _

theorem Scheduled.tick (h : Scheduled o n due s) (hio : 0 ≤ o.ioTime)
    (hmore : s.finishedJobs < n) : ∃ ran s' due', Mlfq.tick o n s = .ok (ran, s') ∧
      Ticked o (Mlfq.wakeUp o n s) ran s' ∧ Scheduled o n due' s' ∧
      potential o n due' s' < potential o n due s := by
  obtain ⟨hq, hlists⟩ := h.wakeUp
  obtain ⟨ran, s', htick, hticked⟩ := tick_ticked hq
  have hmore' : (Mlfq.wakeUp o n s).finishedJobs < n := by
    rw [hq.finished]
    simp only [wakeUp_timeLeft]
    rwa [← h.queued.finished]
  obtain ⟨due', hscheduled, hlt⟩ := hticked.scheduled hq hlists hio hmore'
  refine ⟨ran, s', due', htick, hticked, hscheduled, Int.lt_of_lt_of_le hlt (Int.le_of_eq ?_)⟩
  exact Finset.sum_congr rfl (fun j _ => passesLeft_wakeUp o n due s j)

theorem Scheduled.ticked (h : Scheduled o n due s) (hio : 0 ≤ o.ioTime)
    (hmore : s.finishedJobs < n) (htick : Mlfq.tick o n s = .ok (ran, s')) :
    Ticked o (Mlfq.wakeUp o n s) ran s' ∧ ∃ due', Scheduled o n due' s' := by
  obtain ⟨ran', s'', due', htick', hticked, hscheduled, -⟩ := h.tick hio hmore
  obtain ⟨rfl, rfl⟩ := Prod.mk.inj (Except.ok.inj (htick.symm.trans htick'))
  exact ⟨hticked, due', hscheduled⟩

theorem Scheduled.potential_nonneg (h : Scheduled o n due s) (hio : 0 ≤ o.ioTime) :
    0 ≤ potential o n due s :=
  Finset.sum_nonneg (fun _ hj =>
    h.queued.passesLeft_nonneg h.lists hio (Finset.mem_range.mp hj))

-- The passes so far: who was run in each.
inductive Run (o : Options) (jlist : List JobInfo) : List (Option ℕ) → State → Prop where
  | start : Run o jlist [] (start o jlist)
  | tick {log : List (Option ℕ)} {s s' : State} {ran : Option ℕ} : Run o jlist log s →
      s.finishedJobs < jlist.length → Mlfq.tick o jlist.length s = .ok (ran, s') →
      Run o jlist (log ++ [ran]) s'

theorem Run.loop (hrun : Run o jlist log s) (h : Scheduled o jlist.length due s)
    (hio : 0 ≤ o.ioTime) (passes : ℕ) (hpasses : potential o jlist.length due s ≤ passes) :
    ∃ log' s', Mlfq.loop o jlist.length passes log s = .ok (log', s') ∧
      Run o jlist log' s' ∧ jlist.length ≤ s'.finishedJobs := by
  induction passes generalizing log s due with
  | zero =>
    refine ⟨log, s, rfl, hrun, ?_⟩
    by_contra hmore
    obtain ⟨ran, s', due', -, -, hscheduled, hlt⟩ := h.tick hio (by omega)
    have hnonneg := hscheduled.potential_nonneg hio
    omega
  | succ passes ih =>
    rw [Mlfq.loop]
    by_cases hmore : s.finishedJobs < jlist.length
    · rw [if_pos hmore]
      obtain ⟨ran, s', due', htick, -, hscheduled, hlt⟩ := h.tick hio hmore
      have hle : potential o jlist.length due' s' ≤ passes := by omega
      rw [htick]
      exact ih (hrun.tick hmore htick) hscheduled hle
    · rw [if_neg hmore]
      exact ⟨log, s, rfl, hrun, by omega⟩

end Mlfq
