import HTWGArchive.Mlfq.MlfqFinish
import Mathlib.Algebra.Order.Interval.Finset.SuccPred
import Mathlib.Order.Interval.Finset.Nat
import Mathlib.Tactic.Ring

namespace Mlfq

variable {o : Options} {jlist : List JobInfo} {s s' : State} {j q : ℕ} {log : List (Option ℕ)}

def Job.used (job : Job) : ℤ :=
  job.runTime - job.timeLeft

theorem Job.run_used (job : Job) (currTime : ℤ) :
    (job.run currTime).used = job.used + 1 := by
  change job.runTime - (job.timeLeft - 1) = job.runTime - job.timeLeft + 1
  omega

-- The time that a job may use in the levels above `q`.
def budget (o : Options) (q : ℕ) : ℤ :=
  ∑ p ∈ Finset.Ioc q o.hiQueue, o.quantum p * o.allotment p

theorem budget_pred (hq : 0 < q) (hle : q ≤ o.hiQueue) :
    budget o (q - 1) = budget o q + o.quantum q * o.allotment q := by
  have hinsert : Finset.Ioc (q - 1) o.hiQueue = insert q (Finset.Ioc q o.hiQueue) := by
    ext p
    simp only [Finset.mem_Ioc, Finset.mem_insert]
    omega
  rw [budget, budget, hinsert, Finset.sum_insert (by simp), Int.add_comm]

-- A per-job property that every run keeps, when no boost comes in between.
theorem Run.keeps {P : Job → Prop} (hrun : Run o jlist log s)
    (h : ∀ info ∈ jlist, 0 ≤ info.startTime ∧ 0 < info.runTime) (hio : 0 ≤ o.ioTime)
    (hboost : o.boost ≤ 0) (hj : j < jlist.length) (hstart : P (newJob o jlist[j]))
    (hdoing : ∀ job doing, P job → P { job with doingIo := doing })
    (htick : ∀ job currTime, P job → job.toJobInfo = jlist[j] → job.currPri ≤ o.hiQueue →
      0 < job.timeLeft → P (job.tick o currTime job.currPri)) : P (s.job j) := by
  have hinfo := infoOf_of_lt hj
  induction hrun with
  | start =>
    obtain ⟨-, hjob, -⟩ := readJobs_spec o (fun info hi => (h info hi).1)
    have hfirst : (Mlfq.start o jlist).job j = newJob o (infoOf jlist j) := hjob j
    rw [hfirst, hinfo]
    exact hstart
  | @tick log s s' ran hrun hmore htick' ih =>
    obtain ⟨⟨due, hscheduled⟩, hhistory⟩ := hrun.spec h hio
    obtain ⟨hticked, -⟩ := hscheduled.ticked hio hmore htick'
    have hq := hscheduled.wakeUp.1
    obtain ⟨doing, hjob⟩ := wakeUp_job o jlist.length s j
    have hnone : ¬ (o.Boosts s.currTime ∧ j < jlist.length) :=
      fun hc => absurd hc.1.1 (by omega)
    rw [boost_job, if_neg hnone] at hjob
    have hwoken : P ((wakeUp o jlist.length s).job j) := by
      rw [hjob]
      exact hdoing _ doing ih
    cases hticked with
    | idle hempty => exact hwoken
    | @run q i rest hqueue habove =>
      obtain ⟨-, -, hleft, hpri⟩ := hq.head hqueue
      rw [runTick_job]
      rcases eq_or_ne j i with rfl | hne
      · rw [Function.update_self, ← hpri]
        refine htick _ _ hwoken ?_ (hq.pri j) hleft
        rw [(wakeUp_keeps o jlist.length s j).2.1, hhistory.info, hinfo]
      · rw [Function.update_of_ne hne]
        exact hwoken

-- How far a job is within its level.
def Level (o : Options) (job : Job) : Prop :=
  0 < job.timeLeft → budget o job.currPri ≤ job.used ∧ (0 < job.currPri →
    0 < job.ticksLeft ∧ job.ticksLeft ≤ o.quantum job.currPri ∧ 0 < job.allotLeft ∧
      job.allotLeft ≤ o.allotment job.currPri ∧
      job.used + job.ticksLeft + (job.allotLeft - 1) * o.quantum job.currPri =
        budget o job.currPri + o.quantum job.currPri * o.allotment job.currPri)

theorem Level.enter {job : Job} (hpri : job.currPri ≤ o.hiQueue)
    (hpos : ∀ q, 0 < q → q ≤ o.hiQueue → 0 < o.quantum q ∧ 0 < o.allotment q)
    (hused : job.used = budget o job.currPri)
    (hticks : job.ticksLeft = o.quantum job.currPri)
    (hallot : job.allotLeft = o.allotment job.currPri) : Level o job := by
  refine fun _ => ⟨Int.le_of_eq hused.symm, fun hq => ?_⟩
  obtain ⟨hquantum, hallotment⟩ := hpos _ hq hpri
  refine ⟨by omega, by omega, by omega, by omega, ?_⟩
  rw [hused, hticks, hallot]
  ring

theorem Level.after {job job' : Job} (h : Level o job)
    (hpos : ∀ q, 0 < q → q ≤ o.hiQueue → 0 < o.quantum q ∧ 0 < o.allotment q)
    (hpri : job.currPri ≤ o.hiQueue) (hleft : 0 < job.timeLeft)
    (hpri' : job'.currPri = job.currPri) (hused : job'.used = job.used + 1)
    (hticks : job'.ticksLeft = job.ticksLeft - 1) (hallot : job'.allotLeft = job.allotLeft) :
    Level o (if job'.ticksLeft = 0 then job'.endQuantum o job.currPri else job') := by
  obtain ⟨hbudget, hlevel⟩ := h hleft
  by_cases hover : job'.ticksLeft = 0
  · rw [if_pos hover, Job.endQuantum]
    by_cases hlast : job'.allotLeft - 1 = 0
    · rw [if_pos hlast]
      by_cases hq : 0 < job.currPri
      · rw [if_pos hq]
        obtain ⟨-, -, -, -, hsum⟩ := hlevel hq
        refine Level.enter (Nat.le_trans (Nat.sub_le _ _) hpri) hpos ?_ rfl rfl
        change job'.used = budget o (job.currPri - 1)
        have hone : job.allotLeft - 1 = 0 := by omega
        rw [hone, Int.zero_mul] at hsum
        rw [budget_pred hq hpri]
        omega
      · rw [if_neg hq]
        refine fun _ => ⟨?_, fun hc => absurd (hpri' ▸ hc) hq⟩
        change budget o job'.currPri ≤ job'.used
        rw [hpri']
        omega
    · rw [if_neg hlast]
      refine fun _ => ⟨?_, fun hc => ?_⟩
      · change budget o job'.currPri ≤ job'.used
        rw [hpri']
        omega
      · change 0 < job'.currPri at hc
        rw [hpri'] at hc
        obtain ⟨hpos', hle, hallot', hallotle, hsum⟩ := hlevel hc
        change 0 < o.quantum job.currPri ∧ o.quantum job.currPri ≤ o.quantum job'.currPri ∧
          0 < job'.allotLeft - 1 ∧ job'.allotLeft - 1 ≤ o.allotment job'.currPri ∧
          job'.used + o.quantum job.currPri + (job'.allotLeft - 1 - 1) * o.quantum job'.currPri =
            budget o job'.currPri + o.quantum job'.currPri * o.allotment job'.currPri
        rw [hpri']
        refine ⟨(hpos _ hc hpri).1, Int.le_refl _, by omega, by omega, ?_⟩
        rw [← hsum, hused, hallot]
        have hone : job.ticksLeft = 1 := by omega
        rw [hone]
        ring
  · rw [if_neg hover]
    refine fun _ => ⟨?_, fun hc => ?_⟩
    · rw [hpri']
      omega
    · rw [hpri'] at hc ⊢
      obtain ⟨hpos', hle, hallot', hallotle, hsum⟩ := hlevel hc
      refine ⟨by omega, by omega, by omega, by omega, ?_⟩
      rw [← hsum, hused, hallot, hticks]
      ring

theorem Level.tick {job : Job} (h : Level o job) (currTime : ℤ) (hstay : o.stay = false)
    (hpos : ∀ q, 0 < q → q ≤ o.hiQueue → 0 < o.quantum q ∧ 0 < o.allotment q)
    (hpri : job.currPri ≤ o.hiQueue) (hleft : 0 < job.timeLeft) :
    Level o (job.tick o currTime job.currPri) := by
  have hused := job.run_used currTime
  rw [Job.tick]
  by_cases hzero : (job.run currTime).timeLeft = 0
  · rw [if_pos hzero]
    exact fun hc => absurd hzero (Int.ne_of_gt hc)
  · rw [if_neg hzero]
    by_cases hissues : (job.run currTime).IssuesIo
    · have hio : (job.run currTime).issueIo o job.currPri =
          { job.run currTime with doingIo := true } := by
        rw [Job.issueIo, hstay]
        rfl
      simp only [if_pos hissues, hio]
      have hissued : Level o _ := @Level.after o job { job.run currTime with doingIo := true } h
        hpos hpri hleft rfl hused rfl rfl
      exact hissued
    · simp only [if_neg hissues]
      exact h.after hpos hpri hleft rfl hused rfl rfl

theorem used_emod {f : ℤ} (hf : 0 < f) (u : ℤ) :
    (u + 1) % f = if u % f + 1 = f then 0 else u % f + 1 := by
  have hlt := Int.emod_lt_of_pos u hf
  have hnonneg := Int.emod_nonneg u (Int.ne_of_gt hf)
  rw [← Int.emod_add_emod u f 1]
  split_ifs with hlast
  · rw [hlast, Int.emod_self]
  · exact Int.emod_eq_of_lt (by omega) (by omega)

-- A job with time left at the highest level until its next I/O.
def Spare (o : Options) (job : Job) : Prop :=
  0 < job.timeLeft → ∃ quanta : ℤ, job.ioFreq ≤ quanta * o.quantum o.hiQueue ∧
    0 < job.ticksLeft ∧ 0 < job.allotLeft ∧
    job.used % job.ioFreq + job.ticksLeft + (job.allotLeft - 1) * o.quantum o.hiQueue =
      quanta * o.quantum o.hiQueue

theorem Spare.issueIo {job : Job} (h : Spare o job) (currTime : ℤ) (hstay : o.stay = true)
    (hpri : job.currPri = o.hiQueue) (hleft : 0 < job.timeLeft) (hfreq : 0 < job.ioFreq)
    (hpos : 0 < o.quantum o.hiQueue)
    (hless : job.ioFreq < o.allotment o.hiQueue * o.quantum o.hiQueue)
    (hissues : (job.run currTime).IssuesIo) :
    (if (job.run currTime).ticksLeft = 0 then
      ((job.run currTime).issueIo o o.hiQueue).endQuantum o o.hiQueue
    else (job.run currTime).issueIo o o.hiQueue).currPri = o.hiQueue ∧
    Spare o (if (job.run currTime).ticksLeft = 0 then
      ((job.run currTime).issueIo o o.hiQueue).endQuantum o o.hiQueue
    else (job.run currTime).issueIo o o.hiQueue) := by
  obtain ⟨quanta, -, hticks, hallot, hsum⟩ := h hleft
  have hallotment : 0 < o.allotment o.hiQueue :=
    Int.pos_of_mul_pos_left (Int.lt_trans hfreq hless) hpos
  have hio : (job.run currTime).issueIo o o.hiQueue =
      { job.run currTime with
        doingIo := true
        ticksLeft := o.quantum o.hiQueue
        allotLeft := o.allotment o.hiQueue } := by
    rw [Job.issueIo, hstay]
    rfl
  have hnext : (job.used + 1) % job.ioFreq = 0 := job.run_used currTime ▸ hissues.2
  have hround : job.used % job.ioFreq + 1 = job.ioFreq := by
    by_contra hne
    have hmod := used_emod hfreq job.used
    have hnonneg := Int.emod_nonneg job.used (Int.ne_of_gt hfreq)
    rw [if_neg hne] at hmod
    omega
  rw [hio]
  by_cases hover : (job.run currTime).ticksLeft = 0
  · rw [if_pos hover, Job.endQuantum]
    have hone : job.ticksLeft = 1 := by
      change job.ticksLeft - 1 = 0 at hover
      omega
    -- the I/O falls on the end of a quantum, so whole quanta lie between two I/Os
    have hfull : job.ioFreq = (quanta - (job.allotLeft - 1)) * o.quantum o.hiQueue := by
      rw [Int.sub_mul]
      omega
    have hmore : quanta - (job.allotLeft - 1) < o.allotment o.hiQueue :=
      Int.lt_of_mul_lt_mul_right (hfull ▸ hless) (Int.le_of_lt hpos)
    have hsome : 0 < quanta - (job.allotLeft - 1) :=
      Int.pos_of_mul_pos_left (hfull ▸ hfreq) hpos
    rw [if_neg (show ¬ o.allotment o.hiQueue - 1 = 0 by omega)]
    refine ⟨hpri, fun _ => ⟨o.allotment o.hiQueue - 1, ?_, hpos, ?_, ?_⟩⟩
    · change job.ioFreq ≤ _
      rw [hfull]
      exact Int.mul_le_mul_of_nonneg_right (by omega) (Int.le_of_lt hpos)
    · change 0 < o.allotment o.hiQueue - 1
      omega
    · change (job.run currTime).used % job.ioFreq + o.quantum o.hiQueue +
        (o.allotment o.hiQueue - 1 - 1) * o.quantum o.hiQueue = _
      rw [Job.run_used, hnext]
      ring
  · rw [if_neg hover]
    refine ⟨hpri, fun _ => ⟨o.allotment o.hiQueue, Int.le_of_lt hless, hpos, hallotment, ?_⟩⟩
    change (job.run currTime).used % job.ioFreq + o.quantum o.hiQueue +
      (o.allotment o.hiQueue - 1) * o.quantum o.hiQueue = _
    rw [Job.run_used, hnext]
    ring

theorem Spare.tick {job : Job} (h : Spare o job) (currTime : ℤ) (hstay : o.stay = true)
    (hpri : job.currPri = o.hiQueue) (hleft : 0 < job.timeLeft) (hfreq : 0 < job.ioFreq)
    (hpos : 0 < o.quantum o.hiQueue)
    (hless : job.ioFreq < o.allotment o.hiQueue * o.quantum o.hiQueue) :
    (job.tick o currTime o.hiQueue).currPri = o.hiQueue ∧
      Spare o (job.tick o currTime o.hiQueue) := by
  rw [Job.tick]
  by_cases hzero : (job.run currTime).timeLeft = 0
  · rw [if_pos hzero]
    exact ⟨hpri, fun hc => absurd hzero (Int.ne_of_gt hc)⟩
  rw [if_neg hzero]
  by_cases hissues : (job.run currTime).IssuesIo
  · simp only [if_pos hissues]
    exact h.issueIo currTime hstay hpri hleft hfreq hpos hless hissues
  · simp only [if_neg hissues]
    obtain ⟨quanta, hquanta, hticks, hallot, hsum⟩ := h hleft
    have hmod := used_emod hfreq job.used
    have hlt := Int.emod_lt_of_pos job.used hfreq
    have hne : ¬ job.used % job.ioFreq + 1 = job.ioFreq := by
      intro hc
      rw [if_pos hc, ← job.run_used currTime] at hmod
      exact hissues ⟨hfreq, hmod⟩
    rw [if_neg hne] at hmod
    by_cases hover : (job.run currTime).ticksLeft = 0
    · have hone : job.ticksLeft = 1 := by
        change job.ticksLeft - 1 = 0 at hover
        omega
      have hlast : ¬ (job.run currTime).allotLeft - 1 = 0 := by
        intro hc
        change job.allotLeft - 1 = 0 at hc
        rw [hc, Int.zero_mul] at hsum
        omega
      rw [if_pos hover, Job.endQuantum, if_neg hlast]
      refine ⟨hpri, fun _ => ⟨quanta, hquanta, hpos, ?_, ?_⟩⟩
      · change ¬ job.allotLeft - 1 = 0 at hlast
        change 0 < job.allotLeft - 1
        omega
      · change (job.run currTime).used % job.ioFreq + o.quantum o.hiQueue +
          (job.allotLeft - 1 - 1) * o.quantum o.hiQueue = _
        rw [Job.run_used, hmod, ← hsum, hone]
        ring
    · rw [if_neg hover]
      have hrest : 0 < job.ticksLeft - 1 := by
        change ¬ job.ticksLeft - 1 = 0 at hover
        omega
      refine ⟨hpri, fun _ => ⟨quanta, hquanta, hrest, hallot, ?_⟩⟩
      change (job.run currTime).used % job.ioFreq + (job.ticksLeft - 1) +
        (job.allotLeft - 1) * o.quantum o.hiQueue = _
      rw [Job.run_used, hmod, ← hsum]
      ring

end Mlfq
