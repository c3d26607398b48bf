import HTWGArchive.Mlfq.MlfqRuns
import Mathlib.Algebra.BigOperators.Fin

namespace Mlfq

open Agenda

variable {o : Options} {jlist : List JobInfo} {s s' : State} {due : ℕ → Option ℤ}
  {j q : ℕ} {ran : Option ℕ} {log : List (Option ℕ)}

-- The start time of a job, and no other interrupt, is due at first.
def begins (jlist : List JobInfo) (j : ℕ) : Option ℤ :=
  jlist[j]?.map JobInfo.startTime

def infoOf (jlist : List JobInfo) (j : ℕ) : JobInfo :=
  jlist[j]?.getD ⟨0, 0, 0⟩

theorem infoOf_of_lt (hj : j < jlist.length) : infoOf jlist j = jlist[j] := by
  simp [infoOf, hj]

theorem infoOf_concat (jlist : List JobInfo) (info : JobInfo) (j : ℕ) :
    infoOf (jlist ++ [info]) j = if j = jlist.length then info else infoOf jlist j := by
  rw [infoOf, infoOf]
  rcases Nat.lt_trichotomy j jlist.length with hlt | rfl | hgt
  · rw [if_neg (Nat.ne_of_lt hlt), List.getElem?_append_left hlt]
  · simp
  · rw [if_neg (Nat.ne_of_gt hgt), List.getElem?_eq_none (by simp; omega),
      List.getElem?_eq_none (by omega)]

theorem begins_concat (jlist : List JobInfo) (info : JobInfo) : begins (jlist ++ [info]) =
    Function.update (begins jlist) jlist.length (some info.startTime) := by
  funext j
  rw [begins]
  rcases Nat.lt_trichotomy j jlist.length with hlt | rfl | hgt
  · rw [Function.update_of_ne (Nat.ne_of_lt hlt), List.getElem?_append_left hlt, begins]
  · simp
  · rw [Function.update_of_ne (Nat.ne_of_gt hgt), begins,
      List.getElem?_eq_none (by simp; omega), List.getElem?_eq_none (by omega)]

theorem readJobs_spec (o : Options) (hstart : ∀ info ∈ jlist, 0 ≤ info.startTime) :
    (readJobs o jlist).jobCnt = jlist.length ∧
      (∀ j, (readJobs o jlist).job j = newJob o (infoOf jlist j)) ∧
      Lists (readJobs o jlist).ioDone 0 (begins jlist) := by
  induction jlist using List.reverseRecOn with
  | nil =>
    refine ⟨rfl, fun j => rfl, fun t _ => List.nodup_nil, fun t _ j => ?_, fun j t hj => ?_⟩
    · exact iff_of_false List.not_mem_nil (Option.some_ne_none t).symm
    · exact absurd hj (Option.some_ne_none t).symm
  | append_singleton jlist info ih =>
    obtain ⟨hcnt, hjob, hlists⟩ := ih (fun i hi => hstart i (List.mem_append_left _ hi))
    have hconcat : readJobs o (jlist ++ [info]) = addJob o (readJobs o jlist) info :=
      List.foldl_concat ..
    have hfresh : begins jlist jlist.length = none := by simp [begins]
    rw [hconcat]
    refine ⟨by simp [addJob, hcnt], fun j => ?_, ?_⟩
    · change Function.update _ _ _ j = _
      rw [infoOf_concat, hcnt]
      rcases eq_or_ne j jlist.length with rfl | hne
      · rw [Function.update_self, if_pos rfl]
      · rw [Function.update_of_ne hne, if_neg hne, hjob]
    · rw [begins_concat]
      have hpost := hlists.post hfresh
        (hstart info (List.mem_append_right _ (List.mem_singleton.mpr rfl))) Interrupt.jobBegins
      rw [← hcnt] at hpost ⊢
      exact hpost

theorem scheduled_start (o : Options)
    (h : ∀ info ∈ jlist, 0 ≤ info.startTime ∧ 0 < info.runTime) :
    Scheduled o jlist.length (begins jlist) (start o jlist) := by
  obtain ⟨-, hjob, hlists⟩ := readJobs_spec o (fun info hinfo => (h info hinfo).1)
  have hstart : ∀ j, (start o jlist).job j = newJob o (infoOf jlist j) := hjob
  have hbegins : ∀ j (hj : j < jlist.length), begins jlist j = some jlist[j].startTime := by
    intro j hj
    simp [begins, hj]
  have hleft : ∀ j < jlist.length, 0 < ((start o jlist).job j).timeLeft := by
    intro j hj
    rw [hstart, infoOf_of_lt hj]
    exact (h _ (List.getElem_mem hj)).2
  refine ⟨⟨fun q j => ?_, fun q => List.nodup_nil, fun j => ?_, fun j t hj => ?_,
    fun j hj => Int.le_of_lt (hleft j hj), fun j hj hd => ?_, fun j t hj => ?_, ?_⟩, hlists⟩
  · refine iff_of_false List.not_mem_nil (fun hc => ?_)
    rw [hbegins j hc.1] at hc
    exact Option.some_ne_none _ hc.2.1
  · rw [hstart]
    exact Nat.le_refl _
  · have hjn : j < jlist.length := by
      by_contra hge
      rw [begins, List.getElem?_eq_none (by omega)] at hj
      exact Option.some_ne_none t hj.symm
    exact ⟨hjn, hleft j hjn⟩
  · rw [hbegins j hj] at hd
    exact absurd hd (Option.some_ne_none _)
  · refine Or.inr ?_
    rw [hstart]
    refine ⟨rfl, ?_⟩
    rw [begins] at hj
    obtain ⟨info, hget, rfl⟩ := Option.map_eq_some_iff.mp hj
    simp [newJob, infoOf, hget]
  · refine (Finset.card_eq_zero.mpr (Finset.filter_eq_empty_iff.mpr ?_)).symm
    intro j hj
    exact Int.ne_of_gt (hleft j (Finset.mem_range.mp hj))

-- An upper bound for the time at which all jobs are done.
def horizon (o : Options) (jlist : List JobInfo) : ℤ :=
  (jlist.map (fun info => info.runTime * (1 + o.ioTime) + info.startTime)).sum

theorem potential_start (o : Options)
    (h : ∀ info ∈ jlist, 0 ≤ info.startTime ∧ 0 < info.runTime) :
    potential o jlist.length (begins jlist) (start o jlist) = horizon o jlist := by
  obtain ⟨-, hjob, -⟩ := readJobs_spec o (fun info hinfo => (h info hinfo).1)
  rw [potential, Finset.sum_range, horizon, ← Fin.sum_univ_fun_getElem]
  refine Finset.sum_congr rfl (fun j _ => ?_)
  have hstart : (start o jlist).job j = newJob o (infoOf jlist j) := hjob j
  rw [passesLeft, hstart]
  simp [newJob, infoOf, begins, wait, start]

-- What the state keeps of the passes so far.
structure History (jlist : List JobInfo) (log : List (Option ℕ)) (s : State) : Prop where
  currTime : s.currTime = log.length
  info : ∀ j, (s.job j).toJobInfo = infoOf jlist j
  timeLeft : ∀ j, (s.job j).timeLeft = (infoOf jlist j).runTime - log.count (some j)
  firstRun : ∀ j, (s.job j).firstRun =
    if some j ∈ log then (log.idxOf (some j) : ℤ) else -1
  endTime : ∀ j < jlist.length, (s.job j).timeLeft = 0 → ∃ k : ℕ,
    (s.job j).endTime = some ((k : ℤ) + 1) ∧ log[k]? = some (some j) ∧
      some j ∉ log.drop (k + 1)

theorem boost_keeps (o : Options) (job : Job) : (job.boost o).timeLeft = job.timeLeft ∧
    (job.boost o).toJobInfo = job.toJobInfo ∧ (job.boost o).firstRun = job.firstRun ∧
    (job.boost o).endTime = job.endTime := by
  rw [Job.boost]
  split_ifs <;> exact ⟨rfl, rfl, rfl, rfl⟩

theorem wakeUp_keeps (o : Options) (n : ℕ) (s : State) (j : ℕ) :
    ((wakeUp o n s).job j).timeLeft = (s.job j).timeLeft ∧
      ((wakeUp o n s).job j).toJobInfo = (s.job j).toJobInfo ∧
      ((wakeUp o n s).job j).firstRun = (s.job j).firstRun ∧
      ((wakeUp o n s).job j).endTime = (s.job j).endTime := by
  obtain ⟨doing, hjob⟩ := wakeUp_job o n s j
  rw [hjob, boost_job]
  split_ifs
  · exact boost_keeps o (s.job j)
  · exact ⟨rfl, rfl, rfl, rfl⟩

theorem Job.tick_keeps (o : Options) (currTime : ℤ) (q : ℕ) (job : Job) :
    (job.tick o currTime q).firstRun =
        (if job.firstRun = -1 then currTime else job.firstRun) ∧
      (job.tick o currTime q).endTime =
        (if job.timeLeft - 1 = 0 then some (currTime + 1) else job.endTime) := by
  rw [Job.tick]
  by_cases hzero : job.timeLeft - 1 = 0
  · rw [if_pos (show (job.run currTime).timeLeft = 0 from hzero), if_pos hzero]
    exact ⟨rfl, rfl⟩
  · rw [if_neg (show ¬ (job.run currTime).timeLeft = 0 from hzero), if_neg hzero]
    have hran : (job.run currTime).firstRun =
        (if job.firstRun = -1 then currTime else job.firstRun) ∧
        (job.run currTime).endTime = job.endTime := ⟨rfl, rfl⟩
    rw [← hran.1, ← hran.2]
    obtain ⟨-, -, -, -, hfirst, hend⟩ := Job.issueIo_frame o q (job.run currTime)
    by_cases hissues : (job.run currTime).IssuesIo
    · simp only [if_pos hissues]
      by_cases hover : (job.run currTime).ticksLeft = 0
      · rw [if_pos hover]
        obtain ⟨-, -, -, hfirst', hend'⟩ :=
          Job.endQuantum_frame o q ((job.run currTime).issueIo o q)
        exact ⟨hfirst'.trans hfirst, hend'.trans hend⟩
      · rw [if_neg hover]
        exact ⟨hfirst, hend⟩
    · simp only [if_neg hissues]
      by_cases hover : (job.run currTime).ticksLeft = 0
      · rw [if_pos hover]
        obtain ⟨-, -, -, hfirst', hend'⟩ := Job.endQuantum_frame o q (job.run currTime)
        exact ⟨hfirst', hend'⟩
      · rw [if_neg hover]
        exact ⟨rfl, rfl⟩

-- A job that is not run in a pass keeps its part of the history.
theorem History.same {n : ℕ} (h : History jlist log s) (hne : ran ≠ some j)
    (hjob : s'.job j = (wakeUp o n s).job j) :
    (s'.job j).toJobInfo = infoOf jlist j ∧
      (s'.job j).timeLeft = (infoOf jlist j).runTime - (log ++ [ran]).count (some j) ∧
      (s'.job j).firstRun = (if some j ∈ log ++ [ran] then
        ((log ++ [ran]).idxOf (some j) : ℤ) else -1) ∧
      (j < jlist.length → (s'.job j).timeLeft = 0 → ∃ k : ℕ,
        (s'.job j).endTime = some ((k : ℤ) + 1) ∧ (log ++ [ran])[k]? = some (some j) ∧
          some j ∉ (log ++ [ran]).drop (k + 1)) := by
  obtain ⟨htime, hinfo, hfirst, hend⟩ := wakeUp_keeps o n s j
  have hmem : some j ∈ log ++ [ran] ↔ some j ∈ log := by
    rw [List.mem_append, List.mem_singleton]
    exact or_iff_left hne.symm
  rw [hjob]
  refine ⟨hinfo.trans (h.info j), ?_, ?_, fun hj hzero => ?_⟩
  · rw [htime, h.timeLeft j, List.count_append, List.count_singleton]
    simp [hne]
  · rw [hfirst, h.firstRun j]
    by_cases hran : some j ∈ log
    · rw [if_pos hran, if_pos (hmem.mpr hran), List.idxOf_append_of_mem hran]
    · rw [if_neg hran, if_neg (fun hc => hran (hmem.mp hc))]
  · obtain ⟨k, hk, hget, hlast⟩ := h.endTime j hj (htime ▸ hzero)
    have hlt : k < log.length := (List.getElem?_eq_some_iff.mp hget).1
    refine ⟨k, hend.trans hk, ?_, ?_⟩
    · rw [List.getElem?_append_left hlt]
      exact hget
    · rw [List.drop_append_of_le_length (by omega), List.mem_append, List.mem_singleton]
      exact fun hc => hc.elim hlast hne.symm

theorem History.tick {n : ℕ} (h : History jlist log s)
    (hticked : Ticked o (wakeUp o n s) ran s') (hq : Queued o n due (wakeUp o n s)) :
    History jlist (log ++ [ran]) s' := by
  cases hticked with
  | idle hempty =>
    have hkept : ∀ j, { wakeUp o n s with currTime := (wakeUp o n s).currTime + 1 }.job j =
        (wakeUp o n s).job j := fun j => rfl
    have hsame := fun j => h.same (Option.some_ne_none j).symm (hkept j)
    refine ⟨?_, fun j => (hsame j).1, fun j => (hsame j).2.1, fun j => (hsame j).2.2.1,
      fun j hj => (hsame j).2.2.2 hj⟩
    change (wakeUp o n s).currTime + 1 = _
    rw [(wakeUp_frame o n s).1, h.currTime]
    simp
  | @run q j rest hqueue habove =>
    obtain ⟨hjn, hdue, hleft, hpri⟩ := hq.head hqueue
    have hran := runTick_ran hq hqueue
    obtain ⟨htime, hinfo, hfirst, hend⟩ := wakeUp_keeps o n s j
    have hnow : (wakeUp o n s).currTime = log.length := by
      rw [(wakeUp_frame o n s).1, h.currTime]
    have hself : (runTick o (wakeUp o n s) q j).job j =
        ((wakeUp o n s).job j).tick o (wakeUp o n s).currTime q := by
      rw [runTick_job, Function.update_self]
    obtain ⟨-, hinfo', -, -⟩ := Job.tick_spec o (wakeUp o n s).currTime hpri
    obtain ⟨hfirst', hend'⟩ := Job.tick_keeps o (wakeUp o n s).currTime q ((wakeUp o n s).job j)
    have hother : ∀ i, i ≠ j → some j ≠ some i := fun i hi hc => hi (Option.some.inj hc).symm
    have hsame := fun i (hi : i ≠ j) => h.same (hother i hi) (hran.others i hi)
    refine ⟨?_, fun i => ?_, fun i => ?_, fun i => ?_, fun i hi hzero => ?_⟩
    · rw [hran.currTime, hnow]
      simp
    · rcases eq_or_ne i j with rfl | hne
      · rw [hself, hinfo', hinfo, h.info]
      · exact (hsame i hne).1
    · rcases eq_or_ne i j with rfl | hne
      · rw [hran.timeLeft, htime, h.timeLeft, List.count_append, List.count_singleton_self]
        omega
      · exact (hsame i hne).2.1
    · rcases eq_or_ne i j with rfl | hne
      · have hlast : some i ∈ log ++ [some i] :=
          List.mem_append_right _ (List.mem_singleton.mpr rfl)
        rw [hself, hfirst', hfirst, h.firstRun, hnow, if_pos hlast]
        by_cases hmem : some i ∈ log
        · rw [if_pos hmem, List.idxOf_append_of_mem hmem, if_neg (by omega)]
        · rw [if_neg hmem, if_pos rfl, List.idxOf_append_of_notMem hmem]
          simp
      · exact (hsame i hne).2.2.1
    · rcases eq_or_ne i j with rfl | hne
      · rw [hran.timeLeft] at hzero
        refine ⟨log.length, ?_, ?_, ?_⟩
        · rw [hself, hend', if_pos hzero, hnow]
        · simp
        · simp
      · exact (hsame i hne).2.2.2 hi hzero

theorem Run.spec (hrun : Run o jlist log s)
    (h : ∀ info ∈ jlist, 0 ≤ info.startTime ∧ 0 < info.runTime) (hio : 0 ≤ o.ioTime) :
    (∃ due, Scheduled o jlist.length due s) ∧ History jlist log s := by
  induction hrun with
  | start =>
    obtain ⟨-, hjob, -⟩ := readJobs_spec o (fun info hinfo => (h info hinfo).1)
    have hstart : ∀ j, (Mlfq.start o jlist).job j = newJob o (infoOf jlist j) := hjob
    refine ⟨⟨_, scheduled_start o h⟩, rfl, fun j => ?_, fun j => ?_, fun j => ?_,
      fun j hj hzero => ?_⟩
    · rw [hstart]
      rfl
    · rw [hstart]
      exact (Int.sub_zero _).symm
    · rw [hstart]
      rfl
    · have hleft := (scheduled_start o h).queued.waiting j jlist[j].startTime (by simp [begins, hj])
      omega
  | @tick log s s' ran hrun hmore htick ih =>
    obtain ⟨⟨due, hscheduled⟩, hhistory⟩ := ih
    obtain ⟨hticked, hscheduled'⟩ := hscheduled.ticked hio hmore htick
    exact ⟨hscheduled', hhistory.tick hticked hscheduled.wakeUp.1⟩

theorem Run.pri_le (hrun : Run o jlist log s)
    (h : ∀ info ∈ jlist, 0 ≤ info.startTime ∧ 0 < info.runTime) (hio : 0 ≤ o.ioTime) (j : ℕ) :
    (s.job j).currPri ≤ o.hiQueue := by
  obtain ⟨⟨due, hscheduled⟩, -⟩ := hrun.spec h hio
  exact hscheduled.queued.pri j

-- Every job is run for its whole time, and the times kept for the statistics are those of its
-- first and of its last tick.
theorem simulate_finishes (h : ∀ info ∈ jlist, 0 ≤ info.startTime ∧ 0 < info.runTime)
    (hio : 0 ≤ o.ioTime) (passes : ℕ) (hpasses : horizon o jlist ≤ passes) :
    ∃ log s, simulate o jlist passes = .ok (log, s) ∧ s.finishedJobs = jlist.length ∧
      ∀ j (hj : j < jlist.length), (log.count (some j) : ℤ) = jlist[j].runTime ∧
        (s.job j).firstRun = log.idxOf (some j) ∧
        ∃ k : ℕ, (s.job j).endTime = some ((k : ℤ) + 1) ∧ log[k]? = some (some j) ∧
          some j ∉ log.drop (k + 1) := by
  rw [← potential_start o h] at hpasses
  obtain ⟨log, s, hloop, hrun, hdone⟩ :=
    Run.start.loop (scheduled_start o h) hio passes hpasses
  obtain ⟨⟨due, hscheduled⟩, hhistory⟩ := hrun.spec h hio
  have hcard := hscheduled.queued.finished
  have hle := (Finset.card_filter_le (Finset.range jlist.length)
    (fun j => (s.job j).timeLeft = 0)).trans_eq (Finset.card_range _)
  have hzero : ∀ j < jlist.length, (s.job j).timeLeft = 0 := by
    intro j hj
    have hleft := hscheduled.queued.left j hj
    by_contra hne
    have hlt : ((Finset.range jlist.length).filter (fun j => (s.job j).timeLeft = 0)).card <
        (Finset.range jlist.length).card :=
      Finset.card_lt_card (Finset.filter_ssubset.mpr ⟨j, Finset.mem_range.mpr hj, hne⟩)
    rw [Finset.card_range] at hlt
    omega
  refine ⟨log, s, hloop, by omega, fun j hj => ?_⟩
  have htime := hhistory.timeLeft j
  rw [hzero j hj, infoOf_of_lt hj] at htime
  have hpos := (h _ (List.getElem_mem hj)).2
  refine ⟨by omega, ?_, hhistory.endTime j hj (hzero j hj)⟩
  rw [hhistory.firstRun j, if_pos (List.count_pos_iff.mp (by omega))]

def boosted : Options :=
  { hiQueue := 2
    quantum := fun _ => 10
    allotment := fun _ => 1
    boost := 50
    ioTime := 5
    stay := false
    iobump := false }

def threeJobs : List JobInfo :=
  [⟨0, 84, 7⟩, ⟨0, 42, 2⟩, ⟨3, 51, 4⟩]

theorem simulate_finishes_boosted : ∃ log s, simulate boosted threeJobs 2000 = .ok (log, s) ∧
    s.finishedJobs = 3 ∧ (log.count (some 1) : ℤ) = 42 := by
  obtain ⟨log, s, hrun, hdone, hjobs⟩ := simulate_finishes (o := boosted)
    (show ∀ info ∈ threeJobs, 0 ≤ info.startTime ∧ 0 < info.runTime by decide) (by decide) 2000
    (by decide)
  exact ⟨log, s, hrun, hdone, (hjobs 1 (by decide)).1⟩

-- Whether a job could be run, by its own data.
def Runnable (s : State) (j : ℕ) : Prop :=
  0 < (s.job j).timeLeft ∧ (s.job j).startTime ≤ s.currTime ∧ (s.job j).doingIo = false

theorem Queued.mem_iff_runnable {n : ℕ} (h : Queued o n due s)
    (hlists : Lists s.ioDone (s.currTime + 1) due) (hj : j < n) :
    j ∈ s.queue (s.job j).currPri ↔ Runnable s j := by
  rw [h.mem]
  constructor
  · rintro ⟨-, hdue, hleft, -⟩
    obtain ⟨hdoing, hle⟩ := h.awake j hj hdue
    exact ⟨hleft, hle, hdoing⟩
  · rintro ⟨hleft, hle, hdoing⟩
    refine ⟨hj, ?_, hleft, rfl⟩
    cases hdue : due j with
    | none => rfl
    | some t =>
      have hpast := hlists.notPast j t hdue
      rcases h.asleep j t hdue with ⟨htrue, -⟩ | ⟨-, heq⟩
      · rw [hdoing] at htrue
        exact absurd htrue Bool.false_ne_true
      · omega

-- A pass runs a job of the highest priority among those that can run, if there is one at all.
theorem runs_highest_priority (hrun : Run o jlist log s)
    (h : ∀ info ∈ jlist, 0 ≤ info.startTime ∧ 0 < info.runTime) (hio : 0 ≤ o.ioTime) :
    ∃ ran s', tick o jlist.length s = .ok (ran, s') ∧
      (ran = none ↔ ∀ j < jlist.length, ¬ Runnable (wakeUp o jlist.length s) j) ∧
      ∀ j, ran = some j → j < jlist.length ∧ Runnable (wakeUp o jlist.length s) j ∧
        ∀ i < jlist.length, Runnable (wakeUp o jlist.length s) i →
          ((wakeUp o jlist.length s).job i).currPri ≤
            ((wakeUp o jlist.length s).job j).currPri := by
  obtain ⟨⟨due, hscheduled⟩, -⟩ := hrun.spec h hio
  obtain ⟨hq, hlists⟩ := hscheduled.wakeUp
  obtain ⟨ran, s', htick, hticked⟩ := tick_ticked hq
  refine ⟨ran, s', htick, ?_⟩
  cases hticked with
  | idle hempty =>
    refine ⟨iff_of_true rfl (fun j hj hrunnable => ?_), fun j hj => absurd hj.symm
      (Option.some_ne_none j)⟩
    have hmem := (hq.mem_iff_runnable hlists hj).mpr hrunnable
    rw [hempty _ (hq.pri j)] at hmem
    exact absurd hmem List.not_mem_nil
  | @run q j rest hqueue habove =>
    obtain ⟨hjn, hdue, hleft, hpri⟩ := hq.head hqueue
    have hrunnable := (hq.mem_iff_runnable hlists hjn).mp ((hq.mem _ j).mpr ⟨hjn, hdue, hleft, rfl⟩)
    refine ⟨iff_of_false (Option.some_ne_none j) (fun hnone => hnone j hjn hrunnable), ?_⟩
    rintro j' hj'
    obtain rfl := Option.some.inj hj'
    refine ⟨hjn, hrunnable, fun i hi hirun => ?_⟩
    by_contra hgt
    have hmem := (hq.mem_iff_runnable hlists hi).mpr hirun
    rw [habove _ (by omega) (hq.pri i)] at hmem
    exact absurd hmem List.not_mem_nil

theorem runs_highest_priority_start :
    ∃ ran s', tick boosted 3 (start boosted threeJobs) = .ok (ran, s') := by
  obtain ⟨ran, s', htick, -⟩ := runs_highest_priority (.start : Run boosted threeJobs [] _)
    (by decide) (by decide)
  exact ⟨ran, s', htick⟩

end Mlfq
