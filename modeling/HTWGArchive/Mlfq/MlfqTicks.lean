import HTWGArchive.Mlfq.MlfqQueues

namespace Mlfq

open Agenda

variable {o : Options} {n : ℕ} {s s' : State} {due : ℕ → Option ℤ} {j q : ℕ} {rest : List ℕ}

-- One job has run: what must be true of it and of the queues for all to be in order again.
structure Ran (o : Options) (s : State) (j : ℕ) (again : Option ℤ) (s' : State) : Prop where
  others : ∀ i, i ≠ j → s'.job i = s.job i
  stays : ∀ p i, i ≠ j → (i ∈ s'.queue p ↔ i ∈ s.queue p)
  requeued : ∀ p, j ∈ s'.queue p ↔
    again = none ∧ 0 < (s'.job j).timeLeft ∧ (s'.job j).currPri = p
  nodup : ∀ p, (s'.queue p).Nodup
  pri : (s'.job j).currPri ≤ o.hiQueue
  timeLeft : (s'.job j).timeLeft = (s.job j).timeLeft - 1
  startTime : (s'.job j).startTime = (s.job j).startTime
  doingIo : (s'.job j).doingIo = again.isSome
  again : again.isSome → 0 < (s'.job j).timeLeft
  currTime : s'.currTime = s.currTime + 1
  finished : s'.finishedJobs = s.finishedJobs + if (s'.job j).timeLeft = 0 then 1 else 0

theorem card_filter_ran (f g : ℕ → ℤ) (hj : j < n) (hf : 0 < f j) (hg : g j = f j - 1)
    (hothers : ∀ i, i ≠ j → g i = f i) :
    ((Finset.range n).filter (fun i => g i = 0)).card =
      ((Finset.range n).filter (fun i => f i = 0)).card + if g j = 0 then 1 else 0 := by
  by_cases hzero : g j = 0
  · rw [if_pos hzero]
    have hinsert : (Finset.range n).filter (fun i => g i = 0) =
        insert j ((Finset.range n).filter (fun i => f i = 0)) := by
      ext i
      rcases eq_or_ne i j with rfl | hne
      · simp [hj, hzero]
      · simp [hne, hothers i hne]
    rw [hinsert, Finset.card_insert_of_notMem]
    simp only [Finset.mem_filter, not_and]
    omega
  · rw [if_neg hzero, Nat.add_zero]
    congr 1
    apply Finset.filter_congr
    intro i _
    rcases eq_or_ne i j with rfl | hne
    · exact iff_of_false hzero (by omega)
    · rw [hothers i hne]

theorem Queued.ran {again : Option ℤ} (h : Queued o n due s) (hq : s.queue q = j :: rest)
    (hran : Ran o s j again s') : Queued o n (Function.update due j again) s' := by
  obtain ⟨hjn, hdue, hleft, hpri⟩ := h.head hq
  obtain ⟨hio, hstart⟩ := h.awake j hjn hdue
  have htime := hran.timeLeft
  have hcurr := hran.currTime
  refine ⟨fun p i => ?_, hran.nodup, fun i => ?_, fun i t hi => ?_, fun i hi => ?_,
    fun i hi hd => ?_, fun i t hi => ?_, ?_⟩
  · rcases eq_or_ne i j with rfl | hne
    · rw [hran.requeued p, Function.update_self]
      simp [hjn]
    · rw [hran.stays p i hne, h.mem p i, hran.others i hne, Function.update_of_ne hne]
  · rcases eq_or_ne i j with rfl | hne
    · exact hran.pri
    · rw [hran.others i hne]
      exact h.pri i
  · rcases eq_or_ne i j with rfl | hne
    · rw [Function.update_self] at hi
      exact ⟨hjn, hran.again (by rw [hi]; rfl)⟩
    · rw [Function.update_of_ne hne] at hi
      rw [hran.others i hne]
      exact h.waiting i t hi
  · rcases eq_or_ne i j with rfl | hne
    · omega
    · rw [hran.others i hne]
      exact h.left i hi
  · rcases eq_or_ne i j with rfl | hne
    · rw [Function.update_self] at hd
      rw [hran.doingIo, hran.startTime, hd]
      exact ⟨rfl, by omega⟩
    · rw [Function.update_of_ne hne] at hd
      rw [hran.others i hne]
      have hawake := h.awake i hi hd
      exact ⟨hawake.1, by omega⟩
  · rcases eq_or_ne i j with rfl | hne
    · rw [Function.update_self] at hi
      rw [hran.doingIo, hran.startTime, hi]
      exact Or.inl ⟨rfl, by omega⟩
    · rw [Function.update_of_ne hne] at hi
      rw [hran.others i hne]
      rcases h.asleep i t hi with ⟨hdoing, hle⟩ | hbegins
      · exact Or.inl ⟨hdoing, by omega⟩
      · exact Or.inr hbegins
  · rw [hran.finished, h.finished]
    exact (card_filter_ran (fun i => (s.job i).timeLeft) (fun i => (s'.job i).timeLeft) hjn hleft
      htime (fun i hne => by rw [hran.others i hne])).symm

theorem Job.endQuantum_frame (o : Options) (q : ℕ) (job : Job) :
    (job.endQuantum o q).timeLeft = job.timeLeft ∧
      (job.endQuantum o q).toJobInfo = job.toJobInfo ∧
      (job.endQuantum o q).doingIo = job.doingIo ∧
      (job.endQuantum o q).firstRun = job.firstRun ∧
      (job.endQuantum o q).endTime = job.endTime := by
  rw [Job.endQuantum]
  split_ifs <;> exact ⟨rfl, rfl, rfl, rfl, rfl⟩

theorem Job.issueIo_frame (o : Options) (q : ℕ) (job : Job) :
    (job.issueIo o q).timeLeft = job.timeLeft ∧
      (job.issueIo o q).toJobInfo = job.toJobInfo ∧
      (job.issueIo o q).currPri = job.currPri ∧ (job.issueIo o q).doingIo = true ∧
      (job.issueIo o q).firstRun = job.firstRun ∧ (job.issueIo o q).endTime = job.endTime := by
  rw [Job.issueIo]
  split_ifs <;> exact ⟨rfl, rfl, rfl, rfl, rfl, rfl⟩

theorem Job.endQuantum_currPri {job : Job} (h : job.currPri = q) :
    (job.endQuantum o q).currPri ≤ q := by
  rw [Job.endQuantum]
  split
  · split
    · exact Nat.sub_le q 1
    · exact Nat.le_of_eq h
  · exact Nat.le_of_eq h

-- The fields that only the choice between ending, waiting and going on decides.
theorem Job.tick_spec (o : Options) (currTime : ℤ) {job : Job} (hpri : job.currPri = q) :
    (job.tick o currTime q).timeLeft = job.timeLeft - 1 ∧
      (job.tick o currTime q).toJobInfo = job.toJobInfo ∧
      (job.tick o currTime q).currPri ≤ q ∧
      (job.tick o currTime q).doingIo =
        (job.doingIo || decide (job.timeLeft - 1 ≠ 0 ∧ (job.run currTime).IssuesIo)) := by
  have hleft : (job.run currTime).timeLeft = job.timeLeft - 1 := rfl
  have hdoing : (job.run currTime).doingIo = job.doingIo := rfl
  rw [Job.tick]
  by_cases hzero : job.timeLeft - 1 = 0
  · rw [if_pos (hleft.trans hzero)]
    refine ⟨rfl, rfl, Nat.le_of_eq hpri, ?_⟩
    simp [hzero, Job.run]
  · rw [if_neg (fun hc => hzero (hleft.symm.trans hc))]
    by_cases hissues : (job.run currTime).IssuesIo
    · simp only [if_pos hissues]
      obtain ⟨h1, h2, h3, h4, -, -⟩ := Job.issueIo_frame o q (job.run currTime)
      split
      · obtain ⟨e1, e2, e3, -, -⟩ :=
          Job.endQuantum_frame o q ((job.run currTime).issueIo o q)
        refine ⟨e1.trans h1, e2.trans h2, Job.endQuantum_currPri (h3.trans hpri), ?_⟩
        rw [e3, h4]
        simp [hzero, hissues]
      · refine ⟨h1, h2, Nat.le_of_eq (h3.trans hpri), ?_⟩
        rw [h4]
        simp [hzero, hissues]
    · simp only [if_neg hissues]
      split
      · obtain ⟨e1, e2, e3, -, -⟩ := Job.endQuantum_frame o q (job.run currTime)
        refine ⟨e1, e2, Job.endQuantum_currPri hpri, ?_⟩
        rw [e3, hdoing]
        simp [hissues]
      · refine ⟨rfl, rfl, Nat.le_of_eq hpri, ?_⟩
        rw [hdoing]
        simp [hissues]

-- When the job that is run next can run again, if it waits for I/O.
def again (o : Options) (s : State) (j : ℕ) : Option ℤ :=
  if (s.job j).timeLeft - 1 ≠ 0 ∧ ((s.job j).run s.currTime).IssuesIo then
    some (s.currTime + 1 + o.ioTime)
  else none

theorem runTick_job (o : Options) (s : State) (q j : ℕ) : (runTick o s q j).job =
    Function.update s.job j ((s.job j).tick o s.currTime q) := by
  rw [runTick]
  split_ifs <;> rfl

theorem runTick_currTime (o : Options) (s : State) (q j : ℕ) :
    (runTick o s q j).currTime = s.currTime + 1 := by
  rw [runTick]
  split_ifs <;> rfl

theorem runTick_finished (o : Options) (s : State) (q j : ℕ) : (runTick o s q j).finishedJobs =
    s.finishedJobs + if (s.job j).timeLeft - 1 = 0 then 1 else 0 := by
  rw [runTick]
  by_cases hzero : (s.job j).timeLeft - 1 = 0
  · rw [if_pos hzero, if_pos (show ((s.job j).run s.currTime).timeLeft = 0 from hzero)]
  · rw [if_neg hzero, if_neg (show ¬ ((s.job j).run s.currTime).timeLeft = 0 from hzero)]
    split_ifs <;> rfl

theorem runTick_ioDone (o : Options) (s : State) (q j : ℕ) : (runTick o s q j).ioDone =
    match again o s j with
    | some t => post s.ioDone t (j, .ioDone)
    | none => s.ioDone := by
  rw [runTick, again]
  by_cases hzero : (s.job j).timeLeft - 1 = 0
  · rw [if_pos (show ((s.job j).run s.currTime).timeLeft = 0 from hzero),
      if_neg (fun hc => hc.1 hzero)]
  · rw [if_neg (show ¬ ((s.job j).run s.currTime).timeLeft = 0 from hzero)]
    by_cases hissues : ((s.job j).run s.currTime).IssuesIo
    · rw [if_pos hissues, if_pos ⟨hzero, hissues⟩]
    · have hnot : ¬ ((s.job j).timeLeft - 1 ≠ 0 ∧ ((s.job j).run s.currTime).IssuesIo) :=
        fun hc => hissues hc.2
      rw [if_neg hissues, if_neg hnot]
      split_ifs <;> rfl

theorem runTick_queue (h : Queued o n due s) (hq : s.queue q = j :: rest) :
    (∀ p i, i ≠ j → (i ∈ (runTick o s q j).queue p ↔ i ∈ s.queue p)) ∧
    (∀ p, j ∈ (runTick o s q j).queue p ↔ again o s j = none ∧
      0 < ((s.job j).tick o s.currTime q).timeLeft ∧
      ((s.job j).tick o s.currTime q).currPri = p) ∧
    ∀ p, ((runTick o s q j).queue p).Nodup := by
  obtain ⟨hjn, hdue, hleft, hpri⟩ := h.head hq
  obtain ⟨htime, -, -, -⟩ := Job.tick_spec o s.currTime hpri
  have honly : ∀ p, j ∈ s.queue p ↔ q = p := by
    intro p
    rw [h.mem p j, hpri]
    exact ⟨fun hc => hc.2.2.2, fun hc => ⟨hjn, hdue, hleft, hc⟩⟩
  have hnodup := h.nodup q
  rw [hq] at hnodup
  obtain ⟨hrest, hnodup⟩ := List.nodup_cons.mp hnodup
  have hpop : ∀ p i, i ∈ Function.update s.queue q (s.queue q).tail p ↔
      i ∈ s.queue p ∧ i ≠ j := by
    intro p i
    rcases eq_or_ne p q with rfl | hne
    · rw [Function.update_self, hq, List.tail_cons, List.mem_cons]
      rcases eq_or_ne i j with rfl | hij
      · simp [hrest]
      · simp [hij]
    · rw [Function.update_of_ne hne]
      refine ⟨fun hi => ⟨hi, fun hc => hne ((honly p).mp (hc ▸ hi)).symm⟩, fun hi => hi.1⟩
  have hpopped : ∀ p, (Function.update s.queue q (s.queue q).tail p).Nodup := by
    intro p
    rcases eq_or_ne p q with rfl | hne
    · rw [Function.update_self, hq, List.tail_cons]
      exact hnodup
    · rw [Function.update_of_ne hne]
      exact h.nodup p
  have hgone : (∀ p i, i ≠ j → (i ∈ Function.update s.queue q (s.queue q).tail p ↔
      i ∈ s.queue p)) ∧ ∀ p, j ∉ Function.update s.queue q (s.queue q).tail p :=
    ⟨fun p i hi => (hpop p i).trans (and_iff_left hi), fun p hc => ((hpop p j).mp hc).2 rfl⟩
  rw [runTick, again]
  by_cases hzero : (s.job j).timeLeft - 1 = 0
  · rw [if_pos (show ((s.job j).run s.currTime).timeLeft = 0 from hzero)]
    refine ⟨hgone.1, fun p => iff_of_false (hgone.2 p) (fun hc => ?_), hpopped⟩
    omega
  · rw [if_neg (show ¬ ((s.job j).run s.currTime).timeLeft = 0 from hzero)]
    by_cases hissues : ((s.job j).run s.currTime).IssuesIo
    · rw [if_pos hissues, if_pos ⟨hzero, hissues⟩]
      exact ⟨hgone.1, fun p => iff_of_false (hgone.2 p)
        (fun hc => Option.some_ne_none _ hc.1), hpopped⟩
    · have hnot : ¬ ((s.job j).timeLeft - 1 ≠ 0 ∧ ((s.job j).run s.currTime).IssuesIo) :=
        fun hc => hissues hc.2
      rw [if_neg hissues, if_neg hnot]
      by_cases hover : ((s.job j).run s.currTime).ticksLeft = 0
      · rw [if_pos hover]
        generalize ((s.job j).tick o s.currTime q) = after at htime ⊢
        have hpush : ∀ p i, i ∈ Function.update (Function.update s.queue q (s.queue q).tail)
            after.currPri (Function.update s.queue q (s.queue q).tail after.currPri ++ [j]) p ↔
            i ∈ Function.update s.queue q (s.queue q).tail p ∨ i = j ∧ p = after.currPri := by
          intro p i
          rcases eq_or_ne p after.currPri with rfl | hne
          · rw [Function.update_self]
            simp
          · rw [Function.update_of_ne hne]
            simp [hne]
        refine ⟨fun p i hi => ?_, fun p => ?_, fun p => ?_⟩
        · refine (hpush p i).trans ?_
          rw [hgone.1 p i hi]
          simp [hi]
        · refine (hpush p j).trans ?_
          refine ⟨fun hc => ⟨rfl, by omega, ?_⟩, fun hc => Or.inr ⟨rfl, hc.2.2.symm⟩⟩
          exact ((hc.resolve_left (hgone.2 p)).2).symm
        · change List.Nodup (Function.update (Function.update s.queue q (s.queue q).tail)
            after.currPri (Function.update s.queue q (s.queue q).tail after.currPri ++ [j]) p)
          rcases eq_or_ne p after.currPri with rfl | hne
          · rw [Function.update_self]
            exact (hpopped _).append (List.nodup_singleton j)
              (List.disjoint_singleton.mpr (hgone.2 _))
          · rw [Function.update_of_ne hne]
            exact hpopped p
      · rw [if_neg hover]
        have hstay : ((s.job j).tick o s.currTime q).currPri = q := by
          rw [Job.tick, if_neg (show ¬ ((s.job j).run s.currTime).timeLeft = 0 from hzero)]
          simp only [if_neg hissues, if_neg hover]
          exact hpri
        refine ⟨fun p i _ => Iff.rfl, fun p => ?_, h.nodup⟩
        rw [hstay]
        refine (honly p).trans ⟨fun hc => ⟨rfl, by omega, hc⟩, fun hc => hc.2.2⟩

theorem runTick_ran (h : Queued o n due s) (hq : s.queue q = j :: rest) :
    Ran o s j (again o s j) (runTick o s q j) := by
  obtain ⟨hjn, hdue, hleft, hpri⟩ := h.head hq
  obtain ⟨hio, -⟩ := h.awake j hjn hdue
  obtain ⟨htime, hinfo, hle, hdoing⟩ := Job.tick_spec o s.currTime hpri
  obtain ⟨hstays, hagain, hnodup⟩ := runTick_queue h hq
  have hself : (runTick o s q j).job j = (s.job j).tick o s.currTime q := by
    rw [runTick_job, Function.update_self]
  refine ⟨fun i hi => ?_, hstays, fun p => ?_, hnodup, ?_, ?_, ?_, ?_, fun hsome => ?_,
    runTick_currTime o s q j, ?_⟩
  · rw [runTick_job, Function.update_of_ne hi]
  · rw [hself]
    exact hagain p
  · rw [hself]
    exact Nat.le_trans hle (hpri ▸ h.pri j)
  · rw [hself, htime]
  · rw [hself, hinfo]
  · rw [hself, hdoing, hio, again]
    split_ifs with hc
    · simp [hc]
    · simp [hc]
  · rw [hself, htime]
    rw [again] at hsome
    split_ifs at hsome with hc
    · omega
    · exact absurd hsome Bool.false_ne_true
  · rw [hself, htime]
    exact runTick_finished o s q j

end Mlfq
