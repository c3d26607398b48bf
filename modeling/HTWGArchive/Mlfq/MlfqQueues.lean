import HTWGArchive.Library.Agenda
import HTWGArchive.Mlfq.MlfqScheduler
import Mathlib.Algebra.GroupWithZero.Nat
import Mathlib.Algebra.Order.BigOperators.Group.Finset
import Mathlib.Data.Finset.Card

namespace Mlfq

open Agenda

variable {o : Options} {n : ℕ} {s s' : State} {due : ℕ → Option ℤ} {j q : ℕ} {t : ℤ}

@[simp] theorem Job.boost_timeLeft (job : Job) : (job.boost o).timeLeft = job.timeLeft := by
  rw [Job.boost]
  split <;> rfl

@[simp] theorem Job.boost_doingIo (job : Job) : (job.boost o).doingIo = job.doingIo := by
  rw [Job.boost]
  split <;> rfl

@[simp] theorem Job.boost_toJobInfo (job : Job) : (job.boost o).toJobInfo = job.toJobInfo := by
  rw [Job.boost]
  split <;> rfl

theorem Job.boost_currPri {job : Job} (h : 0 < job.timeLeft) :
    (job.boost o).currPri = o.hiQueue := by
  rw [Job.boost, if_pos h]

theorem Job.boost_currPri_le {job : Job} (h : job.currPri ≤ o.hiQueue) :
    (job.boost o).currPri ≤ o.hiQueue := by
  rw [Job.boost]
  split
  · exact Nat.le_refl _
  · exact h

theorem boostJobs_apply (o : Options) (job : ℕ → Job) (n j : ℕ) :
    boostJobs o n job j = if j < n then (job j).boost o else job j := by
  induction n with
  | zero => rfl
  | succ n ih =>
    have hlast : boostJobs o (n + 1) job =
        Function.update (boostJobs o n job) n ((boostJobs o n job n).boost o) := by
      rw [boostJobs, List.range_succ, List.foldl_concat]
      rfl
    have hn : boostJobs o n job n = job n := by
      have hfold : ∀ m ≤ n, boostJobs o m job n = job n := by
        intro m
        induction m with
        | zero => exact fun _ => rfl
        | succ m ihm =>
          intro hm
          rw [boostJobs, List.range_succ, List.foldl_concat,
            Function.update_of_ne (by omega : n ≠ m)]
          exact ihm (by omega)
      exact hfold n (Nat.le_refl n)
    rw [hlast, hn]
    rcases eq_or_ne j n with rfl | hne
    · rw [Function.update_self, if_pos (Nat.lt_succ_self j)]
    · rw [Function.update_of_ne hne, ih]
      have hlt : j < n ↔ j < n + 1 := by omega
      simp only [hlt]

-- The lower queues up to the `k`th have been emptied.
theorem boostQueues_fold (o : Options) (job : ℕ → Job) (queue : ℕ → List ℕ) (q : ℕ) :
    ∀ k ≤ o.hiQueue, (List.range k).foldl (fun queue q =>
      Function.update (Function.update queue o.hiQueue
        (queue o.hiQueue ++ (queue q).filter (fun j => !(job j).doingIo))) q []) queue q =
      if q = o.hiQueue then queue o.hiQueue ++
        (List.range k).flatMap (fun q => (queue q).filter (fun j => !(job j).doingIo))
      else if q < k then [] else queue q := by
  intro k
  induction k generalizing q with
  | zero =>
    intro _
    by_cases hq : q = o.hiQueue
    · simp [hq]
    · simp [hq]
  | succ k ih =>
    intro hk
    rw [List.range_succ, List.foldl_concat]
    have hkq : k ≠ o.hiQueue := by omega
    rcases eq_or_ne q k with rfl | hne
    · rw [Function.update_self, if_neg hkq, if_pos (Nat.lt_succ_self q)]
    · rw [Function.update_of_ne hne]
      by_cases hq : q = o.hiQueue
      · subst hq
        rw [Function.update_self, ih _ (by omega), ih _ (by omega), if_pos rfl, if_pos rfl,
          if_neg hkq, if_neg (Nat.lt_irrefl k), List.flatMap_append, List.append_assoc]
        simp
      · rw [Function.update_of_ne hq, ih _ (by omega), if_neg hq, if_neg hq]
        have hlt : q < k ↔ q < k + 1 := by omega
        simp only [hlt]

theorem boostQueues_apply (o : Options) (job : ℕ → Job) (queue : ℕ → List ℕ) (q : ℕ) :
    boostQueues o job queue q = if q = o.hiQueue then queue o.hiQueue ++
        (List.range o.hiQueue).flatMap (fun q => (queue q).filter (fun j => !(job j).doingIo))
      else if q < o.hiQueue then [] else queue q :=
  boostQueues_fold o job queue q o.hiQueue (Nat.le_refl _)

-- The jobs in the queues are just those that can run, each in the queue of its priority; `due` says
-- when the others come back or begin.
structure Queued (o : Options) (n : ℕ) (due : ℕ → Option ℤ) (s : State) : Prop where
  mem : ∀ q j, j ∈ s.queue q ↔
    j < n ∧ due j = none ∧ 0 < (s.job j).timeLeft ∧ (s.job j).currPri = q
  nodup : ∀ q, (s.queue q).Nodup
  pri : ∀ j, (s.job j).currPri ≤ o.hiQueue
  waiting : ∀ j t, due j = some t → j < n ∧ 0 < (s.job j).timeLeft
  left : ∀ j, j < n → 0 ≤ (s.job j).timeLeft
  awake : ∀ j, j < n → due j = none →
    (s.job j).doingIo = false ∧ (s.job j).startTime ≤ s.currTime
  asleep : ∀ j t, due j = some t →
    ((s.job j).doingIo = true ∧ (s.job j).startTime ≤ s.currTime) ∨
      (s.job j).doingIo = false ∧ t = (s.job j).startTime
  finished : s.finishedJobs =
    ((Finset.range n).filter (fun j => (s.job j).timeLeft = 0)).card

theorem Queued.head {rest : List ℕ} (h : Queued o n due s) (hq : s.queue q = j :: rest) :
    j < n ∧ due j = none ∧ 0 < (s.job j).timeLeft ∧ (s.job j).currPri = q := by
  refine (h.mem q j).mp ?_
  rw [hq]
  exact List.mem_cons_self

theorem Queued.mem_boostQueues (h : Queued o n due s) (q j : ℕ) :
    j ∈ boostQueues o s.job s.queue q ↔
      q = o.hiQueue ∧ j < n ∧ due j = none ∧ 0 < (s.job j).timeLeft := by
  rw [boostQueues_apply]
  by_cases hq : q = o.hiQueue
  · rw [if_pos hq, List.mem_append, List.mem_flatMap]
    constructor
    · rintro (hj | ⟨p, -, hj⟩)
      · exact ⟨hq, ((h.mem _ j).mp hj).1, ((h.mem _ j).mp hj).2.1, ((h.mem _ j).mp hj).2.2.1⟩
      · have hj' := (h.mem p j).mp (List.mem_filter.mp hj).1
        exact ⟨hq, hj'.1, hj'.2.1, hj'.2.2.1⟩
    · rintro ⟨-, hj, hdue, hleft⟩
      rcases Nat.lt_or_eq_of_le (h.pri j) with hlt | heq
      · refine Or.inr ⟨_, List.mem_range.mpr hlt, List.mem_filter.mpr ⟨?_, ?_⟩⟩
        · exact (h.mem _ j).mpr ⟨hj, hdue, hleft, rfl⟩
        · simp [(h.awake j hj hdue).1]
      · exact Or.inl ((h.mem _ j).mpr ⟨hj, hdue, hleft, heq⟩)
  · rw [if_neg hq]
    refine iff_of_false ?_ (fun hj => hq hj.1)
    by_cases hlt : q < o.hiQueue
    · rw [if_pos hlt]
      exact List.not_mem_nil
    · rw [if_neg hlt]
      intro hj
      have hpri := ((h.mem q j).mp hj).2.2.2
      have hle := h.pri j
      omega

theorem Queued.nodup_boostQueues (h : Queued o n due s) (q : ℕ) :
    (boostQueues o s.job s.queue q).Nodup := by
  have hpri : ∀ {p j}, j ∈ s.queue p → (s.job j).currPri = p :=
    fun hj => ((h.mem _ _).mp hj).2.2.2
  rw [boostQueues_apply]
  split
  · refine (h.nodup _).append ?_ ?_
    · rw [List.nodup_flatMap]
      refine ⟨fun p _ => (h.nodup p).filter _, List.nodup_range.imp (fun hne => ?_)⟩
      intro j hj hj'
      exact hne ((hpri (List.mem_filter.mp hj).1).symm.trans (hpri (List.mem_filter.mp hj').1))
    · intro j hj hj'
      obtain ⟨p, hp, hj'⟩ := List.mem_flatMap.mp hj'
      have heq := (hpri hj).symm.trans (hpri (List.mem_filter.mp hj').1)
      have hlt := List.mem_range.mp hp
      omega
  · split
    · exact List.nodup_nil
    · exact h.nodup q

theorem Queued.boost (h : Queued o n due s) : Queued o n due (boost o n s) := by
  rw [Mlfq.boost]
  by_cases hboost : o.Boosts s.currTime
  · rw [if_pos hboost]
    have hjob : ∀ j, (boostJobs o n s.job j).timeLeft = (s.job j).timeLeft ∧
        (boostJobs o n s.job j).doingIo = (s.job j).doingIo ∧
        (boostJobs o n s.job j).startTime = (s.job j).startTime := by
      intro j
      rw [boostJobs_apply]
      split
      · exact ⟨Job.boost_timeLeft _, Job.boost_doingIo _,
          congrArg JobInfo.startTime (Job.boost_toJobInfo _)⟩
      · exact ⟨rfl, rfl, rfl⟩
    refine ⟨fun q j => ?_, h.nodup_boostQueues, fun j => ?_, fun j t hj => ?_, fun j hj => ?_,
      fun j hj hdue => ?_, fun j t hj => ?_, ?_⟩
    · rw [h.mem_boostQueues q j, (hjob j).1]
      constructor
      · rintro ⟨rfl, hj, hdue, hleft⟩
        refine ⟨hj, hdue, hleft, ?_⟩
        change (boostJobs o n s.job j).currPri = _
        rw [boostJobs_apply, if_pos hj, Job.boost_currPri hleft]
      · rintro ⟨hj, hdue, hleft, hpri⟩
        change (boostJobs o n s.job j).currPri = _ at hpri
        rw [boostJobs_apply, if_pos hj, Job.boost_currPri hleft] at hpri
        exact ⟨hpri.symm, hj, hdue, hleft⟩
    · change (boostJobs o n s.job j).currPri ≤ _
      rw [boostJobs_apply]
      split
      · exact Job.boost_currPri_le (h.pri j)
      · exact h.pri j
    · rw [(hjob j).1]
      exact h.waiting j t hj
    · rw [(hjob j).1]
      exact h.left j hj
    · rw [(hjob j).2.1, (hjob j).2.2]
      exact h.awake j hj hdue
    · rw [(hjob j).2.1, (hjob j).2.2]
      exact h.asleep j t hj
    · rw [h.finished]
      simp only [fun j => (hjob j).1]
  · rwa [if_neg hboost]

theorem Queued.interrupt (h : Queued o n due s) (hdue : due j = some s.currTime)
    (kind : Interrupt) :
    Queued o n (Function.update due j none) (interrupt o s (j, kind)) := by
  obtain ⟨hj, hleft⟩ := h.waiting j s.currTime hdue
  have hnone : ∀ q, j ∉ s.queue q := by
    intro q hmem
    have hd := ((h.mem q j).mp hmem).2.1
    rw [hdue] at hd
    exact Option.some_ne_none _ hd
  have hmem : ∀ q i, i ∈ (Mlfq.interrupt o s (j, kind)).queue q ↔
      i ∈ s.queue q ∨ i = j ∧ q = (s.job j).currPri := by
    intro q i
    change i ∈ (if _ then Function.update s.queue (s.job j).currPri _
      else Function.update s.queue (s.job j).currPri _) q ↔ _
    split
    · rcases eq_or_ne q (s.job j).currPri with rfl | hne
      · simp
      · simp [hne]
    · rcases eq_or_ne q (s.job j).currPri with rfl | hne
      · simp [or_comm]
      · simp [hne]
  have hnodup : ∀ q, ((Mlfq.interrupt o s (j, kind)).queue q).Nodup := by
    intro q
    change ((if _ then Function.update s.queue (s.job j).currPri _
      else Function.update s.queue (s.job j).currPri _) q).Nodup
    split
    · rcases eq_or_ne q (s.job j).currPri with rfl | hne
      · rw [Function.update_self]
        exact (h.nodup _).append (List.nodup_singleton j)
          (List.disjoint_singleton.mpr (hnone _))
      · rw [Function.update_of_ne hne]
        exact h.nodup q
    · rcases eq_or_ne q (s.job j).currPri with rfl | hne
      · rw [Function.update_self]
        exact List.nodup_cons.mpr ⟨hnone _, h.nodup _⟩
      · rw [Function.update_of_ne hne]
        exact h.nodup q
  have hjob : ∀ i, ((Mlfq.interrupt o s (j, kind)).job i).timeLeft = (s.job i).timeLeft ∧
      ((Mlfq.interrupt o s (j, kind)).job i).currPri = (s.job i).currPri ∧
      ((Mlfq.interrupt o s (j, kind)).job i).startTime = (s.job i).startTime := by
    intro i
    change (Function.update s.job j _ i).timeLeft = _ ∧ (Function.update s.job j _ i).currPri = _ ∧
      (Function.update s.job j _ i).startTime = _
    rcases eq_or_ne i j with rfl | hne
    · rw [Function.update_self]
      exact ⟨rfl, rfl, rfl⟩
    · rw [Function.update_of_ne hne]
      exact ⟨rfl, rfl, rfl⟩
  refine ⟨fun q i => ?_, hnodup, fun i => ?_, fun i t hi => ?_, fun i hi => ?_, fun i hi hd => ?_,
    fun i t hi => ?_, ?_⟩
  · rw [hmem q i, h.mem q i, (hjob i).1, (hjob i).2.1]
    rcases eq_or_ne i j with rfl | hne
    · rw [Function.update_self, hdue]
      simp [hj, hleft, eq_comm]
    · simp [hne]
  · rw [(hjob i).2.1]
    exact h.pri i
  · rw [(hjob i).1]
    rcases eq_or_ne i j with rfl | hne
    · exact ⟨hj, hleft⟩
    · rw [Function.update_of_ne hne] at hi
      exact h.waiting i t hi
  · rw [(hjob i).1]
    exact h.left i hi
  · rw [(hjob i).2.2]
    change (Function.update s.job j _ i).doingIo = false ∧ _ ≤ s.currTime
    rcases eq_or_ne i j with rfl | hne
    · rw [Function.update_self]
      rcases h.asleep i _ hdue with ⟨-, hle⟩ | ⟨-, heq⟩
      · exact ⟨rfl, hle⟩
      · exact ⟨rfl, Int.le_of_eq heq.symm⟩
    · rw [Function.update_of_ne hne] at hd ⊢
      exact h.awake i hi hd
  · rw [(hjob i).2.2]
    change ((Function.update s.job j _ i).doingIo = true ∧ _ ≤ s.currTime) ∨
      (Function.update s.job j _ i).doingIo = false ∧ _
    rcases eq_or_ne i j with rfl | hne
    · rw [Function.update_self] at hi
      exact absurd hi.symm (Option.some_ne_none t)
    · rw [Function.update_of_ne hne] at hi ⊢
      exact h.asleep i t hi
  · simp only [fun i => (hjob i).1]
    exact h.finished

theorem Queued.interrupts_fold {events : List (ℕ × Interrupt)} (h : Queued o n due s)
    (hnodup : (events.map Prod.fst).Nodup)
    (hdue : ∀ j ∈ events.map Prod.fst, due j = some s.currTime) :
    Queued o n (fun j => if j ∈ events.map Prod.fst then none else due j)
      (events.foldl (Mlfq.interrupt o) s) := by
  induction events generalizing due s with
  | nil => simpa using h
  | cons event events ih =>
    obtain ⟨j, kind⟩ := event
    obtain ⟨hj, hrest⟩ := List.nodup_cons.mp hnodup
    have hstep := h.interrupt (hdue j List.mem_cons_self) kind
    have hfold := ih hstep hrest (fun i hi => by
      have hne : i ≠ j := fun hc => hj (hc ▸ hi)
      rw [Function.update_of_ne hne]
      exact hdue i (List.mem_cons_of_mem _ hi))
    have hsame : (fun i => if i ∈ events.map Prod.fst then none else Function.update due j none i) =
        fun i => if i ∈ (((j, kind) :: events).map Prod.fst) then none else due i := by
      funext i
      rcases eq_or_ne i j with rfl | hne
      · simp
      · have hmem : i ∈ ((j, kind) :: events).map Prod.fst ↔ i ∈ events.map Prod.fst := by
          rw [List.map_cons, List.mem_cons]
          exact or_iff_right hne
        simp only [hmem, Function.update_of_ne hne]
    rw [hsame] at hfold
    exact hfold

-- The interrupts change no job but for `doingIo`.
theorem interrupts_frame (o : Options) (events : List (ℕ × Interrupt)) (s : State) :
    (events.foldl (Mlfq.interrupt o) s).currTime = s.currTime ∧
      (events.foldl (Mlfq.interrupt o) s).ioDone = s.ioDone ∧
      ∀ j, ∃ doing, (events.foldl (Mlfq.interrupt o) s).job j =
        { s.job j with doingIo := doing } := by
  induction events generalizing s with
  | nil => exact ⟨rfl, rfl, fun j => ⟨(s.job j).doingIo, rfl⟩⟩
  | cons event events ih =>
    obtain ⟨htime, hio, hjob⟩ := ih (Mlfq.interrupt o s event)
    refine ⟨htime, hio, fun j => ?_⟩
    obtain ⟨doing, hdoing⟩ := hjob j
    refine ⟨doing, hdoing.trans ?_⟩
    rcases eq_or_ne j event.1 with rfl | hne
    · simp [Mlfq.interrupt]
    · simp [Mlfq.interrupt, hne]

theorem Queued.interrupts (h : Queued o n due s) (hlists : Lists s.ioDone s.currTime due) :
    Queued o n (served s.currTime due) (interrupts o s) := by
  have hnow : ∀ j, j ∈ (s.ioDone s.currTime).map Prod.fst ↔ due j = some s.currTime :=
    hlists.listed _ (Int.le_refl _)
  have hfold := h.interrupts_fold (hlists.nodup _ (Int.le_refl _)) (fun j hj => (hnow j).mp hj)
  have hsame : (fun j => if j ∈ (s.ioDone s.currTime).map Prod.fst then none else due j) =
      served s.currTime due := by
    funext j
    simp only [hnow, served]
  rw [hsame] at hfold
  exact hfold

end Mlfq
