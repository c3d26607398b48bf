import HTWGArchive.Simulator.TickPhases

namespace Simulator

def Config.withStart (cfg : Config) (start : UInt32) : Config :=
  { cfg with tStart := start }

-- No job executes while one window is open and the other is not.
def IdleBetween (start start' : UInt32) (ts : List Tick) : Prop :=
  ∀ t ∈ ts, ¬(start ≤ t.start.tick ↔ start' ≤ t.start.tick) → t.dispatched.next = none

instance (start start' : UInt32) (ts : List Tick) : Decidable (IdleBetween start start' ts) :=
  inferInstanceAs (Decidable (∀ t ∈ ts, ¬(start ≤ t.start.tick ↔ start' ≤ t.start.tick) →
    t.dispatched.next = none))

-- From the later of the two starts on, the same row is printed.
def SameRow (start start' : UInt32) (t u : Tick) : Prop :=
  u.start.tick = t.start.tick ∧ (start ≤ t.start.tick → start' ≤ t.start.tick → u.row = t.row)

instance (start start' : UInt32) (t u : Tick) : Decidable (SameRow start start' t u) :=
  inferInstanceAs (Decidable (_ ∧ _))

section Start

variable (cfg : Config) (start : UInt32)

theorem handleDeadlineQueues_withStart (σ : Sim) :
    handleDeadlineQueues (cfg.withStart start) σ = handleDeadlineQueues cfg σ := rfl

theorem prioritizeQueues_withStart (σ : Sim) :
    prioritizeQueues (cfg.withStart start) σ = prioritizeQueues cfg σ := rfl

theorem lockResources_withStart (σ : Sim) (t : TaskStruct) :
    lockResources (cfg.withStart start) σ t = lockResources cfg σ t := rfl

theorem addTasks_withStart (σ : Sim) :
    addTasksFromBlockedQueueToReadyQueue (cfg.withStart start) σ =
      addTasksFromBlockedQueueToReadyQueue cfg σ := rfl

theorem dispatchLoop_withStart (fuel : ℕ) (σ : Sim) :
    dispatchLoop (cfg.withStart start) fuel σ = dispatchLoop cfg fuel σ := by
  induction fuel generalizing σ with
  | zero => rfl
  | succ fuel ih =>
    rw [dispatchLoop, dispatchLoop, prioritizeQueues_withStart]
    cases pickNextTask (prioritizeQueues cfg σ).readyQueue with
    | none => rfl
    | some t =>
      simp only [lockResources_withStart, ih]

theorem dispatch_withStart (σ : Sim) : dispatch (cfg.withStart start) σ = dispatch cfg σ :=
  dispatchLoop_withStart cfg start σ.readyQueue.length σ

end Start

theorem updateNext_tick (σ : Sim) (f : TaskStruct → TaskStruct) :
    (σ.updateNext f).tick = σ.tick :=
  congrArg Prod.fst (updateNext_still σ f)

theorem updateNext_none {σ : Sim} (h : σ.next = none) (f : TaskStruct → TaskStruct) :
    σ.updateNext f = σ := by
  rw [Sim.updateNext, h]

-- The remaining time of the running job is the one thing that depends on the window.
theorem execute_withStart {cfg : Config} {start start' : UInt32} {σ : Sim}
    (h : σ.next = none ∨ (start ≤ σ.tick ↔ start' ≤ σ.tick)) :
    execute (cfg.withStart start) σ = execute (cfg.withStart start') σ := by
  let next : Sim := handleReactionTime (σ.updateNext removeTaskIfFinishedExecution)
  have htick : next.tick = σ.tick := updateNext_tick σ removeTaskIfFinishedExecution
  rcases h with hnone | hiff
  · have hnext : next.next = none := by
      have hsame : next.next = σ.next := updateNext_next σ removeTaskIfFinishedExecution
      rw [hsame, hnone]
    have hspend : next.updateNext spendTick = next := updateNext_none hnext spendTick
    have hexecute : ∀ s : UInt32, execute (cfg.withStart s) σ = next := by
      intro s
      rw [execute]
      split
      · exact hspend
      · rfl
    rw [hexecute, hexecute]
  · rw [← htick] at hiff
    rcases Decidable.em (start ≤ next.tick) with hopen | hclosed
    · exact (if_pos hopen).trans (if_pos (hiff.mp hopen)).symm
    · exact (if_neg hclosed).trans (if_neg (fun h => hclosed (hiff.mpr h))).symm

theorem tickAfterRelease_withStart {cfg : Config} {start start' : UInt32} {σ pending : Sim}
    (hpending : pending.tick = σ.tick)
    (h : (tickAfterRelease (cfg.withStart start) σ pending).dispatched.next = none ∨
      (start ≤ σ.tick ↔ start' ≤ σ.tick)) :
    (tickAfterRelease (cfg.withStart start') σ pending).final =
        (tickAfterRelease (cfg.withStart start) σ pending).final ∧
      SameRow start start' (tickAfterRelease (cfg.withStart start) σ pending)
        (tickAfterRelease (cfg.withStart start') σ pending) := by
  let deleted : Sim := deleteFromQueues (handleDeadlineQueues cfg (handleReadyQueue pending))
  have hdispatch : ∀ s : UInt32, dispatch (cfg.withStart s) deleted = dispatch cfg deleted :=
    fun s => dispatch_withStart cfg s deleted
  let picked : Sim := { (dispatch cfg deleted).picked with
    next := (dispatch cfg deleted).next.map TaskStruct.addr }
  have htick : picked.tick = σ.tick := by
    have hstill := (dispatchLoop_still cfg deleted.readyQueue.length deleted).2.trans
      (deleteFromQueues_still (handleDeadlineQueues cfg (handleReadyQueue pending)))
    exact (congrArg Prod.fst hstill).trans hpending
  have hexecute : execute (cfg.withStart start) picked = execute (cfg.withStart start') picked := by
    apply execute_withStart
    rcases h with hnone | hiff
    · left
      have hnext : (dispatch (cfg.withStart start) deleted).next = none := hnone
      rw [hdispatch] at hnext
      exact congrArg (Option.map TaskStruct.addr) hnext
    · right
      rwa [htick]
  have hfinal : ∀ s : UInt32, (tickAfterRelease (cfg.withStart s) σ pending).final =
      { addTasksFromBlockedQueueToReadyQueue cfg
          (handlePreemption (releaseSections (execute (cfg.withStart s) picked)) σ.next) with
        tick := σ.tick + 1, actionsStatus := [], resourceStatus := [] } := by
    intro s
    simp only [tickAfterRelease, handleDeadlineQueues_withStart, addTasks_withStart]
    rw [hdispatch]
  have hrow : ∀ s : UInt32, (tickAfterRelease (cfg.withStart s) σ pending).row =
      if s ≤ σ.tick then
        some (rowOf (execute (cfg.withStart s) picked)
          (addTasksFromBlockedQueueToReadyQueue cfg
            (handlePreemption (releaseSections (execute (cfg.withStart s) picked)) σ.next))
          (dispatch cfg deleted).next)
      else none := by
    intro s
    simp only [tickAfterRelease, handleDeadlineQueues_withStart, addTasks_withStart]
    rw [hdispatch]
    rfl
  refine ⟨?_, rfl, ?_⟩
  · rw [hfinal, hfinal, hexecute]
  · intro hopen hopen'
    have hstart : start ≤ σ.tick := hopen
    have hstart' : start' ≤ σ.tick := hopen'
    rw [hrow, hrow, if_pos hstart, if_pos hstart', hexecute]

theorem simTick_withStart (start' : UInt32) {cfg : Config} {start : UInt32} {σ : Sim} {t : Tick}
    (ht : simTick (cfg.withStart start) σ = some t)
    (h : ¬(start ≤ t.start.tick ↔ start' ≤ t.start.tick) → t.dispatched.next = none) :
    ∃ u, simTick (cfg.withStart start') σ = some u ∧ u.final = t.final ∧ SameRow start start' t u := by
  obtain ⟨pending, hpending, rfl⟩ := Option.map_eq_some_iff.mp ht
  have htick : pending.tick = σ.tick := by
    rw [handlePendingQueue] at hpending
    split at hpending
    · cases hpending
    · obtain rfl := Option.some_inj.mp hpending
      rfl
  have hcase : (tickAfterRelease (cfg.withStart start) σ pending).dispatched.next = none ∨
      (start ≤ σ.tick ↔ start' ≤ σ.tick) := by
    rcases Decidable.em (start ≤ σ.tick ↔ start' ≤ σ.tick) with hiff | hnot
    · exact Or.inr hiff
    · exact Or.inl (h hnot)
  obtain ⟨hfinal, hrow⟩ := tickAfterRelease_withStart htick hcase
  refine ⟨tickAfterRelease (cfg.withStart start') σ pending, ?_, hfinal, hrow⟩
  rw [simTick, hpending]
  rfl

theorem simScheduler_withStart {cfg : Config} {start start' : UInt32} {n : ℕ} {σ σ' : Sim}
    {ts : List Tick} (hrun : simScheduler (cfg.withStart start) n σ = some (ts, σ'))
    (hidle : IdleBetween start start' ts) :
    ∃ us, simScheduler (cfg.withStart start') n σ = some (us, σ') ∧
      List.Forall₂ (SameRow start start') ts us := by
  induction n generalizing σ ts with
  | zero =>
    rw [simScheduler, Option.some_inj, Prod.mk.injEq] at hrun
    obtain ⟨rfl, rfl⟩ := hrun
    exact ⟨[], rfl, List.Forall₂.nil⟩
  | succ n ih =>
    rw [simScheduler] at hrun ⊢
    rcases Decidable.em (σ.tick ≤ cfg.tStop) with hstop | hend
    · have hstop₁ : σ.tick ≤ (cfg.withStart start).tStop := hstop
      have hstop₂ : σ.tick ≤ (cfg.withStart start').tStop := hstop
      rw [if_pos hstop₁] at hrun
      rw [if_pos hstop₂]
      cases ht : simTick (cfg.withStart start) σ with
      | none => simp [ht] at hrun
      | some t =>
        simp only [ht, Option.map_eq_some_iff, Prod.mk.injEq, Prod.exists] at hrun
        obtain ⟨rest, last, hrest, rfl, rfl⟩ := hrun
        obtain ⟨u, hu, hfinal, hrow⟩ := simTick_withStart start' ht
          (hidle t List.mem_cons_self)
        obtain ⟨us, hus, hrows⟩ := ih hrest (fun x hx => hidle x (List.mem_cons_of_mem t hx))
        refine ⟨u :: us, ?_, List.Forall₂.cons hrow hrows⟩
        simp only [hu, hfinal, hus, Option.map_some]
    · have hend₁ : ¬σ.tick ≤ (cfg.withStart start).tStop := hend
      have hend₂ : ¬σ.tick ≤ (cfg.withStart start').tStop := hend
      rw [if_neg hend₁, Option.some_inj, Prod.mk.injEq] at hrun
      obtain ⟨rfl, rfl⟩ := hrun
      exact ⟨[], by rw [if_neg hend₂], List.Forall₂.nil⟩

def SameOutput (start start' : UInt32) (run run' : List Tick × Sim) : Prop :=
  List.Forall₂ (SameRow start start') run.1 run'.1 ∧ run'.2.stats = run.2.stats ∧
    run'.2.killedTasks = run.2.killedTasks

instance (start start' : UInt32) (run run' : List Tick × Sim) :
    Decidable (SameOutput start start' run run') :=
  inferInstanceAs (Decidable (_ ∧ _ ∧ _))

theorem start_invisible (cfg : Config) (start start' : UInt32) (rows : List TaskRow) (n : ℕ)
    (run run' : List Tick × Sim)
    (hrun : simScheduler (cfg.withStart start) n (initial rows) = some run)
    (hrun' : simScheduler (cfg.withStart start') n (initial rows) = some run')
    (hidle : IdleBetween start start' run.1) : SameOutput start start' run run' := by
  obtain ⟨us, hus, hrows⟩ := simScheduler_withStart hrun hidle
  obtain rfl := Option.some_inj.mp (hus.symm.trans hrun')
  exact ⟨hrows, rfl, rfl⟩

def lateRelease : List TaskRow :=
  [⟨"A", 2, 9, 2, 9, [("X", 0, 1)]⟩, ⟨"B", 3, 9, 1, 5, [("X", 0, 1)]⟩]

theorem start_invisible_late_release :
    ∃ run run', simScheduler ((nokillDm 8).withStart 0) 9 (initial lateRelease) = some run ∧
      simScheduler ((nokillDm 8).withStart 2) 9 (initial lateRelease) = some run' ∧
        SameOutput 0 2 run run' := by
  have hidle : ∃ run ∈ simScheduler ((nokillDm 8).withStart 0) 9 (initial lateRelease),
      IdleBetween 0 2 run.1 := by
    decide +kernel
  have hother : (simScheduler ((nokillDm 8).withStart 2) 9 (initial lateRelease)).isSome := by
    decide +kernel
  obtain ⟨run, hrun, hidle⟩ := hidle
  obtain ⟨run', hrun'⟩ := Option.isSome_iff_exists.mp hother
  exact ⟨run, run', hrun, hrun', start_invisible _ 0 2 _ 9 run run' hrun hrun' hidle⟩

def oneJob : List TaskRow :=
  [⟨"A", 0, 9, 2, 9, []⟩]

theorem start_visible :
    ¬∀ (cfg : Config) (start start' : UInt32) (rows : List TaskRow) (n : ℕ)
      (run run' : List Tick × Sim), start ≤ cfg.tStop → start' ≤ cfg.tStop →
        simScheduler (cfg.withStart start) n (initial rows) = some run →
          simScheduler (cfg.withStart start') n (initial rows) = some run' →
            SameOutput start start' run run' := by
  intro h
  have hdiffer : ∃ run ∈ simScheduler ((nokillDm 8).withStart 0) 9 (initial oneJob),
      ∃ run' ∈ simScheduler ((nokillDm 8).withStart 1) 9 (initial oneJob),
        ¬SameOutput 0 1 run run' := by
    decide +kernel
  obtain ⟨run, hrun, run', hrun', hbad⟩ := hdiffer
  exact hbad (h (nokillDm 8) 0 1 oneJob 9 run run' (by decide) (by decide) hrun hrun')

end Simulator
