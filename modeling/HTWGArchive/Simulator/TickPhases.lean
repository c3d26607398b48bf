import HTWGArchive.Simulator.WellFormed

namespace Simulator

inductive Ran (cfg : Config) (t : Tick) : Prop where
  | idle : t.dispatched.job = none → t.dispatched.next = none →
      t.dispatched.chosen.readyQueue = [] → t.dispatched.picked = t.dispatched.chosen →
      t.executed.board = t.dispatched.picked.board →
      t.finished.board = t.dispatched.picked.board → Ran cfg t
  | running (j j' : TaskStruct) (n' : TaskStruct) : t.dispatched.job = some j →
      t.dispatched.next = some j' →
      Runs j.core j'.core t.dispatched.chosen.board t.dispatched.picked.board →
      t.executed.board = t.dispatched.picked.board.update j.addr (work cfg t.start.tick) →
      Releases (work cfg t.start.tick j'.core) n' t.executed.board t.finished.board → Ran cfg t

structure TickPhases (cfg : Config) (t : Tick) : Prop where
  pending : t.released.pendingQueue.map TaskStruct.id =
    (t.start.tasks.filter (due t.start.tick)).map TaskStruct.id
  released : ∃ fresh, t.start.board.fresh ≤ fresh ∧
    t.released.board = t.start.board.release t.start.tick fresh
  checked : t.checked.board = t.released.board.check cfg
  deleted : Deleted t.checked.board t.deleted.board
  rounds : Relation.ReflTransGen Waiting t.deleted.board t.dispatched.chosen.board
  ran : Ran cfg t
  resumed : Resuming (t.finished.resources.map GlobalTaskResource.name)
    t.finished.board t.final.board

structure Sound (σ : Sim) : Prop where
  board : WellFormed σ.board
  pending : σ.pendingQueue = []

namespace TickPhases

variable {cfg : Config} {t : Tick}

theorem wf_released (h : TickPhases cfg t) (hstart : WellFormed t.start.board) :
    WellFormed t.released.board := by
  obtain ⟨fresh, hfresh, hboard⟩ := h.released
  rw [hboard]
  exact hstart.release t.start.tick hfresh

theorem wf_checked (h : TickPhases cfg t) (hstart : WellFormed t.start.board) :
    WellFormed t.checked.board := by
  rw [h.checked]
  exact (h.wf_released hstart).mapped (check_mapped cfg _)

theorem wf_deleted (h : TickPhases cfg t) (hstart : WellFormed t.start.board) :
    WellFormed t.deleted.board :=
  (h.wf_checked hstart).deleted h.deleted

theorem wf_chosen (h : TickPhases cfg t) (hstart : WellFormed t.start.board) :
    WellFormed t.dispatched.chosen.board :=
  (h.wf_deleted hstart).waiting h.rounds

theorem wf_finished (h : TickPhases cfg t) (hstart : WellFormed t.start.board) :
    WellFormed t.finished.board := by
  have hchosen := h.wf_chosen hstart
  cases h.ran with
  | idle _ _ _ hpicked _ hfinished => rwa [hfinished, hpicked]
  | running j j' n' _ _ hruns hexecuted hreleases =>
    have hpicked := hchosen.mapped (hruns.mapped hchosen)
    have hexec := hpicked.mapped (work_mapped cfg t.start.tick _ j.addr)
    rw [← hexecuted] at hexec
    exact hexec.mapped (hreleases.mapped hexec)

theorem wf_final (h : TickPhases cfg t) (hstart : WellFormed t.start.board) :
    WellFormed t.final.board :=
  (h.wf_finished hstart).resuming h.resumed

end TickPhases

theorem Runs.mem_picked {t t' : TaskStruct} {b b' : Board} (h : Runs t t' b b') :
    t' ∈ b'.ready := by
  rw [h.ready]
  exact List.mem_map.mpr ⟨t, h.mem, by simp [updateAt]⟩

theorem Runs.addr {t t' : TaskStruct} {b b' : Board} (h : Runs t t' b b') : t'.addr = t.addr :=
  (congrArg TaskStruct.addr h.job :)

theorem ran_of_dispatched {cfg : Config} {σ : Sim} {d : Dispatch} (hd : Dispatched d)
    (hwf : WellFormed d.chosen.board) (htick : d.picked.tick = σ.tick)
    {t : Tick} (hstart : t.start = σ) (hdisp : t.dispatched = d)
    (hexec : t.executed = execute cfg { d.picked with next := d.next.map TaskStruct.addr })
    (hfin : t.finished = handlePreemption (releaseSections t.executed) σ.next) : Ran cfg t := by
  subst hdisp
  have hfinboard : t.finished.board = (releaseSections t.executed).board := by
    rw [hfin]
    exact handlePreemption_board _ _
  cases hd with
  | idle hjob hnext hpicked hready =>
    have hnone : { t.dispatched.picked with next := t.dispatched.next.map TaskStruct.addr }.next =
        none := by rw [hnext]; rfl
    have hboard := execute_board_idle cfg hnone
    rw [← hexec] at hboard
    have hexecnext : t.executed.next = none := by
      rw [hexec, execute_next]
      exact hnone
    refine Ran.idle hjob hnext hready hpicked hboard ?_
    rw [hfinboard, releaseSections, hexecnext]
    exact hboard
  | running j j' hjob hnext hruns =>
    have hsome : { t.dispatched.picked with next := t.dispatched.next.map TaskStruct.addr }.next =
        some j.addr := by
      rw [hnext]
      exact congrArg some hruns.addr
    have hboard := execute_board cfg hsome
    rw [← hexec] at hboard
    have hpicked := hwf.mapped (hruns.mapped hwf)
    have hexecboard : t.executed.board =
        t.dispatched.picked.board.update j.addr (work cfg t.start.tick) := by
      rw [hstart, ← htick]
      exact hboard
    have hexecwf : WellFormed t.executed.board := by
      rw [hexecboard]
      exact hpicked.mapped (work_mapped cfg t.start.tick _ j.addr)
    have hmem : work cfg t.start.tick j'.core ∈ t.executed.board.ready := by
      rw [hexecboard]
      refine List.mem_map.mpr ⟨j'.core, hruns.mem_picked, ?_⟩
      exact if_pos hruns.addr
    have haddr : (work cfg t.start.tick j'.core).addr = j.addr :=
      (congrArg JobRef.addr (work_ref cfg t.start.tick j'.core)).trans hruns.addr
    have hexecnext : t.executed.next = some j.addr := by
      rw [hexec, execute_next]
      exact hsome
    have hready : j.addr ∈ t.executed.readyQueue.map TaskStruct.addr := by
      obtain ⟨x, hx, hxcore⟩ := List.mem_map.mp hmem
      rw [← haddr, ← hxcore]
      exact List.mem_map.mpr ⟨x, hx, rfl⟩
    obtain ⟨n, n', hn, hreleases⟩ := releaseSections_releases hexecnext hready
    have hsame : n = work cfg t.start.tick j'.core :=
      hexecwf.ready_inj hreleases.mem hmem (hn.trans haddr.symm)
    rw [hsame] at hreleases
    rw [← hfinboard] at hreleases
    exact Ran.running j j' n' hjob hnext hruns hexecboard hreleases

theorem handlePendingQueue_pending {σ pending : Sim} (hpending : σ.pendingQueue = [])
    (h : handlePendingQueue σ = some pending) :
    pending.tick = σ.tick ∧ pending.pendingQueue.map TaskStruct.id =
      (σ.tasks.filter (due σ.tick)).map TaskStruct.id := by
  rw [handlePendingQueue] at h
  split at h
  · cases h
  · obtain rfl := Option.some_inj.mp h
    refine ⟨rfl, ?_⟩
    simp only [hpending, List.nil_append, map_id_copyList]

theorem simTick_phases {cfg : Config} {σ : Sim} {t : Tick} (hσ : Sound σ)
    (h : simTick cfg σ = some t) : t.start = σ ∧ TickPhases cfg t := by
  obtain ⟨pending, hpend, rfl⟩ := Option.map_eq_some_iff.mp h
  refine ⟨rfl, ?_⟩
  obtain ⟨htick, hids⟩ := handlePendingQueue_pending hσ.pending hpend
  have hreleased := release_board hσ.pending hpend
  have hwf := hσ.board.release σ.tick (Nat.le_add_right σ.fresh (σ.tasks.filter (due σ.tick)).length)
  rw [← hreleased] at hwf
  let checked := handleDeadlineQueues cfg (handleReadyQueue pending)
  have hchecked : checked.board = (handleReadyQueue pending).board.check cfg :=
    handleDeadlineQueues_board cfg _
  have hdeleted := deleteFromQueues_deleted checked
  have hcheckedwf := hwf.mapped (check_mapped cfg _)
  rw [← hchecked] at hcheckedwf
  have hdelwf := hcheckedwf.deleted hdeleted
  obtain ⟨hrounds, hdisp⟩ := dispatch_spec cfg (noneBlocked_core.mp hdelwf.ready)
  have hpickedtick : (dispatch cfg (deleteFromQueues checked)).picked.tick = σ.tick := by
    have hstill := (dispatchLoop_still cfg (deleteFromQueues checked).readyQueue.length
      (deleteFromQueues checked)).2.trans (deleteFromQueues_still checked)
    exact (congrArg Prod.fst hstill).trans htick
  refine ⟨hids, ⟨_, Nat.le_add_right _ _, hreleased⟩, hchecked, hdeleted, hrounds, ?_, ?_⟩
  · exact ran_of_dispatched hdisp (hdelwf.waiting hrounds) hpickedtick rfl rfl rfl rfl
  · exact addTasks_resuming cfg _

theorem simTick_tick {cfg : Config} {σ : Sim} {t : Tick} (h : simTick cfg σ = some t) :
    t.final.tick = σ.tick + 1 := by
  obtain ⟨pending, _, rfl⟩ := Option.map_eq_some_iff.mp h
  rfl

theorem simTick_pending {cfg : Config} {σ : Sim} {t : Tick} (h : simTick cfg σ = some t) :
    t.final.pendingQueue = [] := by
  obtain ⟨pending, _, rfl⟩ := Option.map_eq_some_iff.mp h
  let checked := handleDeadlineQueues cfg (handleReadyQueue pending)
  have hdisp := (dispatchLoop_still cfg (deleteFromQueues checked).readyQueue.length
    (deleteFromQueues checked)).2.trans (deleteFromQueues_still checked)
  have hstill := (addTasks_still cfg _).trans ((handlePreemption_still _ σ.next).trans
    ((releaseSections_still _).trans ((execute_still cfg
      { (dispatch cfg (deleteFromQueues checked)).picked with
        next := (dispatch cfg (deleteFromQueues checked)).next.map TaskStruct.addr }).trans hdisp)))
  exact congrArg Prod.snd hstill

theorem Step.sound {cfg : Config} {σ σ' : Sim} {t : Tick} (hσ : Sound σ) (h : Step cfg σ t σ') :
    Sound σ' := by
  obtain ⟨_, hstep, rfl⟩ := h
  obtain ⟨hstart, hphases⟩ := simTick_phases hσ hstep
  refine ⟨hphases.wf_final ?_, simTick_pending hstep⟩
  rw [hstart]
  exact hσ.board

theorem addResource_nodup {names : List String} (h : names.Nodup) (name : String) :
    (addResource names name).Nodup := by
  rw [addResource]
  split
  · exact h
  · rename_i hnew
    rw [← List.concat_eq_append]
    exact List.Nodup.concat hnew h

theorem resourceNames_nodup (rows : List TaskRow) : (resourceNames rows).Nodup := by
  have hfold : ∀ (xs names : List String), names.Nodup → (xs.foldl addResource names).Nodup := by
    intro xs
    induction xs with
    | nil => exact fun _ h => h
    | cons x xs ih => exact fun names h => ih _ (addResource_nodup h x)
  exact hfold _ [] List.nodup_nil

theorem initial_addrs (rows : List TaskRow) :
    (initial rows).board.addrs = List.range' 0 rows.length := by
  have h : (initial rows).board.addrs = rows.zipIdx.map Prod.snd := by
    simp only [Board.addrs, Board.structs, Sim.board, initial, List.map_nil, List.append_nil,
      List.map_map]
    rfl
  rw [h, List.zipIdx_map_snd]

theorem initial_sound (rows : List TaskRow) : Sound (initial rows) := by
  refine ⟨⟨?_, ?_, ?_, ?_, ?_, ?_⟩, rfl⟩
  · rw [initial_addrs]
    exact List.nodup_range'
  · intro a ha
    rw [initial_addrs] at ha
    simpa [Sim.board, initial] using (List.mem_range'_1.mp ha).2
  · intro r hr o ho
    obtain ⟨name, _, rfl⟩ := List.mem_map.mp hr
    cases ho
  · have hnames : (initial rows).board.resources.map GlobalTaskResource.name =
        resourceNames rows := by
      simp [Sim.board, initial, Function.comp_def]
    rw [hnames]
    exact resourceNames_nodup rows
  · intro x hx
    obtain ⟨e, _, rfl⟩ := List.mem_map.mp hx
    exact TaskState.noConfusion
  · exact fun x hx => absurd hx List.not_mem_nil

theorem run_sound {cfg : Config} {rows : List TaskRow} {ts : List Tick} {σ : Sim}
    (h : Run cfg (initial rows) ts σ) : Sound σ :=
  h.invariant (G := fun _ => True) (initial_sound rows)
    (fun _ _ _ hσ _ hstep => hstep.sound hσ) (fun _ _ => trivial)

end Simulator
