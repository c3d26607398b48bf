import HTWGArchive.Simulator.ReleaseLaw

namespace Simulator

-- Nothing in the simulation names a resource, and nobody waits for one.
structure Quiet (σ : Sim) : Prop where
  resources : σ.resources = []
  blocked : σ.blockedQueue = []
  tasks : ∀ x ∈ σ.tasks, x.resources = []
  ready : ∀ x ∈ σ.readyQueue, x.resources = []

def recordFlagged (stats : List GlobalTaskStats) (x : TaskStruct) : List GlobalTaskStats :=
  if x.flagged then recordReaction stats x else stats

-- What a tick does to a job of the ready queue behind the dispatcher.
def worked (next : Option ℕ) (x : TaskStruct) : TaskStruct :=
  if next = some x.addr then spendTick (incrementElapsed (removeTaskIfFinishedExecution x))
  else incrementElapsed x

section Deletion

theorem recordReaction_twice (stats : List GlobalTaskStats) (x : TaskStruct) :
    recordReaction (recordReaction stats x) x = recordReaction stats x := by
  rw [recordReaction, recordReaction, List.modify_modify_eq]
  congr 1
  funext s
  simp only [Function.comp_apply]
  split
  · simp
  · rfl

theorem foldl_unlockResources {σ : Sim} {tasks : List TaskStruct}
    (h : ∀ x ∈ tasks, x.resources = []) :
    tasks.foldl (fun σ task => (unlockResources σ task).1) σ = σ := by
  induction tasks with
  | nil => rfl
  | cons x tasks ih =>
    have hx : (unlockResources σ x).1 = σ := by
      rw [unlockResources, h x List.mem_cons_self]
      rfl
    rw [List.foldl_cons, hx]
    exact ih (fun y hy => h y (List.mem_cons_of_mem x hy))

structure DeletedPlain (σ σ' : Sim) (stats : List GlobalTaskStats) : Prop where
  tasks : σ'.tasks.Sublist σ.tasks
  stats : σ'.stats = stats
  resources : σ'.resources = σ.resources
  ready : σ'.readyQueue = σ.readyQueue
  blocked : σ'.blockedQueue = σ.blockedQueue

theorem abortTask_plain {σ : Sim} (h : ∀ x ∈ σ.tasks, x.resources = []) (t : TaskStruct) :
    DeletedPlain σ (abortTask σ t)
      (if (σ.tasks.filter (fun task => task.name = t.name)).isEmpty then σ.stats
        else recordReaction σ.stats t) := by
  have hfold : (σ.tasks.filter (fun task => task.name = t.name)).foldl
      (fun σ task => (unlockResources σ task).1) σ = σ :=
    foldl_unlockResources (fun x hx => h x (List.mem_of_mem_filter hx))
  rw [abortTask, hfold]
  exact ⟨removeNodes_sublist _ _, rfl, rfl, rfl, rfl⟩

theorem deleteFlagged_plain {σ : Sim} (h : ∀ x ∈ σ.tasks, x.resources = []) {t : TaskStruct}
    (ht : t.resources = []) (acc : List TaskStruct) :
    ∃ σ', deleteFlagged (σ, acc) t = (σ', acc ++ [t]) ∧
      DeletedPlain σ σ' (recordFlagged σ.stats t) := by
  rw [deleteFlagged]
  split
  · rename_i hflag
    have hdelete : ∀ σ₁ : Sim, unlockResources σ₁ t = (σ₁, t) := by
      intro σ₁
      rw [unlockResources, ht]
      rfl
    rw [deleteTask]
    simp only [hdelete, recordFlagged, if_pos hflag]
    refine ⟨_, rfl, ?_⟩
    split
    · have habort := abortTask_plain h t
      refine ⟨habort.tasks, ?_, habort.resources, habort.ready, habort.blocked⟩
      dsimp only
      rw [habort.stats]
      split
      · rfl
      · exact recordReaction_twice σ.stats t
    · exact ⟨List.Sublist.refl _, rfl, rfl, rfl, rfl⟩
  · rename_i hflag
    refine ⟨σ, rfl, List.Sublist.refl _, ?_, rfl, rfl, rfl⟩
    rw [recordFlagged, if_neg hflag]

theorem foldl_deleteFlagged_plain {σ : Sim} (h : ∀ x ∈ σ.tasks, x.resources = [])
    {queue : List TaskStruct} (hqueue : ∀ x ∈ queue, x.resources = []) (acc : List TaskStruct) :
    ∃ σ', queue.foldl deleteFlagged (σ, acc) = (σ', acc ++ queue) ∧
      DeletedPlain σ σ' (queue.foldl recordFlagged σ.stats) := by
  induction queue generalizing σ acc with
  | nil =>
    rw [List.append_nil]
    exact ⟨σ, rfl, List.Sublist.refl _, rfl, rfl, rfl, rfl⟩
  | cons t queue ih =>
    obtain ⟨σ₁, hstep, hplain⟩ := deleteFlagged_plain h (hqueue t List.mem_cons_self) acc
    have htasks : ∀ x ∈ σ₁.tasks, x.resources = [] := fun x hx => h x (hplain.tasks.subset hx)
    obtain ⟨σ', hrest, hplain'⟩ := ih htasks (fun x hx => hqueue x (List.mem_cons_of_mem t hx))
      (acc ++ [t])
    refine ⟨σ', ?_, hplain'.tasks.trans hplain.tasks, ?_, hplain'.resources.trans hplain.resources,
      hplain'.ready.trans hplain.ready, hplain'.blocked.trans hplain.blocked⟩
    · rw [List.foldl_cons, hstep, hrest, List.append_assoc]
      rfl
    · rw [hplain'.stats, hplain.stats]
      rfl

theorem deleteFromQueues_plain {σ : Sim} (h : Quiet σ) :
    (deleteFromQueues σ).readyQueue = removeNodes TaskStruct.flagged σ.readyQueue ∧
      (deleteFromQueues σ).blockedQueue = [] ∧
      (deleteFromQueues σ).stats = σ.readyQueue.foldl recordFlagged σ.stats ∧
      (deleteFromQueues σ).resources = [] ∧ (deleteFromQueues σ).tasks.Sublist σ.tasks := by
  obtain ⟨σ', hfold, hplain⟩ := foldl_deleteFlagged_plain h.tasks h.ready []
  have hblocked : σ'.blockedQueue = [] := hplain.blocked.trans h.blocked
  rw [deleteFromQueues]
  simp only [handleTasksToDelete, hfold, List.nil_append, hblocked, List.foldl_nil]
  exact ⟨trivial, rfl, hplain.stats, hplain.resources.trans h.resources, hplain.tasks⟩

end Deletion

section Service

theorem map_updateAt_self {q : List TaskStruct} {x : TaskStruct}
    (hnodup : (q.map TaskStruct.addr).Nodup) (hx : x ∈ q) :
    q.map (updateAt x.addr (fun _ => x)) = q := by
  rw [List.map_congr_left (g := fun y => y), List.map_id']
  intro y hy
  rw [updateAt]
  split
  · rename_i haddr
    exact (List.inj_on_of_nodup_map hnodup hy hx haddr).symm
  · rfl

-- What a tick keeps of the state once the dispatcher has started.
def Sim.sheet (σ : Sim) :
    List TaskStruct × List GlobalTaskResource × List GlobalTaskStats × List TaskStruct × ℕ :=
  (σ.tasks, σ.resources, σ.stats, σ.blockedQueue, σ.fresh)

theorem modify_sheet {σ : Sim} (h : σ.blockedQueue = []) (a : ℕ) (f : TaskStruct → TaskStruct) :
    (σ.modify a f).sheet = σ.sheet := by
  rw [Sim.modify, Sim.sheet, Sim.sheet, h]
  rfl

structure Dispatches (cfg : Config) (σ : Sim) (d : Dispatch) : Prop where
  next : d.next = pickNextTask (prioritizeTasks cfg σ.inherited σ.readyQueue)
  ready : d.picked.readyQueue = prioritizeTasks cfg σ.inherited σ.readyQueue
  sheet : d.picked.sheet = σ.sheet

theorem dispatch_plain (cfg : Config) {σ : Sim} (hblocked : σ.blockedQueue = [])
    (hnodup : (σ.readyQueue.map TaskStruct.addr).Nodup)
    (hplain : ∀ x ∈ σ.readyQueue, x.resources = [] ∧ x.taskState ≠ .blocked) :
    Dispatches cfg σ (dispatch cfg σ) := by
  have hsheet : (prioritizeQueues cfg σ).sheet = σ.sheet := by
    rw [prioritizeQueues, Sim.sheet, Sim.sheet, hblocked]
    rfl
  have hnone : (prioritizeQueues cfg σ).blockedQueue = [] := by
    rw [prioritizeQueues, hblocked]
    rfl
  rw [dispatch]
  cases hfuel : σ.readyQueue.length with
  | zero =>
    have hempty := List.eq_nil_of_length_eq_zero hfuel
    refine ⟨?_, rfl, hsheet⟩
    rw [hempty]
    rfl
  | succ fuel =>
    rw [dispatchLoop]
    cases hpick : pickNextTask (prioritizeQueues cfg σ).readyQueue with
    | none => exact ⟨hpick.symm, rfl, hsheet⟩
    | some t =>
      have ht := pickNextTask_mem hpick
      have hjob : t.resources = [] ∧ t.taskState ≠ .blocked := by
        obtain ⟨y, hy, rfl⟩ := List.mem_map.mp ht
        exact hplain y hy
      have hlock : lockResources cfg (prioritizeQueues cfg σ) t = (prioritizeQueues cfg σ, t) := by
        rw [lockResources, hjob.1]
        rfl
      simp only [hlock, if_neg hjob.2]
      refine ⟨hpick.symm, map_updateAt_self ?_ ht, (modify_sheet hnone _ _).trans hsheet⟩
      rw [prioritizeQueues, prioritizeTasks, List.map_map]
      exact hnodup

theorem execute_plain {cfg : Config} {σ : Sim} (hstart : cfg.tStart = 0)
    (hblocked : σ.blockedQueue = []) :
    (execute cfg σ).readyQueue = σ.readyQueue.map (worked σ.next) ∧
      (execute cfg σ).sheet = σ.sheet := by
  have hpast : ∀ τ : Sim, cfg.tStart ≤ τ.tick := by
    intro τ
    rw [hstart]
    exact UInt32.zero_le
  rw [execute, if_pos (hpast _)]
  cases hnext : σ.next with
  | none =>
    simp only [Sim.updateNext, handleReactionTime, hnext, Sim.sheet, hblocked]
    exact ⟨rfl, rfl⟩
  | some addr =>
    simp only [Sim.updateNext, handleReactionTime, Sim.modify, hnext, Sim.sheet, hblocked]
    refine ⟨?_, rfl⟩
    rw [List.map_map, List.map_map]
    apply List.map_congr_left
    intro x _
    have haddr : (removeTaskIfFinishedExecution x).addr = x.addr := by
      rw [removeTaskIfFinishedExecution]
      split <;> rfl
    rcases eq_or_ne x.addr addr with rfl | hne
    · simp [worked, updateAt, incrementElapsed, haddr]
    · simp [worked, updateAt, incrementElapsed, hne, hne.symm]

theorem releaseSections_plain {σ : Sim} (hblocked : σ.blockedQueue = [])
    (hnodup : (σ.readyQueue.map TaskStruct.addr).Nodup)
    (hplain : ∀ x ∈ σ.readyQueue, x.resources = [])
    (hnext : ∀ a ∈ σ.next, a ∈ σ.readyQueue.map TaskStruct.addr) :
    (releaseSections σ).readyQueue = σ.readyQueue ∧ (releaseSections σ).sheet = σ.sheet := by
  rw [releaseSections]
  cases hderef : σ.next.bind σ.deref with
  | none => exact ⟨rfl, rfl⟩
  | some n =>
    obtain ⟨a, ha, hfind⟩ := Option.bind_eq_some_iff.mp hderef
    obtain ⟨x, hx, _, hx'⟩ := deref_ready (hnext a ha)
    obtain rfl := Option.some_inj.mp (hx'.symm.trans hfind)
    have hunlock : unlockResourcesIfFinished σ x = (σ, x) := by
      rw [unlockResourcesIfFinished, hplain x hx]
      rfl
    simp only [hunlock]
    exact ⟨map_updateAt_self hnodup hx, modify_sheet hblocked _ _⟩

end Service

structure Served (cfg : Config) (σ : Sim) (next : Option TaskStruct) (σ' : Sim) : Prop where
  picked : next = pickNextTask (prioritizeTasks cfg σ.inherited σ.readyQueue)
  ready : σ'.readyQueue = (prioritizeTasks cfg σ.inherited σ.readyQueue).map
    (worked (next.map TaskStruct.addr))
  sheet : σ'.sheet = σ.sheet

structure PlainTick (cfg : Config) (t : Tick) : Prop where
  released : t.released.readyQueue = t.start.readyQueue ++ t.entering
  copies : ∀ x ∈ t.entering, ∃ y ∈ t.start.tasks, x = copyNode x.addr y
  distinct : (t.entering.map TaskStruct.addr).Nodup
  addrs : ∀ x ∈ t.entering, t.start.fresh ≤ x.addr ∧ x.addr < t.final.fresh
  fresh : t.start.fresh ≤ t.final.fresh
  checked : t.checked.readyQueue = handleDeadlineQueue cfg t.released.readyQueue
  deleted : t.deleted.readyQueue = removeNodes TaskStruct.flagged t.checked.readyQueue
  nodup : (t.deleted.readyQueue.map TaskStruct.addr).Nodup
  served : Served cfg t.deleted t.dispatched.next t.final
  tasks : t.final.tasks.Sublist (t.start.tasks.map (bump t.start.tick))
  stats : t.final.stats = t.checked.readyQueue.foldl recordFlagged t.start.stats
  quiet : Quiet t.final

section Phases

variable {cfg : Config} {σ : Sim} {t : Tick}

theorem handleReadyQueue_plain {pending : Sim} (hpending : σ.pendingQueue = [])
    (h : handlePendingQueue σ = some pending) :
    ∃ fresh last, σ.fresh ≤ fresh ∧ last = fresh + (σ.tasks.filter (due σ.tick)).length ∧
      (handleReadyQueue pending).readyQueue =
        σ.readyQueue ++ copyList fresh (σ.tasks.filter (due σ.tick)) ∧
      (handleReadyQueue pending).sheet =
        (σ.tasks.map (bump σ.tick), σ.resources, σ.stats, σ.blockedQueue, last) := by
  rw [handlePendingQueue] at h
  split at h
  · cases h
  · obtain rfl := Option.some_inj.mp h
    refine ⟨σ.fresh + (σ.tasks.filter (due σ.tick)).length, _, Nat.le_add_right _ _, rfl, ?_, ?_⟩
    · simp only [handleReadyQueue, hpending, List.nil_append, copyList_copyList]
    · have hlen : (copyList σ.fresh (σ.tasks.filter (due σ.tick))).length =
          (σ.tasks.filter (due σ.tick)).length := by
        simpa using congrArg List.length (map_addr_copyList σ.fresh (σ.tasks.filter (due σ.tick)))
      simp [handleReadyQueue, Sim.sheet, hpending, hlen, bump]

theorem Quiet.released {τ : Sim} {fresh last : ℕ} (h : Quiet σ)
    (hready : τ.readyQueue = σ.readyQueue ++ copyList fresh (σ.tasks.filter (due σ.tick)))
    (hsheet : τ.sheet =
      (σ.tasks.map (bump σ.tick), σ.resources, σ.stats, σ.blockedQueue, last)) : Quiet τ := by
  simp only [Sim.sheet, Prod.mk.injEq] at hsheet
  obtain ⟨htasks, hresources, _, hblocked, _⟩ := hsheet
  refine ⟨hresources.trans h.resources, hblocked.trans h.blocked, ?_, ?_⟩
  · intro x hx
    rw [htasks] at hx
    obtain ⟨y, hy, rfl⟩ := List.mem_map.mp hx
    rw [bump]
    split
    · exact h.tasks y hy
    · exact h.tasks y hy
  · intro x hx
    rw [hready] at hx
    rcases List.mem_append.mp hx with hx | hx
    · exact h.ready x hx
    · obtain ⟨y, hy, hxy⟩ := mem_copyList hx
      rw [hxy]
      exact h.tasks y (List.mem_of_mem_filter hy)

theorem Quiet.checked (h : Quiet σ) : Quiet (handleDeadlineQueues cfg σ) := by
  refine ⟨h.resources, ?_, h.tasks, ?_⟩
  · rw [handleDeadlineQueues, h.blocked]
    rfl
  · intro x hx
    obtain ⟨y, hy, rfl⟩ := List.mem_map.mp hx
    exact (handleDeadline_resources cfg _ y).trans (h.ready y hy)

theorem worked_resources (next : Option ℕ) (x : TaskStruct) :
    (worked next x).resources = x.resources := by
  rw [worked]
  split
  · simp only [spendTick, incrementElapsed, removeTaskIfFinishedExecution]
    split <;> rfl
  · rfl

theorem worked_addr (next : Option ℕ) (x : TaskStruct) : (worked next x).addr = x.addr := by
  rw [worked]
  split
  · simp only [spendTick, incrementElapsed, removeTaskIfFinishedExecution]
    split <;> rfl
  · rfl

theorem handlePreemption_plain (σ : Sim) (prev : Option ℕ) :
    (handlePreemption σ prev).readyQueue = σ.readyQueue ∧
      (handlePreemption σ prev).sheet = σ.sheet := by
  rw [handlePreemption]
  split
  · split
    · exact ⟨rfl, rfl⟩
    · exact ⟨rfl, rfl⟩
  · exact ⟨rfl, rfl⟩

theorem addr_mem_copyList {a : ℕ} {q : List TaskStruct} {x : TaskStruct} (hx : x ∈ copyList a q) :
    a ≤ x.addr ∧ x.addr < a + q.length := by
  have haddr : x.addr ∈ (copyList a q).map TaskStruct.addr := List.mem_map_of_mem hx
  rwa [map_addr_copyList, List.mem_range'_1] at haddr

theorem Quiet.of_sheet {τ : Sim} (h : Quiet σ) (hsheet : τ.sheet = σ.sheet)
    (hready : ∀ x ∈ τ.readyQueue, x.resources = []) : Quiet τ := by
  simp only [Sim.sheet, Prod.mk.injEq] at hsheet
  obtain ⟨htasks, hresources, _, hblocked, _⟩ := hsheet
  refine ⟨hresources.trans h.resources, hblocked.trans h.blocked, ?_, hready⟩
  rw [htasks]
  exact h.tasks

theorem Quiet.deleted (h : Quiet σ) : Quiet (deleteFromQueues σ) := by
  obtain ⟨hready, hblocked, _, hresources, htasks⟩ := deleteFromQueues_plain h
  refine ⟨hresources, hblocked, fun x hx => h.tasks x (htasks.subset hx), ?_⟩
  intro x hx
  rw [hready] at hx
  exact h.ready x ((removeNodes_sublist _ _).subset hx)

theorem worked_plain {inherited : List InheritedNode} {q : List TaskStruct} {next : Option ℕ}
    (h : ∀ x ∈ q, x.resources = []) :
    ∀ x ∈ (prioritizeTasks cfg inherited q).map (worked next), x.resources = [] := by
  intro x hx
  obtain ⟨y, hy, rfl⟩ := List.mem_map.mp hx
  obtain ⟨z, hz, rfl⟩ := List.mem_map.mp hy
  exact (worked_resources _ _).trans (h z hz)

theorem worked_addrs (inherited : List InheritedNode) (q : List TaskStruct) (next : Option ℕ) :
    ((prioritizeTasks cfg inherited q).map (worked next)).map TaskStruct.addr =
      (prioritizeTasks cfg inherited q).map TaskStruct.addr := by
  rw [List.map_map]
  exact List.map_congr_left (fun x _ => worked_addr _ x)

theorem prioritizeTasks_addrs (inherited : List InheritedNode) (q : List TaskStruct) :
    (prioritizeTasks cfg inherited q).map TaskStruct.addr = q.map TaskStruct.addr := by
  rw [prioritizeTasks, List.map_map]
  rfl

theorem Served.quiet {next : Option TaskStruct} {σ' : Sim} (h : Served cfg σ next σ')
    (hquiet : Quiet σ) : Quiet σ' := by
  refine hquiet.of_sheet h.sheet ?_
  rw [h.ready]
  exact worked_plain hquiet.ready

-- Executing the chosen job is all that the dispatcher's part of the tick does to the queue.
theorem executed_served {d : Dispatch} (hstart : cfg.tStart = 0) (hquiet : Quiet σ)
    (hdispatch : Dispatches cfg σ d) :
    Served cfg σ d.next
      (execute cfg { d.picked with next := d.next.map TaskStruct.addr }) := by
  let running : Sim := { d.picked with next := d.next.map TaskStruct.addr }
  have hsheet : running.sheet = σ.sheet := hdispatch.sheet
  have hblocked : running.blockedQueue = [] :=
    (congrArg (fun sheet => sheet.2.2.2.1) hsheet).trans hquiet.blocked
  obtain ⟨hworked, hexec⟩ := execute_plain hstart hblocked
  refine ⟨hdispatch.next, ?_, hexec.trans hsheet⟩
  rw [hworked, ← hdispatch.ready]

theorem Served.released {next : Option TaskStruct} {σ' : Sim} (h : Served cfg σ next σ')
    (hquiet : Quiet σ) (hnodup : (σ.readyQueue.map TaskStruct.addr).Nodup)
    (hnext : σ'.next = next.map TaskStruct.addr) :
    (releaseSections σ').readyQueue = σ'.readyQueue ∧ (releaseSections σ').sheet = σ'.sheet := by
  have hplain := h.quiet hquiet
  have haddrs : σ'.readyQueue.map TaskStruct.addr =
      (prioritizeTasks cfg σ.inherited σ.readyQueue).map TaskStruct.addr := by
    rw [h.ready, worked_addrs]
  refine releaseSections_plain hplain.blocked ?_ hplain.ready ?_
  · rw [haddrs, prioritizeTasks_addrs]
    exact hnodup
  · intro a ha
    rw [hnext] at ha
    obtain ⟨x, hx, rfl⟩ := Option.map_eq_some_iff.mp ha
    rw [haddrs]
    exact List.mem_map_of_mem (pickNextTask_mem (h.picked.symm.trans hx))

theorem addTasks_plain (hquiet : Quiet σ) : addTasksFromBlockedQueueToReadyQueue cfg σ = σ := by
  rw [addTasksFromBlockedQueueToReadyQueue, hquiet.resources]
  rfl

theorem served_plain (hstart : cfg.tStart = 0) (hquiet : Quiet σ)
    (hnodup : (σ.readyQueue.map TaskStruct.addr).Nodup)
    (hstates : ∀ x ∈ σ.readyQueue, x.taskState ≠ .blocked) (prev : Option ℕ) :
    Served cfg σ (dispatch cfg σ).next
      (addTasksFromBlockedQueueToReadyQueue cfg (handlePreemption (releaseSections (execute cfg
        { (dispatch cfg σ).picked with
          next := (dispatch cfg σ).next.map TaskStruct.addr })) prev)) := by
  have hdispatch := dispatch_plain cfg hquiet.blocked hnodup
    (fun x hx => ⟨hquiet.ready x hx, hstates x hx⟩)
  have hexecuted := executed_served hstart hquiet hdispatch
  obtain ⟨hrelready, hrelsheet⟩ := hexecuted.released hquiet hnodup (execute_next cfg _)
  obtain ⟨hpreready, hpresheet⟩ := handlePreemption_plain (releaseSections (execute cfg
    { (dispatch cfg σ).picked with next := (dispatch cfg σ).next.map TaskStruct.addr })) prev
  have hfinished : Served cfg σ (dispatch cfg σ).next _ :=
    ⟨hexecuted.picked, hpreready.trans (hrelready.trans hexecuted.ready),
      hpresheet.trans (hrelsheet.trans hexecuted.sheet)⟩
  rw [addTasks_plain (hfinished.quiet hquiet)]
  exact hfinished

theorem simTick_plain (hstart : cfg.tStart = 0) (hquiet : Quiet σ) (hsound : Sound σ)
    (h : simTick cfg σ = some t) : t.start = σ ∧ PlainTick cfg t := by
  have hphases := (simTick_phases hsound h).2
  obtain ⟨pending, hpend, rfl⟩ := Option.map_eq_some_iff.mp h
  refine ⟨rfl, ?_⟩
  obtain ⟨fresh, last, hfresh, rfl, hready, hsheet⟩ :=
    handleReadyQueue_plain hsound.pending hpend
  have hchecked : Quiet (handleDeadlineQueues cfg (handleReadyQueue pending)) :=
    (hquiet.released hready hsheet).checked
  simp only [Sim.sheet, Prod.mk.injEq] at hsheet
  obtain ⟨htasks, _, hstats, _, hlast⟩ := hsheet
  let deleted := deleteFromQueues (handleDeadlineQueues cfg (handleReadyQueue pending))
  obtain ⟨hdelready, _, hdelstats, _, hdeltasks⟩ := deleteFromQueues_plain hchecked
  have hwf : WellFormed deleted.board := hphases.wf_deleted hsound.board
  have hnodup : (deleted.readyQueue.map TaskStruct.addr).Nodup := by
    have hboard := hwf.ready_nodup
    rwa [Sim.board, List.map_map] at hboard
  have hserved := served_plain hstart hchecked.deleted hnodup (noneBlocked_core.mp hwf.ready)
    σ.next
  have hfinal : Served cfg deleted (dispatch cfg deleted).next
      (tickAfterRelease cfg σ pending).final := ⟨hserved.picked, hserved.ready, hserved.sheet⟩
  have hsheet := hfinal.sheet
  simp only [Sim.sheet, Prod.mk.injEq] at hsheet
  obtain ⟨hfintasks, _, hfinstats, _, hfinfresh⟩ := hsheet
  have hend : (tickAfterRelease cfg σ pending).final.fresh =
      fresh + (σ.tasks.filter (due σ.tick)).length :=
    hfinfresh.trans ((deleteFromQueues_deleted _).fresh.trans hlast)
  have hentering : (tickAfterRelease cfg σ pending).entering =
      copyList fresh (σ.tasks.filter (due σ.tick)) := by
    rw [Tick.entering]
    exact (congrArg (List.drop σ.readyQueue.length) hready).trans List.drop_left
  refine ⟨?_, ?_, ?_, ?_, ?_, rfl, hdelready, hnodup, hfinal, ?_, ?_, hfinal.quiet hchecked.deleted⟩
  · rw [hentering]
    exact hready
  · intro x hx
    rw [hentering] at hx
    obtain ⟨y, hy, hxy⟩ := mem_copyList hx
    exact ⟨y, List.mem_of_mem_filter hy, hxy⟩
  · rw [hentering, map_addr_copyList]
    exact List.nodup_range'
  · intro x hx
    rw [hentering] at hx
    obtain ⟨hle, hlt⟩ := addr_mem_copyList hx
    rw [hend]
    exact ⟨hfresh.trans hle, hlt⟩
  · rw [hend]
    exact Nat.le_add_right_of_le hfresh
  · rw [hfintasks]
    exact htasks ▸ hdeltasks
  · exact hfinstats.trans (hdelstats.trans (congrArg (List.foldl recordFlagged · _) hstats))

end Phases

end Simulator
