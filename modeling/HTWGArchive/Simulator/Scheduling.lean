import HTWGArchive.Library.LabelledRun
import HTWGArchive.Simulator.Resources

namespace Simulator

def recordReaction (stats : List GlobalTaskStats) (t : TaskStruct) : List GlobalTaskStats :=
  stats.modify t.globalStats
    (fun s => if t.tElapsed > s.tElapsed then { s with tElapsed := t.tElapsed } else s)

def abortTask (σ : Sim) (t : TaskStruct) : Sim :=
  let aborted := σ.tasks.filter (fun task => task.name = t.name)
  let σ' := aborted.foldl (fun σ task => (unlockResources σ task).1) σ
  { σ' with
    killedTasks := σ.killedTasks ++ [KilledTask.mk t.name t.taskNum σ.tick]
    stats := if aborted.isEmpty then σ.stats else recordReaction σ.stats t
    tasks := removeNodes (fun task => task.name = t.name) σ.tasks }

def deleteTask (σ : Sim) (t : TaskStruct) : Sim × TaskStruct :=
  let (σ', t') := unlockResources (if t.taskState = .killed then abortTask σ t else σ) t
  ({ σ' with stats := recordReaction σ'.stats t' }, t')

def deleteFlagged (st : Sim × List TaskStruct) (t : TaskStruct) : Sim × List TaskStruct :=
  if t.flagged then
    let (σ, t) := deleteTask st.1 t
    (σ, st.2 ++ [t])
  else (st.1, st.2 ++ [t])

def handleTasksToDelete (σ : Sim) (queue : List TaskStruct) : Sim × List TaskStruct :=
  let (σ, visited) := queue.foldl deleteFlagged (σ, [])
  let kept := removeNodes TaskStruct.flagged visited
  ({ σ with
    detached := σ.detached ++ visited.filter (fun t => kept.all (fun k => k.addr ≠ t.addr)) }, kept)

def deleteFromQueues (σ : Sim) : Sim :=
  let (σ, kept) := handleTasksToDelete σ σ.readyQueue
  let σ := { σ with readyQueue := kept }
  let (σ, kept) := handleTasksToDelete σ σ.blockedQueue
  { σ with blockedQueue := kept, pendingQueue := [] }

def prioritizeQueues (cfg : Config) (σ : Sim) : Sim :=
  { σ with
    blockedQueue := prioritizeTasks cfg σ.inherited σ.blockedQueue
    readyQueue := prioritizeTasks cfg σ.inherited σ.readyQueue }

structure Dispatch where
  chosen : Sim
  job : Option TaskStruct
  picked : Sim
  next : Option TaskStruct
  deriving Repr

-- The do-while loop. Every round that blocks takes a job out of the ready queue.
def dispatchLoop (cfg : Config) : ℕ → Sim → Dispatch
  | 0, σ => ⟨prioritizeQueues cfg σ, none, prioritizeQueues cfg σ, none⟩
  | fuel + 1, σ =>
    let σ := prioritizeQueues cfg σ
    match pickNextTask σ.readyQueue with
    | none => ⟨σ, none, σ, none⟩
    | some t =>
      let (σ', t') := lockResources cfg σ t
      if t'.taskState = .blocked then dispatchLoop cfg fuel σ'
      else ⟨σ, some t, σ'.modify t'.addr (fun _ => t'), some t'⟩

def dispatch (cfg : Config) (σ : Sim) : Dispatch :=
  dispatchLoop cfg σ.readyQueue.length σ

def removeTaskIfFinishedExecution (t : TaskStruct) : TaskStruct :=
  if t.tRemainingE - 1 ≤ 0 && t.taskState ≠ .killed then { t with taskState := .removed } else t

def incrementElapsed (t : TaskStruct) : TaskStruct :=
  { t with tElapsed := t.tElapsed + 1 }

def handleReactionTime (σ : Sim) : Sim :=
  { σ with
    readyQueue := σ.readyQueue.map incrementElapsed
    blockedQueue := σ.blockedQueue.map incrementElapsed }

def spendTick (t : TaskStruct) : TaskStruct :=
  { t with tRemainingE := t.tRemainingE - 1 }

def Sim.updateNext (σ : Sim) (f : TaskStruct → TaskStruct) : Sim :=
  match σ.next with
  | none => σ
  | some addr => σ.modify addr f

-- The row printed at tick `t`, and with it `--next->t_remaining_e`, lies under `tick >= t_start`.
def execute (cfg : Config) (σ : Sim) : Sim :=
  let σ := handleReactionTime (σ.updateNext removeTaskIfFinishedExecution)
  if cfg.tStart ≤ σ.tick then σ.updateNext spendTick else σ

def releaseSections (σ : Sim) : Sim :=
  match σ.next.bind σ.deref with
  | none => σ
  | some next =>
    let (σ, next) := unlockResourcesIfFinished σ next
    σ.modify next.addr (fun _ => next)

def handlePreemption (σ : Sim) (prev : Option ℕ) : Sim :=
  match σ.next.bind σ.deref, prev.bind σ.deref with
  | some next, some prev =>
    if prev.taskState ≠ .blocked && prev.taskState ≠ .removed && prev.taskState ≠ .killed &&
        prev.addr ≠ next.addr && prev.tRemainingE > 0 then
      { σ with actionsStatus := σ.actionsStatus ++ [.preempted prev.name prev.taskNum] }
    else σ
  | _, _ => σ

structure Tick where
  start : Sim
  released : Sim
  checked : Sim
  deleted : Sim
  dispatched : Dispatch
  executed : Sim
  finished : Sim
  final : Sim
  row : Option Row
  deriving Repr

def rowOf (executed finished : Sim) (next : Option TaskStruct) : Row where
  tick := executed.tick
  job := next.map TaskStruct.id
  readyQ := executed.readyQueue.map TaskStruct.id
  blockedQ := executed.blockedQueue.map TaskStruct.id
  actions := finished.actionsStatus ++ finished.resourceStatus

def tickAfterRelease (cfg : Config) (σ pending : Sim) : Tick :=
  let released := handleReadyQueue pending
  let checked := handleDeadlineQueues cfg released
  let deleted := deleteFromQueues checked
  let dispatched := dispatch cfg deleted
  let executed := execute cfg
    { dispatched.picked with next := dispatched.next.map TaskStruct.addr }
  let finished := handlePreemption (releaseSections executed) σ.next
  let resumed := addTasksFromBlockedQueueToReadyQueue cfg finished
  { start := σ
    released := released
    checked := checked
    deleted := deleted
    dispatched := dispatched
    executed := executed
    finished := finished
    final := { resumed with tick := σ.tick + 1, actionsStatus := [], resourceStatus := [] }
    row := if cfg.tStart ≤ σ.tick then some (rowOf executed resumed dispatched.next) else none }

def simTick (cfg : Config) (σ : Sim) : Option Tick :=
  (handlePendingQueue σ).map (tickAfterRelease cfg σ)

structure TaskRow where
  name : String
  tPh : UInt32
  tPer : UInt32
  tE : UInt32
  tD : UInt32
  resources : List (String × UInt32 × UInt32)
  deriving DecidableEq, Repr

def localResources (entries : List (String × UInt32 × UInt32)) : List LocalTaskResource :=
  entries.zipIdx.map (fun e => ⟨e.2, e.1.1, e.1.2.1, 0, e.1.2.2, 0⟩)

def template (row : TaskRow) (i : ℕ) : TaskStruct where
  addr := i
  name := row.name
  taskNum := 0
  taskState := .created
  tPh := row.tPh
  tPer := row.tPer
  tE := row.tE
  tRemainingE := row.tE
  tD := row.tD
  tElapsed := 0
  localStats := ⟨none, row.tD, row.tD⟩
  globalStats := i
  taskPriority := 0
  taskPriorities := none
  blockedByResc := none
  resources := localResources row.resources

def addResource (names : List String) (name : String) : List String :=
  if name ∈ names then names else names ++ [name]

def resourceNames (rows : List TaskRow) : List String :=
  (rows.flatMap (fun row => row.resources.map Prod.fst)).foldl addResource []

def initial (rows : List TaskRow) : Sim where
  tick := 0
  fresh := rows.length
  tasks := rows.zipIdx.map (fun e => template e.1 e.2)
  pendingQueue := []
  readyQueue := []
  blockedQueue := []
  detached := []
  inherited := []
  resources := (resourceNames rows).map (fun name => ⟨name, none⟩)
  stats := rows.map (fun row => ⟨row.name, 0⟩)
  killedTasks := []
  actionsStatus := []
  resourceStatus := []
  next := none

def Step (cfg : Config) (σ : Sim) (t : Tick) (σ' : Sim) : Prop :=
  σ.tick ≤ cfg.tStop ∧ simTick cfg σ = some t ∧ t.final = σ'

abbrev Run (cfg : Config) : Sim → List Tick → Sim → Prop :=
  LabelledRun.Run (Step cfg)

-- The first `n` ticks of `sim_scheduler`; fewer when `t_stop` comes first.
def simScheduler (cfg : Config) : ℕ → Sim → Option (List Tick × Sim)
  | 0, σ => some ([], σ)
  | n + 1, σ =>
    if σ.tick ≤ cfg.tStop then
      match simTick cfg σ with
      | none => none
      | some t => (simScheduler cfg n t.final).map (fun r => (t :: r.1, r.2))
    else some ([], σ)

theorem simScheduler_run {cfg : Config} {n : ℕ} {σ σ' : Sim} {ts : List Tick}
    (h : simScheduler cfg n σ = some (ts, σ')) : Run cfg σ ts σ' := by
  induction n generalizing σ ts with
  | zero =>
    rw [simScheduler, Option.some_inj, Prod.mk.injEq] at h
    obtain ⟨rfl, rfl⟩ := h
    exact LabelledRun.Run.nil
  | succ n ih =>
    rw [simScheduler] at h
    split at h
    · rename_i hstop
      cases ht : simTick cfg σ with
      | none => simp [ht] at h
      | some t =>
        simp only [ht, Option.map_eq_some_iff, Prod.mk.injEq, Prod.exists] at h
        obtain ⟨ts', σ'', hrest, rfl, rfl⟩ := h
        exact LabelledRun.Run.cons ⟨hstop, ht, rfl⟩ (ih hrest)
    · rw [Option.some_inj, Prod.mk.injEq] at h
      obtain ⟨rfl, rfl⟩ := h
      exact LabelledRun.Run.nil

def ticksOf (cfg : Config) (rows : List TaskRow) (n : ℕ) : List Tick :=
  ((simScheduler cfg n (initial rows)).map Prod.fst).getD []

theorem ticksOf_run (cfg : Config) (rows : List TaskRow) (n : ℕ)
    (h : (simScheduler cfg n (initial rows)).isSome) :
    ∃ σ, Run cfg (initial rows) (ticksOf cfg rows n) σ := by
  obtain ⟨⟨ts, σ⟩, hts⟩ := Option.isSome_iff_exists.mp h
  refine ⟨σ, ?_⟩
  rw [ticksOf, hts]
  exact simScheduler_run hts

def nokillDm (stop : UInt32) : Config :=
  ⟨.dm, false, true, false, 0, stop, rfl⟩

def killDm (stop : UInt32) : Config :=
  ⟨.dm, true, false, false, 0, stop, rfl⟩

def pipDm (stop : UInt32) : Config :=
  ⟨.dm, false, true, true, 0, stop, rfl⟩

theorem run_simScheduler {cfg : Config} {σ σ' : Sim} {ts : List Tick} (h : Run cfg σ ts σ') :
    simScheduler cfg ts.length σ = some (ts, σ') := by
  induction ts generalizing σ with
  | nil =>
    rw [h.eq_of_nil]
    rfl
  | cons t ts ih =>
    obtain ⟨σ₁, ⟨hstop, ht, rfl⟩, hrest⟩ := h.uncons
    rw [List.length_cons, simScheduler, if_pos hstop, ht]
    simp only [ih hrest, Option.map_some]

end Simulator
