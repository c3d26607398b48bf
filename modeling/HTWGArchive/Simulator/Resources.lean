import HTWGArchive.Simulator.Queues

namespace Simulator

def setNext (inherited : List InheritedNode) (n : ℕ) (next : Option ℕ) : List InheritedNode :=
  inherited.modify n (fun node => { node with next := next })

def addInherited (inherited : List InheritedNode) (head : Option ℕ) (stats : LocalTaskStats) :
    List InheritedNode × Option ℕ :=
  match (chain inherited head).getLast? with
  | none => (inherited ++ [⟨stats, none⟩], some inherited.length)
  | some last => (setNext inherited last (some inherited.length) ++ [⟨stats, none⟩], head)

structure ChainPass where
  inherited : List InheritedNode
  head : Option ℕ
  prev : Option ℕ

def removeInheritedNode (name : String) (pass : ChainPass) (n : ℕ) : ChainPass :=
  match pass.inherited[n]? with
  | none => pass
  | some node =>
    if node.localTaskStats.resourceName = some name then
      if pass.head = some n then { pass with head := node.next, prev := some n }
      else
        match pass.prev with
        | none => { pass with prev := some n }
        | some prev =>
          { pass with inherited := setNext pass.inherited prev node.next, prev := some n }
    else { pass with prev := some n }

def removeInherited (inherited : List InheritedNode) (head : Option ℕ) (name : String) :
    List InheritedNode × Option ℕ :=
  let pass := (chain inherited head).foldl (removeInheritedNode name) ⟨inherited, head, head⟩
  (pass.inherited, pass.head)

def elapseFrom (node : ℕ) (t : TaskStruct) : TaskStruct :=
  { t with
    resources := t.resources.map (fun e =>
      if e.node = node then { e with tFromElapsed := e.tFromElapsed + 1 } else e) }

def elapseFor (node : ℕ) (t : TaskStruct) : TaskStruct :=
  { t with
    resources := t.resources.map (fun e =>
      if e.node = node then { e with tForElapsed := e.tForElapsed + 1 } else e) }

def takeRow (task : TaskStruct) (name : String) (r : GlobalTaskResource) : GlobalTaskResource :=
  if r.name = name && r.usedBy.isNone then { r with usedBy := some task.ref } else r

def acquire (σ : Sim) (task : TaskStruct) (name : String) : Sim × TaskStruct :=
  ({ σ with
    resources := σ.resources.map (takeRow task name)
    resourceStatus := σ.resourceStatus ++ [.locks task.name task.taskNum name] },
   { task with taskPriorities := none })

def ownerPriority (σ : Sim) (owner : JobRef) : ℕ :=
  ((σ.deref owner.addr).map TaskStruct.taskPriority).getD 0

def ownerPriorities (σ : Sim) (owner : JobRef) : Option ℕ :=
  (σ.deref owner.addr).bind TaskStruct.taskPriorities

def setPriorities (head : Option ℕ) (t : TaskStruct) : TaskStruct :=
  { t with taskPriorities := head }

-- A job that waits for a resource hands its deadlines to the owner when the owner runs below it.
def inheritPriority (cfg : Config) (σ : Sim) (task : TaskStruct) (owner : JobRef) (name : String) :
    Sim × TaskStruct :=
  if cfg.flagPip && ownerPriority σ owner < task.taskPriority then
    let task' := { task with localStats := { task.localStats with resourceName := some name } }
    let (inherited, head) := addInherited σ.inherited (ownerPriorities σ owner) task'.localStats
    ({ σ with inherited := inherited }.modify owner.addr (setPriorities head), task')
  else (σ, task)

def block (cfg : Config) (σ : Sim) (task : TaskStruct) (owner : JobRef) (name : String) :
    Sim × TaskStruct :=
  let waiting := { task with blockedByResc := some name, taskState := .blocked }
  let (σ', waiting') := inheritPriority cfg σ waiting owner name
  ({ σ' with
    fresh := σ'.fresh + 1
    readyQueue := removeNodes (fun t => t.addr = task.addr) σ'.readyQueue
    blockedQueue := σ'.blockedQueue ++ [copyNode σ'.fresh waiting']
    detached := σ'.detached ++ [waiting']
    resourceStatus := σ'.resourceStatus ++ [.blocks task.name task.taskNum name] }, waiting')

def lockResource (cfg : Config) (st : Sim × TaskStruct) (resource : LocalTaskResource) :
    Sim × TaskStruct :=
  let (σ, task) := st
  if task.taskState = .blocked then (σ, task)
  else
    let task' := elapseFrom resource.node task
    if resource.tFromElapsed < resource.tFrom || resource.tForElapsed ≥ resource.tFor then (σ, task')
    else
      match σ.resources.find? (fun r => r.name = resource.name) with
      | none => (σ, task')
      | some r =>
        match r.usedBy with
        | none => acquire σ task' resource.name
        | some owner =>
          if owner.name ≠ task'.name then block cfg σ task' owner resource.name
          else (σ, elapseFor resource.node task')

def lockResources (cfg : Config) (σ : Sim) (task : TaskStruct) : Sim × TaskStruct :=
  task.resources.foldl (lockResource cfg) (σ, task)

def holds (task : TaskStruct) (name : String) (r : GlobalTaskResource) : Bool :=
  r.name = name && r.usedBy.any (fun o => o.addr = task.addr)

def freeRow (task : TaskStruct) (name : String) (r : GlobalTaskResource) : GlobalTaskResource :=
  if holds task name r then { r with usedBy := none } else r

def unlockResource (st : Sim × TaskStruct) (resource : LocalTaskResource) : Sim × TaskStruct :=
  let (σ, task) := st
  if σ.resources.any (holds task resource.name) then
    let (inherited, head) := removeInherited σ.inherited task.taskPriorities resource.name
    ({ σ with
      resources := σ.resources.map (freeRow task resource.name)
      inherited := inherited
      resourceStatus := σ.resourceStatus ++ [.unlocks task.name task.taskNum resource.name] },
     { task with
      taskPriorities := head
      resources := removeNodeFromListNoprev resource.node none task.resources })
  else (σ, task)

def unlockResources (σ : Sim) (task : TaskStruct) : Sim × TaskStruct :=
  task.resources.foldl unlockResource (σ, task)

def sectionOver (e : LocalTaskResource) : Bool :=
  e.tFrom ≤ e.tFromElapsed && e.tFor ≤ e.tForElapsed

def unlockIfFinished (st : Sim × TaskStruct) (resource : LocalTaskResource) : Sim × TaskStruct :=
  if sectionOver resource then unlockResource st resource else st

def unlockResourcesIfFinished (σ : Sim) (task : TaskStruct) : Sim × TaskStruct :=
  task.resources.foldl unlockIfFinished (σ, task)

def resetRow (task : TaskStruct) (r : GlobalTaskResource) : GlobalTaskResource :=
  if r.usedBy.any (fun o => o.name = task.name && o.taskNum = task.taskNum) then
    { r with usedBy := some task.ref }
  else r

def resetUsedByReferences (resources : List GlobalTaskResource) (task : TaskStruct) :
    List GlobalTaskResource :=
  resources.map (resetRow task)

def waitsFor (name : String) (t : TaskStruct) : Bool :=
  t.blockedByResc = some name

def markRemoved (id : String × ℕ) (t : TaskStruct) : TaskStruct :=
  if t.id = id then { t with taskState := .removed } else t

def pickWaiting (cfg : Config) (σ : Sim) (name : String) : Option TaskStruct :=
  pickNextTask (prioritizeTasks cfg σ.inherited (σ.blockedQueue.filter (waitsFor name)))

def resume (σ : Sim) (picked : TaskStruct) : Sim :=
  let copied := { copyNode σ.fresh picked with taskState := .ready }
  { σ with
    fresh := σ.fresh + 1
    readyQueue := σ.readyQueue ++ [copied]
    resources := resetUsedByReferences σ.resources copied
    blockedQueue := σ.blockedQueue.map (markRemoved picked.id) }

def addTaskFromBlockedQueue (cfg : Config) (σ : Sim) (name : String) : Sim :=
  if σ.resources.any (fun r => r.name = name && r.usedBy.isNone) then
    match pickWaiting cfg σ name with
    | none => σ
    | some picked => resume σ picked
  else σ

def addTasksFromBlockedQueueToReadyQueue (cfg : Config) (σ : Sim) : Sim :=
  (σ.resources.map GlobalTaskResource.name).foldl (addTaskFromBlockedQueue cfg) σ

end Simulator
