import Mathlib.Tactic

namespace Simulator

inductive TaskState where
  | ready
  | created
  | blocked
  | removed
  | killed
  deriving DecidableEq, Repr

inductive Scheduler where
  | dm
  | edf
  deriving DecidableEq, Repr

structure Config where
  scheduler : Scheduler
  flagKill : Bool
  flagNokill : Bool
  flagPip : Bool
  tStart : UInt32
  tStop : UInt32
  exclusive : (flagKill && flagNokill) = false

structure LocalTaskResource where
  node : ℕ
  name : String
  tFrom : UInt32
  tFromElapsed : UInt32
  tFor : UInt32
  tForElapsed : UInt32
  deriving DecidableEq, Repr

structure LocalTaskStats where
  resourceName : Option String
  tD : UInt32
  tRemainingD : UInt32
  deriving DecidableEq, Repr

-- A list node of `task_priorities`. Copies of a task share the chain their pointers lead to.
structure InheritedNode where
  localTaskStats : LocalTaskStats
  next : Option ℕ
  deriving DecidableEq, Repr

structure TaskStruct where
  addr : ℕ
  name : String
  taskNum : ℕ
  taskState : TaskState
  tPh : UInt32
  tPer : UInt32
  tE : UInt32
  tRemainingE : UInt32
  tD : UInt32
  tElapsed : UInt32
  localStats : LocalTaskStats
  globalStats : ℕ
  taskPriority : ℕ
  taskPriorities : Option ℕ
  blockedByResc : Option String
  resources : List LocalTaskResource
  deriving DecidableEq, Repr

-- `used_by` points at a struct; the name and number of a struct that has become a job are final.
structure JobRef where
  addr : ℕ
  name : String
  taskNum : ℕ
  deriving DecidableEq, Repr

structure GlobalTaskResource where
  name : String
  usedBy : Option JobRef
  deriving DecidableEq, Repr

structure GlobalTaskStats where
  name : String
  tElapsed : UInt32
  deriving DecidableEq, Repr

structure KilledTask where
  name : String
  taskNum : ℕ
  taskKillTime : UInt32
  deriving DecidableEq, Repr

inductive Status where
  | aborted (name : String) (taskNum : ℕ)
  | missed (name : String) (taskNum : ℕ)
  | preempted (name : String) (taskNum : ℕ)
  | locks (name : String) (taskNum : ℕ) (resource : String)
  | blocks (name : String) (taskNum : ℕ) (resource : String)
  | unlocks (name : String) (taskNum : ℕ) (resource : String)
  deriving DecidableEq, Repr

def Status.text : Status → String
  | .aborted name num => s!"{name}{num} missed Deadline (aborted)"
  | .missed name num => s!"{name}{num} missed Deadline"
  | .preempted name num => s!"[{name}{num} preempted]"
  | .locks name num resource => s!"{name}{num} locks {resource} -> ok"
  | .blocks name num resource => s!"{name}{num} locks {resource} -> blocked"
  | .unlocks name num resource => s!"{name}{num} unlocks: {resource}"

structure Row where
  tick : UInt32
  job : Option (String × ℕ)
  readyQ : List (String × ℕ)
  blockedQ : List (String × ℕ)
  actions : List Status
  deriving DecidableEq, Repr

def printTask (job : String × ℕ) : String := s!"{job.1}{job.2}"

def Row.print (row : Row) : String :=
  s!"{row.tick}\t" ++ (row.job.map printTask).getD "I" ++
    "\t\t" ++ String.join (row.readyQ.map printTask) ++
    "\t\t" ++ String.join (row.blockedQ.map printTask) ++
    "\t\t\t" ++ " + ".intercalate (row.actions.map Status.text) ++ "\n"

structure Sim where
  tick : UInt32
  fresh : ℕ
  tasks : List TaskStruct
  pendingQueue : List TaskStruct
  readyQueue : List TaskStruct
  blockedQueue : List TaskStruct
  detached : List TaskStruct
  inherited : List InheritedNode
  resources : List GlobalTaskResource
  stats : List GlobalTaskStats
  killedTasks : List KilledTask
  actionsStatus : List Status
  resourceStatus : List Status
  next : Option ℕ
  deriving DecidableEq, Repr

namespace TaskStruct

def id (t : TaskStruct) : String × ℕ :=
  (t.name, t.taskNum)

def ref (t : TaskStruct) : JobRef :=
  ⟨t.addr, t.name, t.taskNum⟩

def flagged (t : TaskStruct) : Bool :=
  t.taskState = .killed || t.taskState = .removed

end TaskStruct

def JobRef.id (o : JobRef) : String × ℕ :=
  (o.name, o.taskNum)

end Simulator
