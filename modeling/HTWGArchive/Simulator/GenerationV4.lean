import HTWGArchive.Simulator.Queues

namespace SimulatorV4

def removeTask : UInt32 := 1

def killTask : UInt32 := 2

structure SimTaskStruct where
  name : String
  taskNum : ℕ
  tPh : UInt32
  tPer : UInt32
  tE : UInt32
  tRemainingE : UInt32
  tD : UInt32
  tRemainingD : UInt32
  tElapsed : UInt32
  killFlag : UInt32
  stats : ℕ
  deriving DecidableEq, Repr

structure SimTaskStats where
  name : String
  tElapsed : UInt32
  deriving DecidableEq, Repr

structure State where
  tasks : List SimTaskStruct
  stats : List SimTaskStats
  readyQueue : List SimTaskStruct
  deriving DecidableEq, Repr

namespace SimTaskStruct

def flagged (t : SimTaskStruct) : Bool :=
  removeTask ≤ t.killFlag

def killed (t : SimTaskStruct) : Bool :=
  t.killFlag = killTask

end SimTaskStruct

structure Scan where
  nextTask : ℕ × SimTaskStruct
  nextTaskSameDeadline : Option (ℕ × SimTaskStruct)

def compareDeadline (scan : Scan) (t : SimTaskStruct × ℕ) : Scan :=
  if scan.nextTask.2.tD > t.1.tD then ⟨(t.2, t.1), none⟩
  else if scan.nextTask.2.tD = t.1.tD && scan.nextTaskSameDeadline.isNone then
    { scan with nextTaskSameDeadline := some (t.2, t.1) }
  else scan

def markFinished (t : SimTaskStruct) : SimTaskStruct :=
  if t.tRemainingE - 1 ≤ 0 then
    if t.killFlag < removeTask then { t with killFlag := removeTask } else t
  else t

-- The picked job by its place in the queue, and the queue with its flag set.
def pickNextTaskDm : List SimTaskStruct → Option (ℕ × List SimTaskStruct)
  | [] => none
  | t :: ts =>
    let next := ((ts.zipIdx 1).foldl compareDeadline ⟨(0, t), none⟩).nextTask
    some (next.1, (t :: ts).modify next.1 markFinished)

def recordReaction (stats : List SimTaskStats) (t : SimTaskStruct) : List SimTaskStats :=
  stats.modify t.stats
    (fun s => if t.tElapsed > s.tElapsed then { s with tElapsed := t.tElapsed } else s)

-- The walk over `tasks` unlinks as the walk over the queue does, with a pointer one node behind.
def deleteFlagged (σ : State) (t : SimTaskStruct) : State :=
  if t.flagged then
    { σ with
      tasks :=
        if t.killed then Simulator.removeNodes (fun task => task.name = t.name) σ.tasks
        else σ.tasks
      stats := recordReaction σ.stats t }
  else σ

def handleTasksToDelete (σ : State) : State :=
  { σ.readyQueue.foldl deleteFlagged σ with
    readyQueue := Simulator.removeNodes SimTaskStruct.flagged σ.readyQueue }

end SimulatorV4
