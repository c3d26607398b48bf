import HTWGArchive.Simulator.Types

namespace SimulatorV5

structure SimTask where
  addr : ℕ
  name : String
  taskNum : ℕ
  tD : UInt32
  tRemainingD : UInt32
  deriving DecidableEq, Repr

structure Scan where
  nextTask : SimTask
  nextTaskSameDeadline : Option SimTask

def compareDeadline (scan : Scan) (t : SimTask) : Scan :=
  if scan.nextTask.tD > t.tD then ⟨t, none⟩
  else if scan.nextTask.tD = t.tD && scan.nextTaskSameDeadline.isNone then
    { scan with nextTaskSameDeadline := some t }
  else scan

def pickNextTaskDm : List SimTask → Option SimTask
  | [] => none
  | t :: ts => some (ts.foldl compareDeadline ⟨t, none⟩).nextTask

def pickNextTaskEdf : List SimTask → Option SimTask
  | [] => none
  | t :: ts =>
    some (ts.foldl (fun next x => if next.tRemainingD > x.tRemainingD then x else next) t)

def pickNextTask : Simulator.Scheduler → List SimTask → Option SimTask
  | .dm => pickNextTaskDm
  | .edf => pickNextTaskEdf

end SimulatorV5
