import Mathlib.Algebra.Order.Ring.Int
import Mathlib.Data.List.Basic
import Mathlib.Logic.Function.Basic

namespace ProcessRun

inductive Switch where
  | onIo
  | onEnd
  deriving DecidableEq, Repr

inductive IoDone where
  | runLater
  | runImmediate
  deriving DecidableEq, Repr

inductive ProcState where
  | running
  | ready
  | done
  | waiting
  deriving DecidableEq, Repr

inductive Instruction where
  | cpu
  | io
  deriving DecidableEq, Repr

structure Config where
  processSwitchBehavior : Switch
  ioDoneBehavior : IoDone
  ioLength : ℤ

structure Scheduler where
  code : ℕ → List Instruction
  state : ℕ → ProcState
  currProc : ℕ
  ioFinishTimes : ℕ → List ℤ
  cpuBusy : ℕ

-- The moves between the states of a process; none is a failed assertion.
def moveTo (state expected : ProcState) (pid : ℕ) (s : Scheduler) : Option Scheduler :=
  if s.state pid = expected then some { s with state := Function.update s.state pid state }
  else none

def moveToReady (expected : ProcState) (pid : ℕ) (s : Scheduler) : Option Scheduler :=
  moveTo .ready expected pid s

def moveToWait (expected : ProcState) (s : Scheduler) : Option Scheduler :=
  moveTo .waiting expected s.currProc s

def moveToRunning (expected : ProcState) (s : Scheduler) : Option Scheduler :=
  moveTo .running expected s.currProc s

def moveToDone (expected : ProcState) (s : Scheduler) : Option Scheduler :=
  moveTo .done expected s.currProc s

def nextProcPid (pid : ℕ) (s : Scheduler) : Option Scheduler :=
  moveToRunning .ready { s with currProc := pid }

-- The next ready process after the current one, and from the first one on after the last.
def nextProc (n : ℕ) (s : Scheduler) : Option Scheduler :=
  match (List.range' (s.currProc + 1) (n - (s.currProc + 1)) ++ List.range (s.currProc + 1)).find?
    (fun pid => s.state pid = .ready) with
  | some pid => nextProcPid pid s
  | none => some s

def getNumActive (n : ℕ) (s : Scheduler) : ℕ :=
  ((List.range n).filter (fun pid => s.state pid ≠ .done)).length

def getNumRunnable (n : ℕ) (s : Scheduler) : ℕ :=
  ((List.range n).filter (fun pid => s.state pid = .ready ∨ s.state pid = .running)).length

def checkIfDone (n : ℕ) (s : Scheduler) : Option Scheduler :=
  if (s.code s.currProc).length = 0 then
    if s.state s.currProc = .running then (moveToDone .running s).bind (nextProc n) else some s
  else some s

def runImmediate (pid : ℕ) (s : Scheduler) : Option Scheduler :=
  (if s.currProc ≠ pid ∧ s.state s.currProc = .running then
    moveToReady .running s.currProc s
  else some s).bind (nextProcPid pid)

def runLater (c : Config) (n pid : ℕ) (s : Scheduler) : Option Scheduler :=
  (if c.processSwitchBehavior = .onEnd ∧ 1 < getNumRunnable n s then nextProcPid pid s
  else some s).bind (fun s => if getNumRunnable n s = 1 then nextProcPid pid s else some s)

def runFinished (c : Config) (n pid : ℕ) (s : Scheduler) : Option Scheduler :=
  match c.ioDoneBehavior with
  | .runImmediate => runImmediate pid s
  | .runLater => runLater c n pid s

-- Whether an I/O of the process has come to its end in this tick.
def ioFinish (c : Config) (n : ℕ) (clockTick : ℤ) (s : Scheduler) (pid : ℕ) : Option Scheduler :=
  if clockTick ∈ s.ioFinishTimes pid then
    (moveToReady .waiting pid s).bind (fun s => (runFinished c n pid s).bind (checkIfDone n))
  else some s

-- The current process issues an I/O.
def issueIo (c : Config) (n : ℕ) (clockTick : ℤ) (s : Scheduler) : Option Scheduler :=
  (moveToWait .running s).bind (fun s =>
    let s := { s with
      ioFinishTimes := Function.update s.ioFinishTimes s.currProc
        (s.ioFinishTimes s.currProc ++ [clockTick + c.ioLength]) }
    if c.processSwitchBehavior = .onIo then nextProc n s else some s)

def execute (c : Config) (n : ℕ) (clockTick : ℤ) (s : Scheduler) : Option Scheduler :=
  match s.state s.currProc, s.code s.currProc with
  | .running, instruction :: code =>
    let s := { s with
      code := Function.update s.code s.currProc code
      cpuBusy := s.cpuBusy + 1 }
    if instruction = .io then issueIo c n clockTick s else some s
  | _, _ => some s

def tick (c : Config) (n : ℕ) (clockTick : ℤ) (s : Scheduler) : Option Scheduler :=
  ((List.range n).foldlM (ioFinish c n clockTick) s).bind (fun s =>
    (execute c n clockTick s).bind (checkIfDone n))

-- The loop, for at most so many ticks, and the time at which it ends.
def loop (c : Config) (n : ℕ) : ℕ → ℤ → Scheduler → Option (Scheduler × ℤ)
  | 0, clockTick, s => some (s, clockTick)
  | ticks + 1, clockTick, s =>
    if 0 < getNumActive n s then
      (tick c n (clockTick + 1) s).bind (loop c n ticks (clockTick + 1))
    else some (s, clockTick)

def load (programs : List (List Instruction)) : Scheduler where
  code := fun pid => programs[pid]?.getD []
  state := fun _ => .ready
  currProc := 0
  ioFinishTimes := fun _ => []
  cpuBusy := 0

def run (c : Config) (programs : List (List Instruction)) (ticks : ℕ) :
    Option (Scheduler × ℤ) :=
  if programs.length = 0 then none
  else (moveToRunning .ready (load programs)).bind (loop c programs.length ticks 0)

end ProcessRun
