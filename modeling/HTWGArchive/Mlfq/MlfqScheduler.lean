import Mathlib.Algebra.Order.Ring.Int
import Mathlib.Data.List.Basic
import Mathlib.Logic.Function.Basic

namespace Mlfq

structure Options where
  hiQueue : ℕ
  quantum : ℕ → ℤ
  allotment : ℕ → ℤ
  boost : ℤ
  ioTime : ℤ
  stay : Bool
  iobump : Bool

-- A job as the job list gives it.
structure JobInfo where
  startTime : ℤ
  runTime : ℤ
  ioFreq : ℤ
  deriving DecidableEq, Repr

structure Job extends JobInfo where
  currPri : ℕ
  ticksLeft : ℤ
  allotLeft : ℤ
  timeLeft : ℤ
  doingIo : Bool
  firstRun : ℤ
  endTime : Option ℤ
  deriving DecidableEq, Repr

inductive Interrupt where
  | jobBegins
  | ioDone
  deriving DecidableEq, Repr

inductive Abort where
  | currPri (currPri currQueue : ℕ)
  | timeLeft
  | emptyQueue
  deriving DecidableEq, Repr

structure State where
  queue : ℕ → List ℕ
  job : ℕ → Job
  ioDone : ℤ → List (ℕ × Interrupt)
  currTime : ℤ
  finishedJobs : ℕ

def newJob (o : Options) (info : JobInfo) : Job where
  startTime := info.startTime
  runTime := info.runTime
  ioFreq := info.ioFreq
  currPri := o.hiQueue
  ticksLeft := o.quantum o.hiQueue
  allotLeft := o.allotment o.hiQueue
  timeLeft := info.runTime
  doingIo := false
  firstRun := -1
  endTime := none

def post (ioDone : ℤ → List (ℕ × Interrupt)) (time : ℤ) (event : ℕ × Interrupt) :
    ℤ → List (ℕ × Interrupt) :=
  Function.update ioDone time (ioDone time ++ [event])

-- The jobs read so far: `jobCnt` of them.
structure Jobs where
  jobCnt : ℕ
  job : ℕ → Job
  ioDone : ℤ → List (ℕ × Interrupt)

def addJob (o : Options) (jobs : Jobs) (info : JobInfo) : Jobs where
  jobCnt := jobs.jobCnt + 1
  job := Function.update jobs.job jobs.jobCnt (newJob o info)
  ioDone := post jobs.ioDone info.startTime (jobs.jobCnt, .jobBegins)

def readJobs (o : Options) (jlist : List JobInfo) : Jobs :=
  jlist.foldl (addJob o)
    { jobCnt := 0, job := fun _ => newJob o ⟨0, 0, 0⟩, ioDone := fun _ => [] }

def start (o : Options) (jlist : List JobInfo) : State where
  queue := fun _ => []
  job := (readJobs o jlist).job
  ioDone := (readJobs o jlist).ioDone
  currTime := 0
  finishedJobs := 0

-- The jobs of the lower queues go to the end of the highest one, the lowest queue first.
def boostQueues (o : Options) (job : ℕ → Job) (queue : ℕ → List ℕ) : ℕ → List ℕ :=
  (List.range o.hiQueue).foldl (fun queue q =>
    Function.update (Function.update queue o.hiQueue
      (queue o.hiQueue ++ (queue q).filter (fun j => !(job j).doingIo))) q []) queue

-- A boosted job gets the allotment as its ticks, and keeps what is left of its allotment.
def Job.boost (o : Options) (job : Job) : Job :=
  if 0 < job.timeLeft then
    { job with currPri := o.hiQueue, ticksLeft := o.allotment o.hiQueue }
  else job

def boostJobs (o : Options) (numJobs : ℕ) (job : ℕ → Job) : ℕ → Job :=
  (List.range numJobs).foldl (fun job j => Function.update job j ((job j).boost o)) job

def Options.Boosts (o : Options) (currTime : ℤ) : Prop :=
  0 < o.boost ∧ currTime ≠ 0 ∧ currTime % o.boost = 0

instance (o : Options) (currTime : ℤ) : Decidable (o.Boosts currTime) :=
  inferInstanceAs (Decidable (_ ∧ _ ∧ _))

def boost (o : Options) (numJobs : ℕ) (s : State) : State :=
  if o.Boosts s.currTime then
    { s with queue := boostQueues o s.job s.queue, job := boostJobs o numJobs s.job }
  else s

def interrupt (o : Options) (s : State) (event : ℕ × Interrupt) : State :=
  let j := event.1
  let q := (s.job j).currPri
  { s with
    job := Function.update s.job j { s.job j with doingIo := false }
    queue :=
      if o.iobump = false ∨ event.2 = .jobBegins then
        Function.update s.queue q (s.queue q ++ [j])
      else Function.update s.queue q (j :: s.queue q) }

def interrupts (o : Options) (s : State) : State :=
  (s.ioDone s.currTime).foldl (interrupt o) s

-- The highest queue up to `q` that has jobs.
def FindQueue (queue : ℕ → List ℕ) : ℕ → Option ℕ
  | 0 => if 0 < (queue 0).length then some 0 else none
  | q + 1 => if 0 < (queue (q + 1)).length then some (q + 1) else FindQueue queue q

def Job.run (currTime : ℤ) (job : Job) : Job :=
  { job with
    timeLeft := job.timeLeft - 1
    ticksLeft := job.ticksLeft - 1
    firstRun := if job.firstRun = -1 then currTime else job.firstRun }

def Job.IssuesIo (job : Job) : Prop :=
  0 < job.ioFreq ∧ (job.runTime - job.timeLeft) % job.ioFreq = 0

instance (job : Job) : Decidable job.IssuesIo :=
  inferInstanceAs (Decidable (_ ∧ _))

def Job.issueIo (o : Options) (currQueue : ℕ) (job : Job) : Job :=
  if o.stay then
    { job with
      doingIo := true
      ticksLeft := o.quantum currQueue
      allotLeft := o.allotment currQueue }
  else { job with doingIo := true }

def Job.endQuantum (o : Options) (currQueue : ℕ) (job : Job) : Job :=
  if job.allotLeft - 1 = 0 then
    if 0 < currQueue then
      { job with
        currPri := currQueue - 1
        ticksLeft := o.quantum (currQueue - 1)
        allotLeft := o.allotment (currQueue - 1) }
    else { job with ticksLeft := o.quantum currQueue, allotLeft := o.allotment currQueue }
  else { job with allotLeft := job.allotLeft - 1, ticksLeft := o.quantum currQueue }

-- What a pass does to the job it runs: whether the quantum is over is known before the I/O.
def Job.tick (o : Options) (currTime : ℤ) (currQueue : ℕ) (job : Job) : Job :=
  let ran := job.run currTime
  if ran.timeLeft = 0 then { ran with endTime := some (currTime + 1) }
  else
    let after := if ran.IssuesIo then ran.issueIo o currQueue else ran
    if ran.ticksLeft = 0 then after.endQuantum o currQueue else after

def runTick (o : Options) (s : State) (currQueue currJob : ℕ) : State :=
  let ran := (s.job currJob).run s.currTime
  let after := (s.job currJob).tick o s.currTime currQueue
  let popped := Function.update s.queue currQueue (s.queue currQueue).tail
  let s := { s with job := Function.update s.job currJob after, currTime := s.currTime + 1 }
  if ran.timeLeft = 0 then { s with queue := popped, finishedJobs := s.finishedJobs + 1 }
  else if ran.IssuesIo then
    { s with
      queue := popped
      ioDone := post s.ioDone (s.currTime + o.ioTime) (currJob, .ioDone) }
  else if ran.ticksLeft = 0 then
    -- to the end of the queue of the priority that it has now
    { s with queue := Function.update popped after.currPri (popped after.currPri ++ [currJob]) }
  else s

def runJob (o : Options) (s : State) (currQueue currJob : ℕ) : Except Abort State :=
  if (s.job currJob).currPri ≠ currQueue then
    .error (.currPri (s.job currJob).currPri currQueue)
  else if ((s.job currJob).run s.currTime).timeLeft < 0 then .error .timeLeft
  else .ok (runTick o s currQueue currJob)

-- One pass of the loop: who is run in it, if anybody is, and the state after it.
def tick (o : Options) (numJobs : ℕ) (s : State) : Except Abort (Option ℕ × State) :=
  let s := interrupts o (boost o numJobs s)
  match FindQueue s.queue o.hiQueue with
  | none => .ok (none, { s with currTime := s.currTime + 1 })
  | some currQueue =>
    match s.queue currQueue with
    | [] => .error .emptyQueue
    | currJob :: _ => (runJob o s currQueue currJob).map (fun s => (some currJob, s))

-- The loop, for at most so many passes, and who was run in each.
def loop (o : Options) (numJobs : ℕ) :
    ℕ → List (Option ℕ) → State → Except Abort (List (Option ℕ) × State)
  | 0, log, s => .ok (log, s)
  | passes + 1, log, s =>
    if s.finishedJobs < numJobs then
      (tick o numJobs s).bind (fun next => loop o numJobs passes (log ++ [next.1]) next.2)
    else .ok (log, s)

def simulate (o : Options) (jlist : List JobInfo) (passes : ℕ) :
    Except Abort (List (Option ℕ) × State) :=
  loop o jlist.length passes [] (start o jlist)

end Mlfq
