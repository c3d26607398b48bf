import HTWGArchive.X86.Cpu
import Mathlib.Data.Fin.Basic
import Mathlib.Data.List.Basic
import Mathlib.Data.List.Dedup

namespace X86

structure Process where
  saved : Context
  done : Bool

structure Proclist (n : ℕ) where
  plist : Fin n → Process
  active : ℕ
  procsched : List (Fin n)
  curr : ℕ

-- `draw` below stands for `int(random.random() * intfreq)`.
structure Interrupts where
  intfreq : ℕ
  intrand : Bool
  deriving DecidableEq, Repr

def Interrupts.setint (f : Interrupts) (draw : ℕ) : Int :=
  if f.intrand then draw + 1 else f.intfreq

structure Machine (n : ℕ) where
  cpu : Cpu
  procs : Proclist n
  interrupt : Int
  icount : ℕ

inductive Outcome (n : ℕ) where
  | returned (icount : ℕ) (m : Machine n)
  | running (m : Machine n)

variable {n : ℕ}

namespace Proclist

variable (p : Proclist n)

def getcurr : Option (Fin n) :=
  p.procsched[p.curr]?

def save (c : Context) : Option (Proclist n) :=
  p.getcurr.map fun t =>
    { p with plist := Function.update p.plist t { p.plist t with saved := c } }

def restore : Option Context :=
  p.getcurr.map fun t => (p.plist t).saved

def setdone : Option (Proclist n) :=
  p.getcurr.map fun t =>
    { p with
      plist := Function.update p.plist t { p.plist t with done := true }
      active := p.active - 1 }

def numdone : ℕ :=
  n - p.active

def nextFrom : ℕ → ℕ → Option ℕ
  | 0, _ => none
  | k + 1, curr =>
    let curr := if curr + 1 = p.procsched.length then 0 else curr + 1
    (p.procsched[curr]?).bind fun t => if (p.plist t).done then nextFrom k curr else some curr

-- After one full round the loop of the source repeats itself for ever.
def next : Option (Proclist n) :=
  (p.nextFrom p.procsched.length p.curr).map fun curr => { p with curr := curr }

end Proclist

namespace Machine

variable (f : Interrupts) (draw : ℕ)

-- `procs.next()` and `procs.restore()`
def switch (m : Machine n) : Option (Machine n) :=
  m.procs.next.bind fun p =>
    p.restore.map fun c => { m with procs := p, cpu := { m.cpu with context := c } }

-- `procs.save()` comes before the switch, also after a halt has just switched.
def interruptProcessing (rc : Signal) (m : Machine n) : Option (Machine n) :=
  if m.interrupt - 1 = 0 ∨ rc = .yield then
    (m.procs.save m.cpu.context).bind fun p =>
      { m with procs := p, interrupt := f.setint draw }.switch
  else
    some { m with interrupt := m.interrupt - 1 }

-- One round of the loop of `run`.
def tick (m : Machine n) : Option (Outcome n) :=
  (cycle m.cpu).bind fun x =>
    let m := { m with cpu := x.2, icount := m.icount + 1 }
    if x.1 = .halt then
      m.procs.setdone.bind fun p =>
        let m := { m with procs := p }
        if p.numdone = n then some (.returned m.icount m)
        else m.switch.bind fun m => (interruptProcessing f draw x.1 m).map .running
    else (interruptProcessing f draw x.1 m).map .running

end Machine

structure Options where
  intfreq : ℕ
  intrand : Bool
  -- the digits of `-P`
  procsched : List (Fin 10)
  loadaddr : Int
  -- in KB
  memsize : ℕ
  deriving DecidableEq, Repr

def Options.manual (o : Options) : Bool :=
  !o.procsched.isEmpty

-- A manual schedule interrupts after every instruction.
def Options.interrupts (o : Options) : Interrupts :=
  if o.manual then { intfreq := 1, intrand := false }
  else { intfreq := o.intfreq, intrand := o.intrand }

-- `process.__init__`; the stacks lie 1000 apart.
def Options.process (o : Options) (argv : Fin n → List (Reg × Int)) (t : Fin n) : Process :=
  { saved :=
      { pc := o.loadaddr
        registers :=
          Function.update
            ((argv t).foldl (fun r x => Function.update r x.1 x.2) (fun _ => 0)) .sp
            ((o.memsize : Int) * 1000 - 1000 * t)
        conditions := Conditions.init }
    done := false }

-- The digits as threads, all of them there.
def schedule (digits : List (Fin 10)) : Option (List (Fin n)) :=
  (digits.mapM fun d => if h : d.val < n then some ⟨d.val, h⟩ else none).bind fun s =>
    if s.dedup.length = n then some s else none

def Options.finalize (o : Options) (argv : Fin n → List (Reg × Int)) : Option (Proclist n) :=
  let p := { plist := o.process argv, active := n, procsched := List.finRange n, curr := 0 }
  if o.manual then (schedule o.procsched).map fun s => { p with procsched := s } else some p

-- The machine when `run` is called with the loaded program in the memory.
def Options.start (o : Options) (argv : Fin n → List (Reg × Int)) (memory : Memory)
    (draw : ℕ) : Option (Machine n) :=
  (o.finalize argv).bind fun p =>
    p.restore.map fun c =>
      { cpu := { context := c, memory := memory }
        procs := p
        interrupt := o.interrupts.setint draw
        icount := 0 }

-- What `run` has done: a tick for every draw of the interrupt timer, each below its frequency.
inductive Run (f : Interrupts) : Machine n → Machine n → Prop where
  | refl (m : Machine n) : Run f m m
  | tail {m m' m'' : Machine n} {draw : ℕ} :
      Run f m m' → draw < f.intfreq → m'.tick f draw = some (.running m'') → Run f m m''

def Returns (f : Interrupts) (m : Machine n) (icount : ℕ) (last : Machine n) : Prop :=
  ∃ m' draw, Run f m m' ∧ draw < f.intfreq ∧ m'.tick f draw = some (.returned icount last)

end X86
