import Mathlib.Logic.Function.Basic

namespace X86

inductive Reg where
  | zero | ax | bx | cx | dx | ex | fx | sp | bp
  deriving DecidableEq, Repr

-- `value(reg1,reg2,scale)` in the source text.
structure Address where
  value : Int
  reg1 : Reg
  reg2 : Reg
  scale : Int
  deriving DecidableEq, Repr

-- The calls that `load` writes into the memory, under the names of the methods.
inductive Instruction where
  | halt
  | iyield
  | nop
  | rdump
  | mdump (index : Int)
  | moveIToR (src : Int) (dst : Reg)
  | moveIToM (src : Int) (dst : Address)
  | moveMToR (src : Address) (dst : Reg)
  | moveRToM (src : Reg) (dst : Address)
  | moveRToR (src dst : Reg)
  | leaMToR (src : Address) (dst : Reg)
  | addIToR (src : Int) (dst : Reg)
  | addRToR (src dst : Reg)
  | mulIToR (src : Int) (dst : Reg)
  | mulRToR (src dst : Reg)
  | subIToR (src : Int) (dst : Reg)
  | subRToR (src dst : Reg)
  | negR (src : Reg)
  | atomicExchange (src : Reg) (value : Int) (reg1 reg2 : Reg)
  | fetchadd (src : Reg) (value : Int) (reg1 reg2 : Reg)
  | testIR (src : Int) (dst : Reg)
  | testRI (src : Reg) (dst : Int)
  | testRR (src dst : Reg)
  | jump (targ : Int)
  | jumpNotequal (targ : Int)
  | jumpEqual (targ : Int)
  | jumpLessthan (targ : Int)
  | jumpLessthanorequal (targ : Int)
  | jumpGreaterthan (targ : Int)
  | jumpGreaterthanorequal (targ : Int)
  | call (targ : Int)
  | ret
  | pushR (reg : Reg)
  | pushM (src : Address)
  | pop
  | popR (dst : Reg)
  deriving DecidableEq, Repr

structure Conditions where
  gt : Bool
  gte : Bool
  lt : Bool
  lte : Bool
  eq : Bool
  neq : Bool
  deriving DecidableEq, Repr

-- `init_condition_codes`
def Conditions.init : Conditions :=
  { gt := false, gte := false, lt := false, lte := false, eq := false, neq := false }

def testAll (src dst : Int) : Conditions :=
  { gt := decide (dst > src)
    gte := decide (dst ≥ src)
    lt := decide (dst < src)
    lte := decide (dst ≤ src)
    eq := decide (dst = src)
    neq := decide (dst ≠ src) }

inductive Cell where
  | value (n : Int)
  | code (i : Instruction)
  deriving DecidableEq, Repr

-- A key the dictionary does not have is `none`.
abbrev Memory := Int → Option Cell

-- What `process.save` and `process.restore` copy.
structure Context where
  pc : Int
  registers : Reg → Int
  conditions : Conditions

structure Cpu where
  context : Context
  memory : Memory

-- The codes an instruction returns: -1, -2 and all others.
inductive Signal where
  | halt
  | yield
  | other
  deriving DecidableEq, Repr

-- An instruction where a number is expected raises an error.
def Memory.read (m : Memory) (a : Int) : Option Int :=
  match m a with
  | some (.value n) => some n
  | _ => none

def Memory.write (m : Memory) (a n : Int) : Memory :=
  Function.update m a (some (.value n))

def Context.address (c : Context) (a : Address) : Int :=
  a.value + c.registers a.reg1 + a.scale * c.registers a.reg2

def Context.setReg (c : Context) (r : Reg) (n : Int) : Context :=
  { c with registers := Function.update c.registers r n }

def Context.setConditions (c : Context) (cc : Conditions) : Context :=
  { c with conditions := cc }

def Context.jumpIf (c : Context) (b : Bool) (targ : Int) : Context :=
  if b then { c with pc := targ } else c

def Cpu.setReg (x : Cpu) (r : Reg) (n : Int) : Cpu :=
  { x with context := x.context.setReg r n }

def Cpu.test (x : Cpu) (src dst : Int) : Cpu :=
  { x with context := x.context.setConditions (testAll src dst) }

def Cpu.jumpIf (x : Cpu) (b : Bool) (targ : Int) : Cpu :=
  { x with context := x.context.jumpIf b targ }

-- `registers[SP] -= 4` and a write there.
def Cpu.push (x : Cpu) (n : Int) : Cpu :=
  let sp := x.context.registers .sp - 4
  { context := x.context.setReg .sp sp, memory := x.memory.write sp n }

def execute (i : Instruction) (x : Cpu) : Option (Signal × Cpu) :=
  let c := x.context
  let r := c.registers
  match i with
  | .halt => some (.halt, x)
  | .iyield => some (.yield, x)
  | .nop => some (.other, x)
  | .rdump => some (.other, x)
  | .mdump index => (x.memory index).map fun _ => (.other, x)
  | .moveIToR src dst => some (.other, x.setReg dst src)
  | .moveIToM src dst =>
    some (.other, { x with memory := x.memory.write (c.address dst) src })
  | .moveMToR src dst =>
    (x.memory.read (c.address src)).map fun n => (.other, x.setReg dst n)
  | .moveRToM src dst =>
    some (.other, { x with memory := x.memory.write (c.address dst) (r src) })
  | .moveRToR src dst => some (.other, x.setReg dst (r src))
  | .leaMToR src dst => some (.other, x.setReg dst (c.address src))
  | .addIToR src dst => some (.other, x.setReg dst (r dst + src))
  | .addRToR src dst => some (.other, x.setReg dst (r dst + r src))
  | .mulIToR src dst => some (.other, x.setReg dst (r dst * src))
  | .mulRToR src dst => some (.other, x.setReg dst (r dst * r src))
  | .subIToR src dst => some (.other, x.setReg dst (r dst - src))
  | .subRToR src dst => some (.other, x.setReg dst (r dst - r src))
  | .negR src => some (.other, x.setReg src (-r src))
  | .atomicExchange src value reg1 reg2 =>
    let tmp := value + r reg1 + r reg2
    (x.memory.read tmp).map fun old =>
      (.other, { context := c.setReg src old, memory := x.memory.write tmp (r src) })
  | .fetchadd src value reg1 reg2 =>
    let tmp := value + r reg1 + r reg2
    (x.memory.read tmp).map fun old =>
      (.other, { context := c.setReg src old, memory := x.memory.write tmp (old + r src) })
  | .testIR src dst => some (.other, x.test src (r dst))
  | .testRI src dst => some (.other, x.test (r src) dst)
  | .testRR src dst => some (.other, x.test (r src) (r dst))
  | .jump targ => some (.other, x.jumpIf true targ)
  | .jumpNotequal targ => some (.other, x.jumpIf c.conditions.neq targ)
  | .jumpEqual targ => some (.other, x.jumpIf c.conditions.eq targ)
  | .jumpLessthan targ => some (.other, x.jumpIf c.conditions.lt targ)
  | .jumpLessthanorequal targ => some (.other, x.jumpIf c.conditions.lte targ)
  | .jumpGreaterthan targ => some (.other, x.jumpIf c.conditions.gt targ)
  | .jumpGreaterthanorequal targ => some (.other, x.jumpIf c.conditions.gte targ)
  | .call targ => some (.other, (x.push c.pc).jumpIf true targ)
  | .ret =>
    (x.memory.read (r .sp)).map fun n =>
      (.other, (x.setReg .sp (r .sp + 4)).jumpIf true n)
  | .pushR reg =>
    -- the stack pointer has moved when the register is read
    some (.other, x.push (Function.update r .sp (r .sp - 4) reg))
  | .pushM src => some (.other, x.push ((c.setReg .sp (r .sp - 4)).address src))
  | .pop => some (.other, x.setReg .sp (r .sp + 4))
  | .popR dst =>
    (x.memory.read (r .sp)).map fun n =>
      let y := x.setReg dst n
      (.other, y.setReg .sp (y.context.registers .sp + 4))

-- One round of the loop of `run` up to `eval`: the PC moves on before the instruction runs.
def cycle (x : Cpu) : Option (Signal × Cpu) :=
  match x.memory x.context.pc with
  | some (.code i) =>
    execute i { x with context := { x.context with pc := x.context.pc + 1 } }
  | _ => none

variable {m : Memory} {a b n : Int}

@[simp] theorem Memory.read_write_self : (m.write a n).read a = some n := by
  simp [Memory.read, Memory.write]

theorem Memory.write_of_ne (h : b ≠ a) : m.write a n b = m b := by
  simp [Memory.write, h]

theorem Memory.read_write_of_ne (h : b ≠ a) : (m.write a n).read b = m.read b := by
  simp only [Memory.read, Memory.write_of_ne h]

theorem cycle_code {x : Cpu} {i : Instruction} (h : x.memory x.context.pc = some (.code i)) :
    cycle x = execute i { x with context := { x.context with pc := x.context.pc + 1 } } := by
  simp only [cycle, h]

end X86
