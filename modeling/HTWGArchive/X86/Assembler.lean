import HTWGArchive.X86.Cpu
import Mathlib.Data.List.Basic

namespace X86

variable {Name : Type}

-- An argument as it is written: `$10`, `%ax`, `.label`, `name`, `10(%ax,%bx,4)`.
inductive Operand (Name : Type) where
  | immediate (n : Int)
  | register (r : Reg)
  | label (l : Name)
  | variable (v : Name)
  | memory (a : Address)
  deriving DecidableEq, Repr

-- `getarg` returns a value and its type.
inductive Arg (Name : Type) where
  | immediate (n : Int)
  | register (r : Reg)
  | label (l : Name)
  | memory (a : Address)
  deriving DecidableEq, Repr

inductive Opcode where
  | mov | lea | neg | pop | push | call | ret | mul | add | sub | fetchadd | xchg | test
  | j | jne | je | jlt | jlte | jgt | jgte | nop | halt | yield | rdump | mdump
  deriving DecidableEq, Repr

inductive Line (Name : Type) where
  | var (name : Name) (mul : Option Int)
  | label (name : Name)
  | op (opcode : Opcode) (args : List (Operand Name))
  deriving DecidableEq, Repr

structure Tables (Name : Type) where
  vars : Name → Option Int
  labels : Name → Option Int

def Tables.empty : Tables Name :=
  { vars := fun _ => none, labels := fun _ => none }

-- The first pass; a variable takes four bytes for each word.
def scan [DecidableEq Name] (bpc : Int) (t : Tables Name) (pc data : Int) :
    List (Line Name) → Option (Tables Name)
  | [] => some t
  | .var name mul :: lines =>
    let data' := data + 4 * mul.getD 1
    if data' < bpc then
      scan bpc { t with vars := Function.update t.vars name (some data) } pc data' lines
    else none
  | .label name :: lines =>
    scan bpc { t with labels := Function.update t.labels name (some pc) } pc data lines
  | .op _ _ :: lines => scan bpc t (pc + 1) data lines

def Tables.getarg (t : Tables Name) : Operand Name → Option (Arg Name)
  | .immediate n => some (.immediate n)
  | .register r => some (.register r)
  | .label l => some (.label l)
  | .variable v => (t.vars v).map fun a => .memory ⟨a, .zero, .zero, 1⟩
  | .memory a => some (.memory a)

def Tables.target (t : Tables Name) (jump : Int → Instruction) :
    List (Arg Name) → Option Instruction
  | [.label l] => (t.labels l).map jump
  | _ => none

-- The opcode loop.
def Tables.instruction (t : Tables Name) : Opcode → List (Arg Name) → Option Instruction
  | .mov, [.immediate n, .register r] => some (.moveIToR n r)
  | .mov, [.memory a, .register r] => some (.moveMToR a r)
  | .mov, [.register r, .memory a] => some (.moveRToM r a)
  | .mov, [.register r, .register s] => some (.moveRToR r s)
  | .mov, [.immediate n, .memory a] => some (.moveIToM n a)
  | .lea, [.memory a, .register r] => some (.leaMToR a r)
  | .neg, [.register r] => some (.negR r)
  | .pop, [] => some .pop
  | .pop, [.register r] => some (.popR r)
  | .push, [.register r] => some (.pushR r)
  | .push, [.memory a] => some (.pushM a)
  | .call, args => t.target .call args
  | .ret, [] => some .ret
  | .mul, [.immediate n, .register r] => some (.mulIToR n r)
  | .mul, [.register r, .register s] => some (.mulRToR r s)
  | .add, [.immediate n, .register r] => some (.addIToR n r)
  | .add, [.register r, .register s] => some (.addRToR r s)
  | .sub, [.immediate n, .register r] => some (.subIToR n r)
  | .sub, [.register r, .register s] => some (.subRToR r s)
  | .fetchadd, [.register r, .memory a] => some (.fetchadd r a.value a.reg1 a.reg2)
  | .xchg, [.register r, .memory a] => some (.atomicExchange r a.value a.reg1 a.reg2)
  | .test, [.immediate n, .register r] => some (.testIR n r)
  | .test, [.register r, .register s] => some (.testRR r s)
  | .test, [.register r, .immediate n] => some (.testRI r n)
  | .j, args => t.target .jump args
  | .jne, args => t.target .jumpNotequal args
  | .je, args => t.target .jumpEqual args
  | .jlt, args => t.target .jumpLessthan args
  | .jlte, args => t.target .jumpLessthanorequal args
  | .jgt, args => t.target .jumpGreaterthan args
  | .jgte, args => t.target .jumpGreaterthanorequal args
  | .mdump, [.memory ⟨n, .zero, .zero, 1⟩] => some (.mdump n)
  | _, _ => none

-- Four opcodes do not look at what follows them.
def Tables.assemble (t : Tables Name) (opcode : Opcode) (args : List (Operand Name)) :
    Option Instruction :=
  match opcode with
  | .nop => some .nop
  | .halt => some .halt
  | .yield => some .iyield
  | .rdump => some .rdump
  | _ => (args.mapM t.getarg).bind (t.instruction opcode)

-- The second pass: labels and variables are skipped.
def store (t : Tables Name) : Int → List (Line Name) → Memory → Option Memory
  | _, [], m => some m
  | pc, .op opcode args :: lines, m =>
    (t.assemble opcode args).bind fun i =>
      store t (pc + 1) lines (Function.update m pc (some (.code i)))
  | pc, _ :: lines, m => store t pc lines m

def load [DecidableEq Name] (lines : List (Line Name)) (loadaddr : Int) (m : Memory) :
    Option Memory :=
  (scan loadaddr Tables.empty loadaddr 100 lines).bind fun t => store t loadaddr lines m

-- `init_memory`
def initMemory (memsize : ℕ) : Memory :=
  fun a => if 0 ≤ a ∧ a < memsize * 1024 then some (.value 0) else none

-- The instructions of the program in their order.
def Tables.instructions (t : Tables Name) : List (Line Name) → Option (List Instruction)
  | [] => some []
  | .op opcode args :: lines =>
    (t.assemble opcode args).bind fun i => (t.instructions lines).map (i :: ·)
  | _ :: lines => t.instructions lines

-- The program lies in the memory from its load address on.
def Holds (is : List Instruction) (base : Int) (m : Memory) : Prop :=
  ∀ k : ℕ, ∀ i, is[k]? = some i → m (base + k) = some (.code i)

variable {t : Tables Name} {lines : List (Line Name)} {pc base a n : Int} {m m' : Memory}
  {is : List Instruction}

theorem store_below (h : store t pc lines m = some m') (ha : a < pc) : m' a = m a := by
  induction lines generalizing pc m with
  | nil =>
    obtain rfl := Option.some.inj h
    rfl
  | cons line lines ih =>
    cases line with
    | op opcode args =>
      obtain ⟨i, -, hrest⟩ := Option.bind_eq_some_iff.mp h
      rw [ih hrest (by omega), Function.update_of_ne (by omega)]
    | _ => exact ih h ha

theorem store_holds (h : store t pc lines m = some m') :
    ∃ is, t.instructions lines = some is ∧ Holds is pc m' := by
  induction lines generalizing pc m with
  | nil => exact ⟨[], rfl, by simp [Holds]⟩
  | cons line lines ih =>
    cases line with
    | op opcode args =>
      obtain ⟨i, hi, hrest⟩ := Option.bind_eq_some_iff.mp h
      obtain ⟨is, his, hholds⟩ := ih hrest
      refine ⟨i :: is, by simp [Tables.instructions, hi, his], ?_⟩
      intro k j hj
      cases k with
      | zero =>
        obtain rfl : i = j := by simpa using hj
        rw [store_below hrest (by omega)]
        simp
      | succ k =>
        have hk := hholds k j (by simpa using hj)
        rwa [show pc + 1 + (k : Int) = pc + (k + 1 : ℕ) by push_cast; omega] at hk
    | _ => exact ih h

theorem Holds.write (h : Holds is base m) (ha : a < base) : Holds is base (m.write a n) := by
  intro k i hi
  rw [Memory.write_of_ne (by omega)]
  exact h k i hi

theorem Holds.cycle {x : Cpu} {k : ℕ} {i : Instruction} (h : Holds is base x.memory)
    (hpc : x.context.pc = base + k) (hi : is[k]? = some i) :
    X86.cycle x = execute i { x with context := { x.context with pc := base + (k + 1 : ℕ) } } := by
  have hcode : x.memory x.context.pc = some (.code i) := by
    rw [hpc]
    exact h k i hi
  rw [cycle_code hcode, hpc, Int.add_assoc]
  rfl

end X86
