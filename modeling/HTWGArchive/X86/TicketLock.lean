import HTWGArchive.Library.LabelledRun
import HTWGArchive.Library.TicketQueue
import HTWGArchive.X86.Programs

namespace X86.TicketLock

open Interleaving

inductive Name where
  | ticket | turn | count | main | top | acquire | tryagain
  deriving DecidableEq, Repr

-- ticket.s
def source : List (Line Name) :=
  [.var .ticket none, .var .turn none, .var .count none, .label .main, .label .top,
    .label .acquire,
    .op .mov [.immediate 1, .register .ax],
    .op .fetchadd [.register .ax, .variable .ticket],
    .label .tryagain,
    .op .mov [.variable .turn, .register .cx],
    .op .test [.register .cx, .register .ax],
    .op .jne [.label .tryagain],
    .op .mov [.variable .count, .register .ax],
    .op .add [.immediate 1, .register .ax],
    .op .mov [.register .ax, .variable .count],
    .op .mov [.immediate 1, .register .ax],
    .op .fetchadd [.register .ax, .variable .turn],
    .op .sub [.immediate 1, .register .bx],
    .op .test [.immediate 0, .register .bx],
    .op .jgt [.label .top],
    .op .halt []]

def ticketAddr : Int := 100

def turnAddr : Int := 104

def countAddr : Int := 108

def code (base : Int) : List Instruction :=
  [.moveIToR 1 .ax, .fetchadd .ax ticketAddr .zero .zero, .moveMToR (direct turnAddr) .cx,
    .testRR .cx .ax, .jumpNotequal (base + 2), .moveMToR (direct countAddr) .ax, .addIToR 1 .ax,
    .moveRToM .ax (direct countAddr), .moveIToR 1 .ax, .fetchadd .ax turnAddr .zero .zero,
    .subIToR 1 .bx, .testIR 0 .bx, .jumpGreaterthan base, .halt]

variable {base : Int} {m : Memory} {c : Context} {n : ℕ}

theorem scan_source {t : Tables Name} (h : scan base Tables.empty base 100 source = some t) :
    countAddr < base ∧ t.instructions source = some (code base) := by
  have htwo : base + 1 + 1 = base + 2 := by omega
  simp only [source, scan] at h
  split at h
  · split at h
    · split at h
      · rename_i hlast
        obtain rfl := Option.some.inj h
        refine ⟨?_, ?_⟩
        · simp at hlast
          simp only [countAddr]
          omega
        · rw [htwo]
          rfl
      · cases h
    · cases h
  · cases h

theorem load_code {memsize : ℕ} (hmem : 0 < memsize)
    (h : load source base (initMemory memsize) = some m) :
    Holds (code base) base m ∧ countAddr < base ∧ m.read ticketAddr = some 0 ∧
      m.read turnAddr = some 0 ∧ m.read countAddr = some 0 := by
  obtain ⟨t, ht, -⟩ := Option.bind_eq_some_iff.mp h
  obtain ⟨hbase, hcode⟩ := scan_source ht
  obtain ⟨hholds, hread⟩ := load_reads ht hcode h
  have hzero : ∀ a, 0 ≤ a → a ≤ countAddr → m.read a = some 0 := by
    intro a hpos hle
    simp only [countAddr] at hle hbase
    exact hread a hpos (by omega) (by omega)
  exact ⟨hholds, hbase, hzero _ (by decide) (by decide), hzero _ (by decide) (by decide),
    hzero _ (by decide) (by decide)⟩

-- What each instruction does, by its point.
inductive Effect (base : Int) (c : Context) (m : Memory) : ℕ → Thread × Memory → Prop where
  | one : Effect base c m 0 (.running ({ c with pc := base + (1 : ℕ) }.setReg .ax 1), m)
  | grab {ticket : Int} : m.read ticketAddr = some ticket →
      Effect base c m 1 (.running ({ c with pc := base + (2 : ℕ) }.setReg .ax ticket),
        m.write ticketAddr (ticket + c.registers .ax))
  | look {turn : Int} : m.read turnAddr = some turn →
      Effect base c m 2 (.running ({ c with pc := base + (3 : ℕ) }.setReg .cx turn), m)
  | compare : Effect base c m 3 (.running ({ c with pc := base + (4 : ℕ) }.setConditions
      (testAll (c.registers .cx) (c.registers .ax))), m)
  | spin : c.conditions.neq = true →
      Effect base c m 4 (.running { c with pc := base + (2 : ℕ) }, m)
  | enter : c.conditions.neq = false →
      Effect base c m 4 (.running { c with pc := base + (5 : ℕ) }, m)
  | loadCount {count : Int} : m.read countAddr = some count →
      Effect base c m 5 (.running ({ c with pc := base + (6 : ℕ) }.setReg .ax count), m)
  | add : Effect base c m 6
      (.running ({ c with pc := base + (7 : ℕ) }.setReg .ax (c.registers .ax + 1)), m)
  | storeCount : Effect base c m 7
      (.running { c with pc := base + (8 : ℕ) }, m.write countAddr (c.registers .ax))
  | oneAgain : Effect base c m 8 (.running ({ c with pc := base + (9 : ℕ) }.setReg .ax 1), m)
  | release {turn : Int} : m.read turnAddr = some turn →
      Effect base c m 9 (.running ({ c with pc := base + (10 : ℕ) }.setReg .ax turn),
        m.write turnAddr (turn + c.registers .ax))
  | sub : Effect base c m 10
      (.running ({ c with pc := base + (11 : ℕ) }.setReg .bx (c.registers .bx - 1)), m)
  | test : Effect base c m 11 (.running ({ c with pc := base + (12 : ℕ) }.setConditions
      (testAll 0 (c.registers .bx))), m)
  | again : c.conditions.gt = true →
      Effect base c m 12 (.running { c with pc := base + (0 : ℕ) }, m)
  | leave : c.conditions.gt = false →
      Effect base c m 12 (.running { c with pc := base + (13 : ℕ) }, m)
  | halt : Effect base c m 13 (.done, m)

theorem effect_of_step {k : ℕ} {x : Thread × Memory} (hcode : Holds (code base) base m)
    (hpc : c.pc = base + k) (hk : k < 14) (hzero : c.registers .zero = 0)
    (hx : threadStep (.running c) m = some x) : Effect base c m k x := by
  have hstep := fun i => threadStep_of_holds (i := i) hcode hpc
  have hcases : k = 0 ∨ k = 1 ∨ k = 2 ∨ k = 3 ∨ k = 4 ∨ k = 5 ∨ k = 6 ∨ k = 7 ∨ k = 8 ∨ k = 9 ∨
      k = 10 ∨ k = 11 ∨ k = 12 ∨ k = 13 := by omega
  rcases hcases with rfl | rfl | rfl | rfl | rfl | rfl | rfl | rfl | rfl | rfl | rfl | rfl | rfl | rfl
  · obtain rfl := Option.some.inj ((hstep _ rfl).symm.trans hx)
    exact Effect.one
  · rw [hstep _ rfl] at hx
    obtain ⟨y, hy, rfl⟩ := Option.map_eq_some_iff.mp hx
    obtain ⟨old, hold, rfl⟩ := Option.map_eq_some_iff.mp hy
    simp only [hzero, Int.add_zero] at hold ⊢
    exact Effect.grab hold
  · rw [hstep _ rfl, execute, address_direct hzero] at hx
    obtain ⟨y, hy, rfl⟩ := Option.map_eq_some_iff.mp hx
    obtain ⟨turn, hturn, rfl⟩ := Option.map_eq_some_iff.mp hy
    exact Effect.look hturn
  · obtain rfl := Option.some.inj ((hstep _ rfl).symm.trans hx)
    exact Effect.compare
  · exact jump_cases (b := c.conditions.neq) (y := 5) (z := 2) ((hstep _ rfl).symm.trans hx)
      Effect.spin Effect.enter
  · rw [hstep _ rfl, execute, address_direct hzero] at hx
    obtain ⟨y, hy, rfl⟩ := Option.map_eq_some_iff.mp hx
    obtain ⟨count, hcount, rfl⟩ := Option.map_eq_some_iff.mp hy
    exact Effect.loadCount hcount
  · obtain rfl := Option.some.inj ((hstep _ rfl).symm.trans hx)
    exact Effect.add
  · rw [hstep _ rfl, execute, address_direct hzero] at hx
    obtain rfl := Option.some.inj hx
    exact Effect.storeCount
  · obtain rfl := Option.some.inj ((hstep _ rfl).symm.trans hx)
    exact Effect.oneAgain
  · rw [hstep _ rfl] at hx
    obtain ⟨y, hy, rfl⟩ := Option.map_eq_some_iff.mp hx
    obtain ⟨old, hold, rfl⟩ := Option.map_eq_some_iff.mp hy
    simp only [hzero, Int.add_zero] at hold ⊢
    exact Effect.release hold
  · obtain rfl := Option.some.inj ((hstep _ rfl).symm.trans hx)
    exact Effect.sub
  · obtain rfl := Option.some.inj ((hstep _ rfl).symm.trans hx)
    exact Effect.test
  · have hbase : base = base + (0 : ℕ) := by simp
    rw [hstep (.jumpGreaterthan base) rfl] at hx
    exact jump_cases (b := c.conditions.gt) (y := 13) (z := 0) (by rw [← hbase]; exact hx)
      Effect.again Effect.leave
  · obtain rfl := Option.some.inj ((hstep _ rfl).symm.trans hx)
    exact Effect.halt

end X86.TicketLock
