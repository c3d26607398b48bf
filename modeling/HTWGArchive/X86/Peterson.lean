import HTWGArchive.X86.Programs

namespace X86.Peterson

open Interleaving

inductive Name where
  | flag | turn | count | main | acquire | spin1 | spin2 | fini | release
  deriving DecidableEq, Repr

-- `0(%fx,r,4)`
def indexed (r : Reg) : Address := ⟨0, .fx, r, 4⟩

-- peterson.s
def source : List (Line Name) :=
  [.var .flag (some 2), .var .turn none, .var .count none, .label .main,
    .op .lea [.variable .flag, .register .fx],
    .op .mov [.register .bx, .register .cx],
    .op .neg [.register .cx],
    .op .add [.immediate 1, .register .cx],
    .label .acquire,
    .op .mov [.immediate 1, .memory (indexed .bx)],
    .op .mov [.register .cx, .variable .turn],
    .label .spin1,
    .op .mov [.memory (indexed .cx), .register .ax],
    .op .test [.immediate 1, .register .ax],
    .op .jne [.label .fini],
    .label .spin2,
    .op .mov [.variable .turn, .register .ax],
    .op .test [.register .cx, .register .ax],
    .op .je [.label .spin1],
    .label .fini,
    .op .mov [.variable .count, .register .ax],
    .op .add [.immediate 1, .register .ax],
    .op .mov [.register .ax, .variable .count],
    .label .release,
    .op .mov [.immediate 0, .memory (indexed .bx)],
    .op .mov [.register .cx, .variable .turn],
    .op .halt []]

def flagAddr (i : Fin 2) : Int := 100 + 4 * (i : ℕ)

def turnAddr : Int := 108

def countAddr : Int := 112

def code (base : Int) : List Instruction :=
  [.leaMToR (direct 100) .fx, .moveRToR .bx .cx, .negR .cx, .addIToR 1 .cx,
    .moveIToM 1 (indexed .bx), .moveRToM .cx (direct turnAddr), .moveMToR (indexed .cx) .ax,
    .testIR 1 .ax, .jumpNotequal (base + 12), .moveMToR (direct turnAddr) .ax, .testRR .cx .ax,
    .jumpEqual (base + 6), .moveMToR (direct countAddr) .ax, .addIToR 1 .ax,
    .moveRToM .ax (direct countAddr), .moveIToM 0 (indexed .bx), .moveRToM .cx (direct turnAddr),
    .halt]

variable {base : Int} {m : Memory} {c : Context}

theorem scan_source {t : Tables Name} (h : scan base Tables.empty base 100 source = some t) :
    countAddr < base ∧ t.instructions source = some (code base) := by
  have hsix : base + 1 + 1 + 1 + 1 + 1 + 1 = base + 6 := by omega
  have htwelve : base + 6 + 1 + 1 + 1 + 1 + 1 + 1 = base + 12 := by omega
  simp only [source, scan] at h
  split at h
  · split at h
    · split at h
      · rename_i hlast
        obtain rfl := Option.some.inj h
        refine ⟨?_, ?_⟩
        · simp at hlast
          simp only [countAddr]
          omega
        · rw [hsix, htwelve]
          rfl
      · cases h
    · cases h
  · cases h

theorem load_code {memsize : ℕ} (hmem : 0 < memsize)
    (h : load source base (initMemory memsize) = some m) :
    Holds (code base) base m ∧ countAddr < base ∧
      ∀ a, 0 ≤ a → a ≤ countAddr → m.read a = some 0 := by
  obtain ⟨t, ht, -⟩ := Option.bind_eq_some_iff.mp h
  obtain ⟨hbase, hcode⟩ := scan_source ht
  obtain ⟨hholds, hread⟩ := load_reads ht hcode h
  refine ⟨hholds, hbase, ?_⟩
  intro a hpos hle
  simp only [countAddr] at hle hbase
  exact hread a hpos (by omega) (by omega)

-- What each instruction does, by its point.
inductive Effect (base : Int) (c : Context) (m : Memory) : ℕ → Thread × Memory → Prop where
  | lea : Effect base c m 0 (.running ({ c with pc := base + (1 : ℕ) }.setReg .fx 100), m)
  | self : Effect base c m 1
      (.running ({ c with pc := base + (2 : ℕ) }.setReg .cx (c.registers .bx)), m)
  | neg : Effect base c m 2
      (.running ({ c with pc := base + (3 : ℕ) }.setReg .cx (-c.registers .cx)), m)
  | other : Effect base c m 3
      (.running ({ c with pc := base + (4 : ℕ) }.setReg .cx (c.registers .cx + 1)), m)
  | raise : Effect base c m 4 (.running { c with pc := base + (5 : ℕ) },
      m.write (c.registers .fx + 4 * c.registers .bx) 1)
  | defer : Effect base c m 5 (.running { c with pc := base + (6 : ℕ) },
      m.write turnAddr (c.registers .cx))
  | lookFlag {f : Int} : m.read (c.registers .fx + 4 * c.registers .cx) = some f →
      Effect base c m 6 (.running ({ c with pc := base + (7 : ℕ) }.setReg .ax f), m)
  | testFlag : Effect base c m 7 (.running ({ c with pc := base + (8 : ℕ) }.setConditions
      (testAll 1 (c.registers .ax))), m)
  | skip : c.conditions.neq = true →
      Effect base c m 8 (.running { c with pc := base + (12 : ℕ) }, m)
  | stay : c.conditions.neq = false →
      Effect base c m 8 (.running { c with pc := base + (9 : ℕ) }, m)
  | lookTurn {u : Int} : m.read turnAddr = some u →
      Effect base c m 9 (.running ({ c with pc := base + (10 : ℕ) }.setReg .ax u), m)
  | compare : Effect base c m 10 (.running ({ c with pc := base + (11 : ℕ) }.setConditions
      (testAll (c.registers .cx) (c.registers .ax))), m)
  | back : c.conditions.eq = true →
      Effect base c m 11 (.running { c with pc := base + (6 : ℕ) }, m)
  | go : c.conditions.eq = false →
      Effect base c m 11 (.running { c with pc := base + (12 : ℕ) }, m)
  | loadCount {count : Int} : m.read countAddr = some count →
      Effect base c m 12 (.running ({ c with pc := base + (13 : ℕ) }.setReg .ax count), m)
  | add : Effect base c m 13
      (.running ({ c with pc := base + (14 : ℕ) }.setReg .ax (c.registers .ax + 1)), m)
  | storeCount : Effect base c m 14
      (.running { c with pc := base + (15 : ℕ) }, m.write countAddr (c.registers .ax))
  | lower : Effect base c m 15 (.running { c with pc := base + (16 : ℕ) },
      m.write (c.registers .fx + 4 * c.registers .bx) 0)
  | give : Effect base c m 16 (.running { c with pc := base + (17 : ℕ) },
      m.write turnAddr (c.registers .cx))
  | halt : Effect base c m 17 (.done, m)

theorem effect_of_step {k : ℕ} {x : Thread × Memory} (hcode : Holds (code base) base m)
    (hpc : c.pc = base + k) (hk : k < 18) (hzero : c.registers .zero = 0)
    (hx : threadStep (.running c) m = some x) : Effect base c m k x := by
  have hindexed : ∀ pc r, ({ c with pc := pc } : Context).address (indexed r) =
      c.registers .fx + 4 * c.registers r := by
    intro pc r
    simp [Context.address, indexed]
  have hstep := fun i => threadStep_of_holds (i := i) hcode hpc
  have hcases : k = 0 ∨ k = 1 ∨ k = 2 ∨ k = 3 ∨ k = 4 ∨ k = 5 ∨ k = 6 ∨ k = 7 ∨ k = 8 ∨ k = 9 ∨
      k = 10 ∨ k = 11 ∨ k = 12 ∨ k = 13 ∨ k = 14 ∨ k = 15 ∨ k = 16 ∨ k = 17 := by omega
  rcases hcases with rfl | rfl | rfl | rfl | rfl | rfl | rfl | rfl | rfl | rfl | rfl | rfl | rfl |
    rfl | rfl | rfl | rfl | rfl
  · rw [hstep _ rfl, execute, address_direct hzero] at hx
    obtain rfl := Option.some.inj hx
    exact Effect.lea
  · obtain rfl := Option.some.inj ((hstep _ rfl).symm.trans hx)
    exact Effect.self
  · obtain rfl := Option.some.inj ((hstep _ rfl).symm.trans hx)
    exact Effect.neg
  · obtain rfl := Option.some.inj ((hstep _ rfl).symm.trans hx)
    exact Effect.other
  · rw [hstep _ rfl, execute, hindexed] at hx
    obtain rfl := Option.some.inj hx
    exact Effect.raise
  · rw [hstep _ rfl, execute, address_direct hzero] at hx
    obtain rfl := Option.some.inj hx
    exact Effect.defer
  · rw [hstep _ rfl, execute, hindexed] at hx
    obtain ⟨y, hy, rfl⟩ := Option.map_eq_some_iff.mp hx
    obtain ⟨f, hf, rfl⟩ := Option.map_eq_some_iff.mp hy
    exact Effect.lookFlag hf
  · obtain rfl := Option.some.inj ((hstep _ rfl).symm.trans hx)
    exact Effect.testFlag
  · exact jump_cases (b := c.conditions.neq) (y := 9) (z := 12) ((hstep _ rfl).symm.trans hx)
      Effect.skip Effect.stay
  · rw [hstep _ rfl, execute, address_direct hzero] at hx
    obtain ⟨y, hy, rfl⟩ := Option.map_eq_some_iff.mp hx
    obtain ⟨u, hu, rfl⟩ := Option.map_eq_some_iff.mp hy
    exact Effect.lookTurn hu
  · obtain rfl := Option.some.inj ((hstep _ rfl).symm.trans hx)
    exact Effect.compare
  · exact jump_cases (b := c.conditions.eq) (y := 12) (z := 6) ((hstep _ rfl).symm.trans hx)
      Effect.back Effect.go
  · rw [hstep _ rfl, execute, address_direct hzero] at hx
    obtain ⟨y, hy, rfl⟩ := Option.map_eq_some_iff.mp hx
    obtain ⟨count, hcount, rfl⟩ := Option.map_eq_some_iff.mp hy
    exact Effect.loadCount hcount
  · obtain rfl := Option.some.inj ((hstep _ rfl).symm.trans hx)
    exact Effect.add
  · rw [hstep _ rfl, execute, address_direct hzero] at hx
    obtain rfl := Option.some.inj hx
    exact Effect.storeCount
  · rw [hstep _ rfl, execute, hindexed] at hx
    obtain rfl := Option.some.inj hx
    exact Effect.lower
  · rw [hstep _ rfl, execute, address_direct hzero] at hx
    obtain rfl := Option.some.inj hx
    exact Effect.give
  · obtain rfl := Option.some.inj ((hstep _ rfl).symm.trans hx)
    exact Effect.halt

end X86.Peterson
