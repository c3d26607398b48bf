import HTWGArchive.X86.SpinLock

namespace X86

open Interleaving

inductive SpinName where
  | mutex | count | main | top | acquire | acquireDone
  deriving DecidableEq, Repr

-- test-and-set.s, test-and-test-and-set.s and yield.s
inductive SpinProgram where
  | testAndSet
  | testAndTestAndSet
  | yield
  deriving DecidableEq, Repr

namespace SpinProgram

def acquire : SpinProgram → List (Line SpinName)
  | .testAndSet =>
    [.op .mov [.immediate 1, .register .ax],
      .op .xchg [.register .ax, .variable .mutex],
      .op .test [.immediate 0, .register .ax],
      .op .jne [.label .acquire]]
  | .testAndTestAndSet =>
    [.op .mov [.variable .mutex, .register .ax],
      .op .test [.immediate 0, .register .ax],
      .op .jne [.label .acquire],
      .op .mov [.immediate 1, .register .ax],
      .op .xchg [.register .ax, .variable .mutex],
      .op .test [.immediate 0, .register .ax],
      .op .jne [.label .acquire]]
  | .yield =>
    [.op .mov [.immediate 1, .register .ax],
      .op .xchg [.register .ax, .variable .mutex],
      .op .test [.immediate 0, .register .ax],
      .op .je [.label .acquireDone],
      .op .yield [],
      .op .j [.label .acquire],
      .label .acquireDone]

def source (p : SpinProgram) : List (Line SpinName) :=
  [.var .mutex none, .var .count none, .label .main, .label .top, .label .acquire] ++
    p.acquire ++
    [.op .mov [.variable .count, .register .ax],
      .op .add [.immediate 1, .register .ax],
      .op .mov [.register .ax, .variable .count],
      .op .mov [.immediate 0, .variable .mutex],
      .op .sub [.immediate 1, .register .bx],
      .op .test [.immediate 0, .register .bx],
      .op .jgt [.label .top],
      .op .halt []]

def entry (base : Int) : SpinProgram → List Instruction
  | .testAndSet =>
    [.moveIToR 1 .ax, .atomicExchange .ax mutexAddr .zero .zero, .testIR 0 .ax, .jumpNotequal base]
  | .testAndTestAndSet =>
    [.moveMToR (direct mutexAddr) .ax, .testIR 0 .ax, .jumpNotequal base, .moveIToR 1 .ax,
      .atomicExchange .ax mutexAddr .zero .zero, .testIR 0 .ax, .jumpNotequal base]
  | .yield =>
    [.moveIToR 1 .ax, .atomicExchange .ax mutexAddr .zero .zero, .testIR 0 .ax,
      .jumpEqual (base + 6), .iyield, .jump base]

def tables (p : SpinProgram) (base : Int) : Tables SpinName :=
  let vars := Function.update (Function.update (fun _ => none) .mutex (some mutexAddr)) .count
    (some countAddr)
  let labels := Function.update (Function.update (Function.update (fun _ => none) .main (some base))
    .top (some base)) .acquire (some base)
  match p with
  | .yield => { vars := vars, labels := Function.update labels .acquireDone (some (base + 6)) }
  | _ => { vars := vars, labels := labels }

theorem scan_source {p : SpinProgram} {base : Int} {t : Tables SpinName}
    (h : scan base Tables.empty base 100 p.source = some t) :
    countAddr < base ∧ t = p.tables base := by
  have hsix : base + 1 + 1 + 1 + 1 + 1 + 1 = base + 6 := by omega
  cases p <;> simp only [source, acquire, List.cons_append, List.nil_append, scan] at h <;>
    split at h <;> (try cases h) <;> split at h <;> cases h <;>
    refine ⟨by simp only [countAddr]; simp at *; omega, ?_⟩ <;> (try rw [hsix]) <;> rfl

theorem tables_instructions (p : SpinProgram) (base : Int) :
    (p.tables base).instructions p.source = some (p.entry base ++ lockTail base) := by
  cases p <;> rfl

theorem load_good {p : SpinProgram} {base : Int} {memsize : ℕ} {m : Memory}
    (hmem : 0 < memsize) (h : load p.source base (initMemory memsize) = some m) :
    Entry.Good base (p.entry base) m ∧ m.read mutexAddr = some 0 ∧ m.read countAddr = some 0 := by
  obtain ⟨t, ht, -⟩ := Option.bind_eq_some_iff.mp h
  obtain ⟨hbase, rfl⟩ := scan_source ht
  obtain ⟨hholds, hread⟩ := load_reads ht (tables_instructions p base) h
  simp only [countAddr] at hbase
  have hmutex := hread mutexAddr (by decide) (by simp only [mutexAddr]; omega)
    (by simp only [mutexAddr]; omega)
  have hcount := hread countAddr (by decide) hbase (by simp only [countAddr]; omega)
  exact ⟨⟨hholds, hbase, Or.inl hmutex, 0, hcount⟩, hmutex, hcount⟩

section Steps

variable {holds ok : ℕ → Context → Prop} {base v : Int} {b k : ℕ} {c : Context} {m : Memory}

theorem runs_quiet {i : Instruction} (sig : Signal) (k' : ℕ) (c' : Context)
    (hexec : execute i { context := { c with pc := base + (k + 1 : ℕ) }, memory := m } =
      some (sig, { context := c', memory := m })) (hsig : sig ≠ .halt) (hk : k' ≤ b)
    (hread : m.read mutexAddr = some v) (hpc : c'.pc = base + k')
    (hzero : c'.registers .zero = c.registers .zero) (hbx : c'.registers .bx = c.registers .bx)
    (hholds : holds k' c' ↔ holds k c) (hok : k' < b → ok k' c') :
    Runs holds ok base b k i c m v :=
  ⟨sig, k', c', m, v, hexec, hsig, hk,
    ⟨hpc, hzero, hbx, fun _ _ => rfl, hread, Or.inr ⟨rfl, hholds⟩⟩, hok⟩

-- The exchange of 1 and the mutex; who gets 0 back has it.
theorem runs_exchange (hk : k + 1 ≤ b) (hv : v = 0 ∨ v = 1) (hread : m.read mutexAddr = some v)
    (hzero : c.registers .zero = 0) (hax : c.registers .ax = 1) (hbefore : ¬ holds k c)
    (hafter : ∀ c' : Context, holds (k + 1) c' ↔ c'.registers .ax = 0)
    (hok : ∀ c', k + 1 < b → ok (k + 1) c') :
    Runs holds ok base b k (.atomicExchange .ax mutexAddr .zero .zero) c m v := by
  refine ⟨.other, k + 1, { c with pc := base + (k + 1 : ℕ) }.setReg .ax v, m.write mutexAddr 1, 1,
    ?_, Signal.noConfusion, hk, ⟨rfl, ?_, ?_, fun a ha => Memory.write_of_ne ha, ?_, ?_⟩, hok _⟩
  · simp [execute, hzero, hread, hax]
  · simp [Context.setReg]
  · simp [Context.setReg]
  · simp
  · have hholds := hafter ({ c with pc := base + (k + 1 : ℕ) }.setReg .ax v)
    simp only [Context.setReg, Function.update_self] at hholds
    rcases hv with rfl | rfl
    · exact Or.inl ⟨rfl, rfl, hbefore, hholds.mpr rfl⟩
    · exact Or.inr ⟨rfl, iff_of_false (fun h => absurd (hholds.mp h) (by decide)) hbefore⟩

theorem runs_test (hk : k + 1 ≤ b) (hread : m.read mutexAddr = some v)
    (hholds : ∀ c' : Context, c'.registers = c.registers →
      c'.conditions = testAll 0 (c.registers .ax) → (holds (k + 1) c' ↔ holds k c))
    (hok : ∀ c', k + 1 < b → ok (k + 1) c') :
    Runs holds ok base b k (.testIR 0 .ax) c m v :=
  runs_quiet .other (k + 1)
    ({ c with pc := base + (k + 1 : ℕ) }.setConditions (testAll 0 (c.registers .ax))) rfl
    Signal.noConfusion hk hread rfl rfl rfl (hholds _ rfl rfl) (hok _)

theorem runs_set {n : Int} (hk : k + 1 ≤ b) (hread : m.read mutexAddr = some v)
    (hholds : ∀ c' : Context, holds (k + 1) c' ↔ holds k c)
    (hok : ∀ c' : Context, c'.registers .ax = n → k + 1 < b → ok (k + 1) c') :
    Runs holds ok base b k (.moveIToR n .ax) c m v :=
  runs_quiet .other (k + 1) ({ c with pc := base + (k + 1 : ℕ) }.setReg .ax n) rfl
    Signal.noConfusion hk hread rfl (by simp [Context.setReg]) (by simp [Context.setReg])
    (hholds _) (hok _ (by simp [Context.setReg]))

-- A jump to the point `k'`, taken or not.
theorem runs_jump {i : Instruction} (k' : ℕ) (taken : Bool) (hk : k + 1 ≤ b) (hk' : k' ≤ b)
    (hread : m.read mutexAddr = some v)
    (hexec : ∀ x : Cpu, x.context.conditions = c.conditions →
      execute i x = some (.other, x.jumpIf taken (base + k')))
    (hholds : ∀ c' : Context, c'.registers = c.registers → c'.conditions = c.conditions →
      (holds (if taken then k' else k + 1) c' ↔ holds k c))
    (hok : ∀ c', (if taken then k' else k + 1) < b → ok (if taken then k' else k + 1) c') :
    Runs holds ok base b k i c m v := by
  cases taken with
  | true =>
    exact runs_quiet .other k' { c with pc := base + (k' : ℕ) } (hexec _ rfl) Signal.noConfusion hk'
      hread rfl rfl rfl (hholds _ rfl rfl) (hok _)
  | false =>
    exact runs_quiet .other (k + 1) { c with pc := base + (k + 1 : ℕ) } (hexec _ rfl)
      Signal.noConfusion hk hread rfl rfl rfl (hholds _ rfl rfl) (hok _)

end Steps

def testAndSetHolds (k : ℕ) (c : Context) : Prop :=
  match k with
  | 2 => c.registers .ax = 0
  | 3 => c.conditions.neq = false
  | 4 => True
  | _ => False

def testAndSetEntry (base : Int) : Entry base (entry base .testAndSet) where
  holds := testAndSetHolds
  ok k c := k = 1 → c.registers .ax = 1
  pos := Nat.succ_pos _
  start := fun _ => ⟨fun h => absurd h (by decide), id⟩
  entered := fun _ => trivial
  step := by
    intro k i c m v hi hok hzero hread hv
    have hk : k < 4 := (List.getElem?_eq_some_iff.mp hi).1
    have hcases : k = 0 ∨ k = 1 ∨ k = 2 ∨ k = 3 := by omega
    rcases hcases with rfl | rfl | rfl | rfl
    · obtain rfl := Option.some.inj hi
      exact runs_set (b := 4) (by decide) hread (fun _ => Iff.rfl) (fun _ h _ _ => h)
    · obtain rfl := Option.some.inj hi
      exact runs_exchange (b := 4) (by decide) hv hread hzero (hok rfl) id (fun _ => Iff.rfl)
        (fun _ _ h => absurd h (by decide))
    · obtain rfl := Option.some.inj hi
      refine runs_test (b := 4) (by decide) hread ?_ (fun _ _ h => absurd h (by decide))
      intro c' _ hcond
      simp [testAndSetHolds, hcond, testAll]
    · obtain rfl := Option.some.inj hi
      refine runs_jump (b := 4) 0 c.conditions.neq (by decide) (by decide) hread
        ?_ ?_ ?_
      · intro x hx
        simp [execute, hx]
      · intro c' _ hcond
        cases hneq : c.conditions.neq <;> simp [testAndSetHolds, hneq]
      · intro c' hlt h
        cases hneq : c.conditions.neq <;> simp [hneq] at h

def testAndTestAndSetHolds (k : ℕ) (c : Context) : Prop :=
  match k with
  | 5 => c.registers .ax = 0
  | 6 => c.conditions.neq = false
  | 7 => True
  | _ => False

theorem runs_get {holds ok : ℕ → Context → Prop} {base v : Int} {b k : ℕ} {c : Context}
    {m : Memory} (hk : k + 1 ≤ b) (hread : m.read mutexAddr = some v)
    (hzero : c.registers .zero = 0) (hholds : ∀ c' : Context, holds (k + 1) c' ↔ holds k c)
    (hok : ∀ c', k + 1 < b → ok (k + 1) c') :
    Runs holds ok base b k (.moveMToR (direct mutexAddr) .ax) c m v := by
  refine runs_quiet .other (k + 1) ({ c with pc := base + (k + 1 : ℕ) }.setReg .ax v) ?_
    Signal.noConfusion hk hread rfl (by simp [Context.setReg]) (by simp [Context.setReg])
    (hholds _) (hok _)
  simp [execute, Context.address, direct, hzero, hread, Cpu.setReg]

def testAndTestAndSetEntry (base : Int) : Entry base (entry base .testAndTestAndSet) where
  holds := testAndTestAndSetHolds
  ok k c := k = 4 → c.registers .ax = 1
  pos := Nat.succ_pos _
  start := fun _ => ⟨fun h => absurd h (by decide), id⟩
  entered := fun _ => trivial
  step := by
    intro k i c m v hi hok hzero hread hv
    have hk : k < 7 := (List.getElem?_eq_some_iff.mp hi).1
    have hcases : k = 0 ∨ k = 1 ∨ k = 2 ∨ k = 3 ∨ k = 4 ∨ k = 5 ∨ k = 6 := by omega
    rcases hcases with rfl | rfl | rfl | rfl | rfl | rfl | rfl
    · obtain rfl := Option.some.inj hi
      exact runs_get (b := 7) (by decide) hread hzero (fun _ => Iff.rfl)
        (fun _ _ h => absurd h (by decide))
    · obtain rfl := Option.some.inj hi
      exact runs_test (b := 7) (by decide) hread (fun _ _ _ => Iff.rfl)
        (fun _ _ h => absurd h (by decide))
    · obtain rfl := Option.some.inj hi
      refine runs_jump (b := 7) 0 c.conditions.neq (by decide) (by decide) hread
        ?_ ?_ ?_
      · intro x hx
        simp [execute, hx]
      · intro c' _ _
        cases c.conditions.neq <;> exact Iff.rfl
      · intro c' _ h
        cases hneq : c.conditions.neq <;> simp [hneq] at h
    · obtain rfl := Option.some.inj hi
      exact runs_set (b := 7) (by decide) hread (fun _ => Iff.rfl) (fun _ h _ _ => h)
    · obtain rfl := Option.some.inj hi
      exact runs_exchange (b := 7) (by decide) hv hread hzero (hok rfl) id (fun _ => Iff.rfl)
        (fun _ _ h => absurd h (by decide))
    · obtain rfl := Option.some.inj hi
      refine runs_test (b := 7) (by decide) hread ?_ (fun _ _ h => absurd h (by decide))
      intro c' _ hcond
      simp [testAndTestAndSetHolds, hcond, testAll]
    · obtain rfl := Option.some.inj hi
      refine runs_jump (b := 7) 0 c.conditions.neq (by decide) (by decide) hread
        ?_ ?_ ?_
      · intro x hx
        simp [execute, hx]
      · intro c' _ hcond
        cases hneq : c.conditions.neq <;> simp [testAndTestAndSetHolds, hneq]
      · intro c' _ h
        cases hneq : c.conditions.neq <;> simp [hneq] at h

def yieldHolds (k : ℕ) (c : Context) : Prop :=
  match k with
  | 2 => c.registers .ax = 0
  | 3 => c.conditions.eq = true
  | 6 => True
  | _ => False

def yieldEntry (base : Int) : Entry base (entry base .yield) where
  holds := yieldHolds
  ok k c := k = 1 → c.registers .ax = 1
  pos := Nat.succ_pos _
  start := fun _ => ⟨fun h => absurd h (by decide), id⟩
  entered := fun _ => trivial
  step := by
    intro k i c m v hi hok hzero hread hv
    have hk : k < 6 := (List.getElem?_eq_some_iff.mp hi).1
    have hcases : k = 0 ∨ k = 1 ∨ k = 2 ∨ k = 3 ∨ k = 4 ∨ k = 5 := by omega
    rcases hcases with rfl | rfl | rfl | rfl | rfl | rfl
    · obtain rfl := Option.some.inj hi
      exact runs_set (b := 6) (by decide) hread (fun _ => Iff.rfl) (fun _ h _ _ => h)
    · obtain rfl := Option.some.inj hi
      exact runs_exchange (b := 6) (by decide) hv hread hzero (hok rfl) id (fun _ => Iff.rfl)
        (fun _ _ h => absurd h (by decide))
    · obtain rfl := Option.some.inj hi
      refine runs_test (b := 6) (by decide) hread ?_ (fun _ _ h => absurd h (by decide))
      intro c' _ hcond
      simp [yieldHolds, hcond, testAll, eq_comm]
    · obtain rfl := Option.some.inj hi
      refine runs_jump (b := 6) 6 c.conditions.eq (by decide) (by decide) hread
        ?_ ?_ ?_
      · intro x hx
        simp [execute, hx]
      · intro c' _ hcond
        cases heq : c.conditions.eq <;> simp [yieldHolds, heq]
      · intro c' hlt h
        cases heq : c.conditions.eq <;> simp [heq] at h
    · obtain rfl := Option.some.inj hi
      exact runs_quiet (b := 6) .yield 5 { c with pc := base + (5 : ℕ) } rfl
        Signal.noConfusion (by decide) hread rfl rfl rfl Iff.rfl (fun _ h => absurd h (by decide))
    · obtain rfl := Option.some.inj hi
      refine runs_jump (b := 6) 0 true (by decide) (by decide) hread ?_ ?_ ?_
      · intro x _
        simp [execute]
      · exact fun _ _ _ => Iff.rfl
      · exact fun _ _ h => absurd h (by decide)

def entryOf (p : SpinProgram) (base : Int) : Entry base (p.entry base) :=
  match p with
  | .testAndSet => testAndSetEntry base
  | .testAndTestAndSet => testAndTestAndSetEntry base
  | .yield => yieldEntry base

-- Whatever the threads, their rounds and the interrupts, no two threads are in the critical
-- section, and no increment is lost.
theorem counts_every_round {n : ℕ} (p : SpinProgram) (o : Options)
    (argv : Fin n → List (Reg × Int)) (hmem : 0 < o.memsize)
    (hzero : ∀ t, ∀ x ∈ argv t, x.1 ≠ .zero) {memory : Memory}
    (hload : load p.source o.loadaddr (initMemory o.memsize) = some memory) {draw : ℕ}
    {m : Machine n} (hstart : o.start argv memory draw = some m) :
    (∀ m', Run o.interrupts m m' → ∀ t u, Entry.Critical o.loadaddr (p.entry o.loadaddr) m'.view t →
      Entry.Critical o.loadaddr (p.entry o.loadaddr) m'.view u → t = u) ∧
    (∀ k m', Returns o.interrupts m k m' →
      m'.cpu.memory.read countAddr = some (rounds o argv : Int)) := by
  obtain ⟨hgood, hmutex, hcount⟩ := load_good hmem hload
  obtain ⟨hview, hvalid⟩ := Options.start_view hstart
  have hinv : ∀ s, Reachable threadStep m.view s →
      (p.entryOf o.loadaddr).spec.Invariant (p.entryOf o.loadaddr).known (rounds o argv) s ∧
        Entry.Good o.loadaddr (p.entry o.loadaddr) s.shared := by
    intro s hs
    rw [hview] at hs
    exact Entry.invariant_reachable _ hgood hmutex hcount hzero hs
  constructor
  · intro m' hrun t u ht hu
    have hguards := (hinv _ (hrun.simulates hvalid).1).1.guards
    exact hguards.exclusive (ht.holds (p.entryOf o.loadaddr)) (hu.holds (p.entryOf o.loadaddr))
  · intro k m' hreturns
    obtain ⟨hreach, hdone⟩ := hreturns.simulates hvalid
    obtain ⟨hinvariant, hgood'⟩ := hinv _ hreach
    exact Entry.count_of_allDone hinvariant hgood' hdone

theorem counts_every_round_yield :
    let o : Options :=
      { intfreq := 3, intrand := true, procsched := [], loadaddr := 1000, memsize := 1 }
    let argv : Fin 2 → List (Reg × Int) := fun t => if t = 0 then [(.bx, 3)] else [(.ax, 1)]
    ∃ memory, ∃ m : Machine 2, load SpinProgram.yield.source 1000 (initMemory 1) = some memory ∧
      o.start argv memory 2 = some m ∧
      (∀ m', Run o.interrupts m m' →
        ∀ t u, Entry.Critical 1000 (SpinProgram.yield.entry 1000) m'.view t →
          Entry.Critical 1000 (SpinProgram.yield.entry 1000) m'.view u → t = u) ∧
      (∀ k m', Returns o.interrupts m k m' →
        m'.cpu.memory.read countAddr = some (rounds o argv : Int)) := by
  intro o argv
  obtain ⟨memory, hload⟩ := Option.isSome_iff_exists.mp
    (show (load SpinProgram.yield.source 1000 (initMemory 1)).isSome = true from rfl)
  obtain ⟨m, hstart⟩ := Option.isSome_iff_exists.mp
    (show (o.start argv memory 2).isSome = true from rfl)
  exact ⟨memory, m, hload, hstart,
    counts_every_round .yield o argv (by decide) (by decide) hload hstart⟩

end SpinProgram

end X86
