import HTWGArchive.X86.Assembler
import HTWGArchive.X86.Threads

namespace X86

-- A plain number or a variable as an address.
def direct (a : Int) : Address := ⟨a, .zero, .zero, 1⟩

-- How far a thread has come in a program that lies at `base`.
def point (base : Int) (c : Context) : ℕ :=
  (c.pc - base).toNat

variable {Name : Type} [DecidableEq Name] {lines : List (Line Name)} {base : Int} {m : Memory}
  {is : List Instruction} {i : Instruction} {c : Context} {k : ℕ} {x : Thread × Memory}

theorem point_eq (hpc : c.pc = base + k) : point base c = k := by
  simp [point, hpc]

theorem address_direct (hzero : c.registers .zero = 0) (pc a : Int) :
    ({ c with pc := pc } : Context).address (direct a) = a := by
  simp [Context.address, direct, hzero]

theorem load_reads {memsize : ℕ} {t : Tables Name}
    (ht : scan base Tables.empty base 100 lines = some t) (his : t.instructions lines = some is)
    (h : load lines base (initMemory memsize) = some m) :
    Holds is base m ∧ ∀ a, 0 ≤ a → a < base → a < memsize * 1024 → m.read a = some 0 := by
  obtain ⟨t', ht', hstore⟩ := Option.bind_eq_some_iff.mp h
  rw [ht] at ht'
  obtain rfl := Option.some.inj ht'
  obtain ⟨is', his', hholds⟩ := store_holds hstore
  rw [his] at his'
  obtain rfl := Option.some.inj his'
  refine ⟨hholds, ?_⟩
  intro a hpos hbase hsize
  have hinit : initMemory memsize a = some (.value 0) := if_pos ⟨hpos, hsize⟩
  rw [Memory.read, store_below hstore hbase, hinit]

omit [DecidableEq Name] in
theorem threadStep_of_holds (hcode : Holds is base m) (hpc : c.pc = base + k)
    (hi : is[k]? = some i) :
    threadStep (.running c) m = (execute i ⟨{ c with pc := base + (k + 1 : ℕ) }, m⟩).map fun x =>
      (if x.1 = .halt then .done else .running x.2.context, x.2.memory) := by
  rw [threadStep, hcode.cycle (x := { context := c, memory := m }) hpc hi]

-- A jump to the point `z` is taken or not.
theorem jump_cases {P : Thread × Memory → Prop} {b : Bool} {y z : ℕ}
    (hx : (some (.running ({ c with pc := base + (y : ℕ) }.jumpIf b (base + (z : ℕ))), m) : Option
      (Thread × Memory)) = some x)
    (htaken : b = true → P (.running { c with pc := base + (z : ℕ) }, m))
    (hnot : b = false → P (.running { c with pc := base + (y : ℕ) }, m)) : P x := by
  obtain rfl := Option.some.inj hx
  cases b with
  | true => exact htaken rfl
  | false => exact hnot rfl

-- The sum over the threads of how often each goes round a loop that it leaves once `bx` is used up.
def rounds {n : ℕ} (o : Options) (argv : Fin n → List (Reg × Int)) : ℕ :=
  ∑ t, (max 1 ((o.process argv t).saved.registers .bx)).toNat

end X86
