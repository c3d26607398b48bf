import HTWGArchive.Library.LockedCounter
import HTWGArchive.X86.Programs

namespace X86

open Interleaving

-- The addresses `load` gives to the first two variables.
def mutexAddr : Int := 100

def countAddr : Int := 104

-- The critical section, the release and the loop that three of the programs end with.
def lockTail (top : Int) : List Instruction :=
  [.moveMToR (direct countAddr) .ax, .addIToR 1 .ax, .moveRToM .ax (direct countAddr),
    .moveIToM 0 (direct mutexAddr), .subIToR 1 .bx, .testIR 0 .bx, .jumpGreaterthan top, .halt]

-- One instruction of a way into the critical section: it goes on to the point `k'` and changes at
-- most the mutex.
structure EntryStep (holds : ℕ → Context → Prop) (base : Int) (k : ℕ) (c : Context) (m : Memory)
    (v : Int) (k' : ℕ) (c' : Context) (m' : Memory) (v' : Int) : Prop where
  pc : c'.pc = base + k'
  zero : c'.registers .zero = c.registers .zero
  bx : c'.registers .bx = c.registers .bx
  frame : ∀ a, a ≠ mutexAddr → m' a = m a
  read : m'.read mutexAddr = some v'
  lock : (v = 0 ∧ v' = 1 ∧ ¬ holds k c ∧ holds k' c') ∨ (v' = v ∧ (holds k' c' ↔ holds k c))

-- One instruction of an entry of `b` instructions, with all that `Entry.step` asks for.
def Runs (holds ok : ℕ → Context → Prop) (base : Int) (b k : ℕ) (i : Instruction) (c : Context)
    (m : Memory) (v : Int) : Prop :=
  ∃ sig k' c' m' v', execute i
      { context := { c with pc := base + (k + 1 : ℕ) }, memory := m } =
      some (sig, { context := c', memory := m' }) ∧ sig ≠ .halt ∧ k' ≤ b ∧
    EntryStep holds base k c m v k' c' m' v' ∧ (k' < b → ok k' c')

-- A way into the critical section with what is known at its points.
structure Entry (base : Int) (entry : List Instruction) where
  holds : ℕ → Context → Prop
  ok : ℕ → Context → Prop
  pos : 0 < entry.length
  start : ∀ c, ok 0 c ∧ ¬ holds 0 c
  entered : ∀ c, holds entry.length c
  step : ∀ {k i c m v}, entry[k]? = some i → ok k c → c.registers .zero = 0 →
    m.read mutexAddr = some v → v = 0 ∨ v = 1 → Runs holds ok base entry.length k i c m v

namespace Entry

variable {base : Int} {entry : List Instruction} (e : Entry base entry)

def holdsAt (k : ℕ) (c : Context) : Prop :=
  (k < entry.length ∧ e.holds k c) ∨ (entry.length ≤ k ∧ k < entry.length + 4)

def leftAt (b k : ℕ) (bx : Int) : ℕ :=
  if k < b + 3 then (max 1 bx).toNat
  else if k < b + 5 then (bx - 1).toNat
  else if k < b + 7 then bx.toNat
  else 0

def okAt (k : ℕ) (c : Context) (count : Int) : Prop :=
  (k < entry.length → e.ok k c) ∧
    (k = entry.length + 1 → c.registers .ax = count) ∧
    (k = entry.length + 2 → c.registers .ax = count + 1) ∧
    (k = entry.length + 6 → c.conditions.gt = decide (0 < c.registers .bx))

def spec : LockedCounter.Spec Thread Memory where
  value m := if m.read mutexAddr = some 0 then 1 else 0
  counter m := (m.read countAddr).getD 0
  holds
    | .done => False
    | .running c => e.holdsAt (point base c) c
  left
    | .done => 0
    | .running c => leftAt entry.length (point base c) (c.registers .bx)

def known : Thread → Int → Prop
  | .done, _ => True
  | .running c, count =>
    ∃ k : ℕ, c.pc = base + k ∧ k < entry.length + 8 ∧ c.registers .zero = 0 ∧ e.okAt k c count

structure Good (base : Int) (entry : List Instruction) (m : Memory) : Prop where
  code : Holds (entry ++ lockTail base) base m
  addr : countAddr < base
  mutex : m.read mutexAddr = some 0 ∨ m.read mutexAddr = some 1
  count : ∃ n, m.read countAddr = some n

variable {e} {c c' : Context} {k k' : ℕ} {m m' : Memory} {l : Thread} {n n' : Int}

theorem spec_holds (hpc : c.pc = base + k) : e.spec.holds (.running c) ↔ e.holdsAt k c := by
  rw [← point_eq hpc]
  rfl

theorem spec_left (hpc : c.pc = base + k) :
    e.spec.left (.running c) = leftAt entry.length k (c.registers .bx) := by
  rw [← point_eq hpc]
  rfl

theorem known_stable (h : e.known l n) (hl : ¬ e.spec.holds l) : e.known l n' := by
  cases l with
  | done => trivial
  | running c =>
    obtain ⟨k, hpc, hk, hzero, hentry, hload, hadd, hcond⟩ := h
    have hnot : ¬ (entry.length ≤ k ∧ k < entry.length + 4) := by
      intro hin
      exact hl ((spec_holds hpc).mpr (Or.inr hin))
    refine ⟨k, hpc, hk, hzero, hentry, ?_, ?_, hcond⟩
    · intro heq
      exact absurd ⟨by omega, by omega⟩ hnot
    · intro heq
      exact absurd ⟨by omega, by omega⟩ hnot

theorem Good.frame (h : Good base entry m) (hframe : ∀ a, a ≠ mutexAddr → m' a = m a)
    (hmutex : m'.read mutexAddr = some 0 ∨ m'.read mutexAddr = some 1) : Good base entry m' := by
  have haddr := h.addr
  simp only [countAddr] at haddr
  refine ⟨?_, h.addr, hmutex, ?_⟩
  · intro k i hi
    rw [hframe _ (by simp only [mutexAddr]; omega)]
    exact h.code k i hi
  · obtain ⟨n, hn⟩ := h.count
    refine ⟨n, ?_⟩
    rw [Memory.read, hframe _ (by decide)]
    exact hn

theorem Good.write_count (h : Good base entry m) : Good base entry (m.write countAddr n) := by
  have haddr := h.addr
  refine ⟨h.code.write haddr, haddr, ?_, n, by simp⟩
  rw [Memory.read_write_of_ne (by decide)]
  exact h.mutex

theorem Good.counter (h : Good base entry m) :
    m.read countAddr = some (e.spec.counter m) := by
  obtain ⟨n, hn⟩ := h.count
  rw [hn]
  simp [spec, hn]

theorem counter_frame (hframe : ∀ a, a ≠ mutexAddr → m' a = m a) :
    e.spec.counter m' = e.spec.counter m := by
  simp only [spec, Memory.read]
  rw [hframe _ (by decide)]

theorem holdsAt_entry (hk : k ≤ entry.length) : e.holdsAt k c ↔ e.holds k c := by
  rcases Nat.lt_or_eq_of_le hk with hlt | rfl
  · simp [holdsAt, hlt]
  · simp [holdsAt, e.entered c]

theorem value_of_read {v : Int} (h : m.read mutexAddr = some v) :
    e.spec.value m = if v = 0 then 1 else 0 := by
  simp [spec, h]

-- The points of the entry.
theorem entry_step {x : Thread × Memory} (hm : Good base entry m)
    (hpc : c.pc = base + k) (hk : k < entry.length) (hzero : c.registers .zero = 0)
    (hok : e.ok k c) (hx : threadStep (.running c) m = some x) :
    e.spec.Moves (.running c) m x.1 x.2 ∧ e.known x.1 (e.spec.counter x.2) ∧
      Good base entry x.2 := by
  have hi : entry[k]? = some entry[k] := List.getElem?_eq_getElem hk
  obtain ⟨v, hread, hv⟩ : ∃ v, m.read mutexAddr = some v ∧ (v = 0 ∨ v = 1) := by
    rcases hm.mutex with h | h
    · exact ⟨0, h, Or.inl rfl⟩
    · exact ⟨1, h, Or.inr rfl⟩
  obtain ⟨sig, k', c', m', v', hexec, hsig, hk', hstep, hok'⟩ := e.step hi hok hzero hread hv
  have hcycle := hm.code.cycle (x := { context := c, memory := m }) hpc
    ((List.getElem?_append_left hk).trans hi)
  obtain rfl : (Thread.running c', m') = x := by
    have hthread : threadStep (.running c) m = some (.running c', m') := by
      rw [threadStep, hcycle, hexec]
      simp [hsig]
    exact Option.some.inj (hthread.symm.trans hx)
  have hcounter := counter_frame (e := e) hstep.frame
  refine ⟨⟨?_, ?_, fun _ => hcounter⟩, ?_, ?_⟩
  · have hbefore := (spec_holds (e := e) hpc).trans (holdsAt_entry (Nat.le_of_lt hk))
    have hafter := (spec_holds (e := e) hstep.pc).trans (holdsAt_entry hk')
    rw [value_of_read hread, value_of_read hstep.read]
    rcases hstep.lock with ⟨rfl, rfl, -, hholds⟩ | ⟨rfl, hsame⟩
    · exact Or.inl ⟨rfl, hafter.mpr hholds⟩
    · exact Or.inr (Or.inr ⟨rfl, hafter.trans (hsame.trans hbefore.symm)⟩)
  · rw [hcounter, spec_left hpc, spec_left hstep.pc, hstep.bx]
    simp [leftAt, Nat.lt_of_lt_of_le hk (Nat.le_add_right _ _), Nat.lt_of_le_of_lt hk'
      (Nat.lt_add_of_pos_right (n := entry.length) (k := 3) (by decide))]
  · refine ⟨k', hstep.pc, by omega, hstep.zero.trans hzero, hok', ?_, ?_, ?_⟩
    · intro heq
      omega
    · intro heq
      omega
    · intro heq
      omega
  · refine hm.frame hstep.frame ?_
    rcases hstep.lock with ⟨-, rfl, -⟩ | ⟨rfl, -⟩
    · exact Or.inr hstep.read
    · rcases hv with rfl | rfl
      · exact Or.inl hstep.read
      · exact Or.inr hstep.read

-- What the instructions of the tail do, from the point `b + j`.
inductive TailMove (base : Int) (b : ℕ) (c : Context) (m : Memory) : ℕ → Thread × Memory → Prop where
  | load {n : Int} : m.read countAddr = some n →
      TailMove base b c m 0 (.running ({ c with pc := base + (b + 1 : ℕ) }.setReg .ax n), m)
  | add : TailMove base b c m 1
      (.running ({ c with pc := base + (b + 2 : ℕ) }.setReg .ax (c.registers .ax + 1)), m)
  | storeCount : TailMove base b c m 2
      (.running { c with pc := base + (b + 3 : ℕ) }, m.write countAddr (c.registers .ax))
  | release : TailMove base b c m 3
      (.running { c with pc := base + (b + 4 : ℕ) }, m.write mutexAddr 0)
  | sub : TailMove base b c m 4
      (.running ({ c with pc := base + (b + 5 : ℕ) }.setReg .bx (c.registers .bx - 1)), m)
  | test : TailMove base b c m 5
      (.running ({ c with pc := base + (b + 6 : ℕ) }.setConditions
        (testAll 0 (c.registers .bx))), m)
  | again : c.conditions.gt = true → TailMove base b c m 6 (.running { c with pc := base }, m)
  | leave : c.conditions.gt = false →
      TailMove base b c m 6 (.running { c with pc := base + (b + 7 : ℕ) }, m)
  | halt : TailMove base b c m 7 (.done, m)

theorem tail_move {j : ℕ} {x : Thread × Memory} (hm : Good base entry m)
    (hpc : c.pc = base + (entry.length + j : ℕ)) (hj : j < 8) (hzero : c.registers .zero = 0)
    (hx : threadStep (.running c) m = some x) : TailMove base entry.length c m j x := by
  have hcycle : ∀ i, (lockTail base)[j]? = some i →
      threadStep (.running c) m =
        (execute i ⟨{ c with pc := base + (entry.length + j + 1 : ℕ) }, m⟩).map fun x =>
          (if x.1 = .halt then .done else .running x.2.context, x.2.memory) := by
    intro i hi
    refine threadStep_of_holds hm.code hpc ?_
    rw [List.getElem?_append_right (Nat.le_add_right _ _), Nat.add_sub_cancel_left, hi]
  have hcases : j = 0 ∨ j = 1 ∨ j = 2 ∨ j = 3 ∨ j = 4 ∨ j = 5 ∨ j = 6 ∨ j = 7 := by omega
  rcases hcases with rfl | rfl | rfl | rfl | rfl | rfl | rfl | rfl
  · rw [hcycle _ rfl, execute, address_direct hzero] at hx
    obtain ⟨y, hy, rfl⟩ := Option.map_eq_some_iff.mp hx
    obtain ⟨n, hn, rfl⟩ := Option.map_eq_some_iff.mp hy
    exact TailMove.load hn
  · obtain rfl := Option.some.inj ((hcycle _ rfl).symm.trans hx)
    exact TailMove.add
  · rw [hcycle _ rfl, execute, address_direct hzero] at hx
    obtain rfl := Option.some.inj hx
    exact TailMove.storeCount
  · rw [hcycle _ rfl, execute, address_direct hzero] at hx
    obtain rfl := Option.some.inj hx
    exact TailMove.release
  · obtain rfl := Option.some.inj ((hcycle _ rfl).symm.trans hx)
    exact TailMove.sub
  · obtain rfl := Option.some.inj ((hcycle _ rfl).symm.trans hx)
    exact TailMove.test
  · rw [hcycle _ rfl, execute] at hx
    obtain rfl := Option.some.inj hx
    cases hgt : c.conditions.gt with
    | true => exact TailMove.again hgt
    | false => exact TailMove.leave hgt
  · obtain rfl := Option.some.inj ((hcycle _ rfl).symm.trans hx)
    exact TailMove.halt

theorem holdsAt_tail {j : ℕ} : e.holdsAt (entry.length + j) c ↔ j < 4 := by
  unfold holdsAt
  omega

theorem known_tail {j : ℕ} (hpc : c.pc = base + (entry.length + j : ℕ)) (hj : j < 8)
    (hzero : c.registers .zero = 0) (hload : j = 1 → c.registers .ax = n)
    (hadd : j = 2 → c.registers .ax = n + 1)
    (hcond : j = 6 → c.conditions.gt = decide (0 < c.registers .bx)) :
    e.known (.running c) n := by
  refine ⟨_, hpc, by omega, hzero, ?_, ?_, ?_, ?_⟩
  · intro hlt
    omega
  · exact fun heq => hload (by omega)
  · exact fun heq => hadd (by omega)
  · exact fun heq => hcond (by omega)

-- The points from the critical section on.
theorem tail_step {j : ℕ} {x : Thread × Memory} (hm : Good base entry m)
    (hpc : c.pc = base + (entry.length + j : ℕ)) (hj : j < 8) (hzero : c.registers .zero = 0)
    (hok : e.okAt (entry.length + j) c (e.spec.counter m))
    (htaken : e.spec.holds (.running c) → e.spec.value m = 0)
    (hx : threadStep (.running c) m = some x) :
    e.spec.Moves (.running c) m x.1 x.2 ∧ e.known x.1 (e.spec.counter x.2) ∧
      Good base entry x.2 := by
  have hmove := tail_move hm hpc hj hzero hx
  have hholds := (spec_holds (e := e) hpc).trans holdsAt_tail
  cases hmove with
  | @load n hn =>
    have hcount : n = e.spec.counter m := Option.some.inj (hn.symm.trans hm.counter)
    refine ⟨⟨Or.inr (Or.inr ⟨rfl, ?_⟩), ?_, fun _ => rfl⟩, ?_, hm⟩
    · rw [hholds, spec_holds (k := entry.length + 1) rfl, holdsAt_tail]
      decide
    · rw [spec_left hpc, spec_left (k := entry.length + 1) rfl]
      simp [leftAt, Context.setReg]
    · refine known_tail (j := 1) rfl (by decide) (by simpa [Context.setReg] using hzero) ?_ ?_ ?_
      · exact fun _ => by simp [Context.setReg, hcount]
      · exact fun h => absurd h (by decide)
      · exact fun h => absurd h (by decide)
  | add =>
    have hload := hok.2.1 rfl
    refine ⟨⟨Or.inr (Or.inr ⟨rfl, ?_⟩), ?_, fun _ => rfl⟩, ?_, hm⟩
    · rw [hholds, spec_holds (k := entry.length + 2) rfl, holdsAt_tail]
      decide
    · rw [spec_left hpc, spec_left (k := entry.length + 2) rfl]
      simp [leftAt, Context.setReg]
    · refine known_tail (j := 2) rfl (by decide) (by simpa [Context.setReg] using hzero) ?_ ?_ ?_
      · exact fun h => absurd h (by decide)
      · exact fun _ => by simp [Context.setReg, hload]
      · exact fun h => absurd h (by decide)
  | storeCount =>
    have hadd := hok.2.2.1 rfl
    have hvalue : e.spec.value (m.write countAddr (c.registers .ax)) = e.spec.value m := by
      simp only [spec]
      rw [Memory.read_write_of_ne (by decide)]
    have hcount : e.spec.counter (m.write countAddr (c.registers .ax)) = e.spec.counter m + 1 := by
      simp only [spec, Memory.read_write_self, Option.getD_some]
      exact hadd
    refine ⟨⟨Or.inr (Or.inr ⟨hvalue, ?_⟩), ?_, ?_⟩, ?_, hm.write_count⟩
    · rw [hholds, spec_holds (k := entry.length + 3) rfl, holdsAt_tail]
      decide
    · rw [hcount, spec_left hpc, spec_left (k := entry.length + 3) rfl]
      simp only [leftAt]
      split_ifs <;> omega
    · intro hnot
      exact absurd (hholds.mpr (by decide)) hnot
    · refine known_tail (j := 3) rfl (by decide) hzero ?_ ?_ ?_
      · exact fun h => absurd h (by decide)
      · exact fun h => absurd h (by decide)
      · exact fun h => absurd h (by decide)
  | release =>
    have hcount : e.spec.counter (m.write mutexAddr 0) = e.spec.counter m :=
      counter_frame fun a ha => Memory.write_of_ne ha
    have hvalue : e.spec.value (m.write mutexAddr 0) = Semaphore.post (e.spec.value m) := by
      rw [htaken (hholds.mpr (by decide)), value_of_read Memory.read_write_self]
      rfl
    refine ⟨⟨Or.inr (Or.inl ⟨hvalue, hholds.mpr (by decide), ?_⟩), ?_, fun _ => hcount⟩, ?_, ?_⟩
    · rw [spec_holds (k := entry.length + 4) rfl, holdsAt_tail]
      decide
    · rw [hcount, spec_left hpc, spec_left (k := entry.length + 4) rfl]
      simp [leftAt]
    · refine known_tail (j := 4) rfl (by decide) hzero ?_ ?_ ?_
      · exact fun h => absurd h (by decide)
      · exact fun h => absurd h (by decide)
      · exact fun h => absurd h (by decide)
    · exact hm.frame (fun a ha => Memory.write_of_ne ha) (Or.inl Memory.read_write_self)
  | sub =>
    refine ⟨⟨Or.inr (Or.inr ⟨rfl, ?_⟩), ?_, fun _ => rfl⟩, ?_, hm⟩
    · rw [hholds, spec_holds (k := entry.length + 5) rfl, holdsAt_tail]
      decide
    · rw [spec_left hpc, spec_left (k := entry.length + 5) rfl]
      simp [leftAt, Context.setReg]
    · refine known_tail (j := 5) rfl (by decide) (by simpa [Context.setReg] using hzero) ?_ ?_ ?_
      · exact fun h => absurd h (by decide)
      · exact fun h => absurd h (by decide)
      · exact fun h => absurd h (by decide)
  | test =>
    refine ⟨⟨Or.inr (Or.inr ⟨rfl, ?_⟩), ?_, fun _ => rfl⟩, ?_, hm⟩
    · rw [hholds, spec_holds (k := entry.length + 6) rfl, holdsAt_tail]
      decide
    · rw [spec_left hpc, spec_left (k := entry.length + 6) rfl]
      simp [leftAt, Context.setConditions]
    · refine known_tail (j := 6) rfl (by decide) hzero ?_ ?_ ?_
      · exact fun h => absurd h (by decide)
      · exact fun h => absurd h (by decide)
      · exact fun _ => rfl
  | again hgt =>
    have hbx : 0 < c.registers .bx := by
      have hcond := hok.2.2.2 rfl
      rw [hgt] at hcond
      exact of_decide_eq_true hcond.symm
    have hstart := e.start { c with pc := base }
    have hpc' : ({ c with pc := base } : Context).pc = base + (0 : ℕ) := by simp
    refine ⟨⟨Or.inr (Or.inr ⟨rfl, ?_⟩), ?_, fun _ => rfl⟩, ?_, hm⟩
    · rw [hholds, spec_holds hpc', holdsAt_entry (Nat.zero_le _)]
      exact iff_of_false hstart.2 (by decide)
    · rw [spec_left hpc, spec_left hpc']
      simp only [leftAt]
      split_ifs <;> omega
    · refine ⟨0, hpc', by omega, hzero, fun _ => hstart.1, ?_, ?_, ?_⟩
      · exact fun h => absurd h (by omega)
      · exact fun h => absurd h (by omega)
      · exact fun h => absurd h (by omega)
  | leave hgt =>
    have hbx : ¬ 0 < c.registers .bx := by
      have hcond := hok.2.2.2 rfl
      rw [hgt] at hcond
      exact of_decide_eq_false hcond.symm
    refine ⟨⟨Or.inr (Or.inr ⟨rfl, ?_⟩), ?_, fun _ => rfl⟩, ?_, hm⟩
    · rw [hholds, spec_holds (k := entry.length + 7) rfl, holdsAt_tail]
      decide
    · rw [spec_left hpc, spec_left (k := entry.length + 7) rfl]
      simp only [leftAt]
      split_ifs <;> omega
    · refine known_tail (j := 7) rfl (by decide) hzero ?_ ?_ ?_
      · exact fun h => absurd h (by decide)
      · exact fun h => absurd h (by decide)
      · exact fun h => absurd h (by decide)
  | halt =>
    refine ⟨⟨Or.inr (Or.inr ⟨rfl, ?_⟩), ?_, fun _ => rfl⟩, trivial, hm⟩
    · exact iff_of_false id (fun h => absurd (hholds.mp h) (by decide))
    · rw [spec_left hpc]
      simp [leftAt, spec]

theorem thread_step {x : Thread × Memory} (hm : Good base entry m)
    (hl : e.known l (e.spec.counter m)) (htaken : e.spec.holds l → e.spec.value m = 0)
    (hx : threadStep l m = some x) :
    e.spec.Moves l m x.1 x.2 ∧ e.known x.1 (e.spec.counter x.2) ∧ Good base entry x.2 := by
  cases l with
  | done => cases hx
  | running c =>
    obtain ⟨k, hpc, hk, hzero, hok⟩ := hl
    rcases Nat.lt_or_ge k entry.length with hlt | hge
    · exact entry_step hm hpc hlt hzero (hok.1 hlt) hx
    · obtain ⟨j, rfl⟩ := Nat.exists_eq_add_of_le hge
      exact tail_step hm hpc (by omega) hzero hok htaken hx

section Start

variable {n : ℕ} {o : Options} {argv : Fin n → List (Reg × Int)} {memory : Memory} {s : Threads n}

theorem invariant_start {entry : List Instruction} (e : Entry o.loadaddr entry)
    (hmutex : memory.read mutexAddr = some 0) (hcount : memory.read countAddr = some 0)
    (hzero : ∀ t, ∀ x ∈ argv t, x.1 ≠ .zero) :
    e.spec.Invariant e.known (rounds o argv) (o.threads argv memory) := by
  have hpc : ∀ t, (o.process argv t).saved.pc = o.loadaddr + (0 : ℕ) := by
    intro t
    simp [Options.process]
  have hcounter : e.spec.counter memory = 0 := by simp [spec, hcount]
  refine ⟨Or.inl ⟨by simp [spec, Options.threads, hmutex], ?_⟩, ?_, ?_⟩
  · intro t ht
    exact (e.start _).2 ((holdsAt_entry (Nat.zero_le _)).mp ((spec_holds (hpc t)).mp ht))
  · intro t
    refine ⟨0, hpc t, by omega, Options.process_zero (hzero t), fun _ => (e.start _).1, ?_, ?_, ?_⟩
    · exact fun h => absurd h (by omega)
    · exact fun h => absurd h (by omega)
    · exact fun h => absurd h (by omega)
  · have hleft : ∀ t, e.spec.left ((o.threads argv memory).locals t) =
        (max 1 ((o.process argv t).saved.registers .bx)).toNat := by
      intro t
      rw [Options.threads, spec_left (hpc t)]
      simp [leftAt]
    simp only [hleft, rounds]
    rw [show (o.threads argv memory).shared = memory from rfl, hcounter, Int.zero_add]

theorem invariant_reachable {entry : List Instruction} (e : Entry o.loadaddr entry)
    (hgood : Good o.loadaddr entry memory) (hmutex : memory.read mutexAddr = some 0)
    (hcount : memory.read countAddr = some 0) (hzero : ∀ t, ∀ x ∈ argv t, x.1 ≠ .zero)
    (h : Reachable threadStep (o.threads argv memory) s) :
    e.spec.Invariant e.known (rounds o argv) s ∧ Good o.loadaddr entry s.shared :=
  LockedCounter.Spec.invariant_reachable (invariant_start e hmutex hcount hzero) hgood
    (fun _ _ _ => known_stable) (fun _ _ _ hm hl htaken hx => thread_step hm hl htaken hx) h

-- The next instruction of `t` belongs to the critical section or to the release.
def Critical (base : Int) (entry : List Instruction) (s : Threads n) (t : Fin n) : Prop :=
  ∃ c, s.locals t = .running c ∧ base + entry.length ≤ c.pc ∧ c.pc < base + entry.length + 4

theorem Critical.holds {base : Int} {entry : List Instruction} (e : Entry base entry)
    {t : Fin n} (h : Critical base entry s t) : e.spec.holds (s.locals t) := by
  obtain ⟨c, hc, hge, hlt⟩ := h
  obtain ⟨j, hj⟩ := Int.eq_ofNat_of_zero_le (a := c.pc - base - entry.length) (by omega)
  have hpc : c.pc = base + (entry.length + j : ℕ) := by
    push_cast
    omega
  rw [hc]
  exact (spec_holds hpc).mpr (holdsAt_tail.mpr (by omega))

theorem count_of_allDone {base : Int} {entry : List Instruction} {e : Entry base entry}
    {total : Int} (h : e.spec.Invariant e.known total s) (hgood : Good base entry s.shared)
    (hdone : AllDone s) : s.shared.read countAddr = some total := by
  have hzero : ∑ t, e.spec.left (s.locals t) = 0 :=
    Finset.sum_eq_zero fun t _ => by rw [hdone t]; rfl
  have hbalance := h.balance
  rw [hzero] at hbalance
  rw [hgood.counter (e := e), ← hbalance]
  simp

end Start

end Entry

end X86
