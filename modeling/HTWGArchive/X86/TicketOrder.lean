import HTWGArchive.X86.TicketLock

namespace X86.TicketLock

open Interleaving
open TicketQueue (Phase)

def phaseAt (k : ℕ) (c : Context) : Phase :=
  if 2 ≤ k ∧ k ≤ 4 then .waiting (c.registers .ax).toNat
  else if 5 ≤ k ∧ k ≤ 9 then .serving
  else .outside

def phase (base : Int) : Thread → Phase
  | .done => .outside
  | .running c => phaseAt (point base c) c

def leftAt (k : ℕ) (bx : Int) : ℕ :=
  if k < 8 then (max 1 bx).toNat
  else if k < 11 then (bx - 1).toNat
  else if k < 13 then bx.toNat
  else 0

def left (base : Int) : Thread → ℕ
  | .done => 0
  | .running c => leftAt (point base c) (c.registers .bx)

-- What a thread knows at the point `k` when `turn` and `count` are in the memory.
def Fact (c : Context) (turn : ℕ) (count : Int) : ℕ → Prop
  | 1 => c.registers .ax = 1
  | 2 => 0 ≤ c.registers .ax
  | 3 => 0 ≤ c.registers .ax ∧ c.registers .cx ≤ turn
  | 4 => 0 ≤ c.registers .ax ∧ c.registers .cx ≤ turn ∧
      c.conditions.neq = decide (c.registers .ax ≠ c.registers .cx)
  | 6 => c.registers .ax = count
  | 7 => c.registers .ax = count + 1
  | 9 => c.registers .ax = 1
  | 12 => c.conditions.gt = decide (0 < c.registers .bx)
  | _ => True

def known (base : Int) (turn : ℕ) (count : Int) : Thread → Prop
  | .done => True
  | .running c => ∃ k : ℕ, c.pc = base + k ∧ k < 14 ∧ c.registers .zero = 0 ∧ Fact c turn count k

variable {n : ℕ}

structure Inv (base total : Int) (ticket turn : ℕ) (count : Int) (grabs entries : List (Fin n))
    (s : Threads n) : Prop where
  code : Holds (code base) base s.shared
  addr : countAddr < base
  readTicket : s.shared.read ticketAddr = some (ticket : Int)
  readTurn : s.shared.read turnAddr = some (turn : Int)
  readCount : s.shared.read countAddr = some count
  queue : TicketQueue.Inv (fun t => phase base (s.locals t)) ticket turn grabs entries
  knows : ∀ t, known base turn count (s.locals t)
  balance : count + ((∑ t, left base (s.locals t) : ℕ) : Int) = total

variable {base total count : Int} {ticket turn k : ℕ} {grabs entries : List (Fin n)}
  {s : Threads n} {c : Context} {t : Fin n} {l : Thread} {m : Memory}

theorem phase_eq (hpc : c.pc = base + k) : phase base (.running c) = phaseAt k c := by
  rw [← point_eq hpc]
  rfl

theorem left_eq (hpc : c.pc = base + k) :
    left base (.running c) = leftAt k (c.registers .bx) := by
  rw [← point_eq hpc]
  rfl

theorem Fact.mono {turn' : ℕ} (hturn : turn ≤ turn') (h : Fact c turn count k) :
    Fact c turn' count k := by
  have hle : (turn : Int) ≤ turn' := by omega
  unfold Fact at h ⊢
  split at h
  · exact h
  · exact h
  · exact ⟨h.1, h.2.trans hle⟩
  · exact ⟨h.1, h.2.1.trans hle, h.2.2⟩
  all_goals exact h

-- Only the thread that is served knows something about the counter.
theorem Fact.of_count {count' : Int} (h : Fact c turn count k) (hk : k < 5 ∨ 9 < k) :
    Fact c turn count' k := by
  unfold Fact at h ⊢
  split at h
  · exact h
  · exact h
  · exact h
  · exact h
  · omega
  · omega
  all_goals exact h

theorem known_mono {turn' : ℕ} (hturn : turn ≤ turn') (h : known base turn count l) :
    known base turn' count l := by
  cases l with
  | done => trivial
  | running c =>
    obtain ⟨k, hpc, hk, hzero, hfact⟩ := h
    exact ⟨k, hpc, hk, hzero, hfact.mono hturn⟩

theorem known_count {count' : Int} (h : known base turn count l) (hl : phase base l ≠ .serving) :
    known base turn count' l := by
  cases l with
  | done => trivial
  | running c =>
    obtain ⟨k, hpc, hk, hzero, hfact⟩ := h
    refine ⟨k, hpc, hk, hzero, hfact.of_count ?_⟩
    by_contra hin
    rw [phase_eq hpc, phaseAt, if_neg (by omega), if_pos (by omega)] at hl
    exact hl rfl

theorem locals_update (s : Threads n) (t : Fin n) (l : Thread) (m : Memory) (base : Int) :
    (fun u => phase base ((s.set t (l, m)).locals u)) =
      Function.update (fun u => phase base (s.locals u)) t (phase base l) := by
  funext u
  rcases eq_or_ne u t with rfl | hne
  · simp
  · rw [State.set_locals_of_ne s hne, Function.update_of_ne hne]

-- A step that changes the memory at one address of the three.
theorem Inv.advance {ticket' turn' : ℕ} {count' : Int} {grabs' entries' : List (Fin n)}
    (h : Inv base total ticket turn count grabs entries s)
    (hcode : Holds (X86.TicketLock.code base) base m)
    (hticket : m.read ticketAddr = some (ticket' : Int))
    (hturn : m.read turnAddr = some (turn' : Int)) (hcount : m.read countAddr = some count')
    (hqueue : TicketQueue.Inv
      (Function.update (fun u => phase base (s.locals u)) t (phase base l)) ticket' turn' grabs'
      entries')
    (hknown : known base turn' count' l)
    (hother : ∀ u, u ≠ t → known base turn' count' (s.locals u))
    (hleft : count' + left base l = count + left base (s.locals t)) :
    Inv base total ticket' turn' count' grabs' entries' (s.set t (l, m)) := by
  refine ⟨hcode, h.addr, hticket, hturn, hcount, ?_, ?_, ?_⟩
  · rw [locals_update]
    exact hqueue
  · intro u
    rcases eq_or_ne u t with rfl | hne
    · rw [State.set_locals_self]
      exact hknown
    · rw [State.set_locals_of_ne s hne]
      exact hother u hne
  · have hsum := ThreadSums.sum_update (left base) s.locals t l
    have hbefore := h.balance
    simp only [State.set]
    omega

-- A step that leaves the memory and the queue as they are.
theorem Inv.quiet (h : Inv base total ticket turn count grabs entries s)
    (hphase : phase base l = phase base (s.locals t))
    (hleft : left base l = left base (s.locals t)) (hknown : known base turn count l) :
    Inv base total ticket turn count grabs entries (s.set t (l, s.shared)) :=
  h.advance h.code h.readTicket h.readTurn h.readCount (h.queue.keep hphase) hknown
    (fun u _ => h.knows u)
    (by rw [hleft])

inductive Event (n : ℕ) where
  | grab (t : Fin n)
  | enter (t : Fin n)
  | other
  deriving DecidableEq, Repr

-- `fetchadd` on the ticket, and the jump that is not taken.
def event (base : Int) (t : Fin n) : Thread → Event n
  | .done => .other
  | .running c =>
    if point base c = 1 then .grab t
    else if point base c = 4 ∧ c.conditions.neq = false then .enter t
    else .other

def Event.grabbed : Event n → List (Fin n)
  | .grab t => [t]
  | _ => []

def Event.entered : Event n → List (Fin n)
  | .enter t => [t]
  | _ => []

-- The invariant with what the event has added.
def After (base total : Int) (grabs entries : List (Fin n)) (e : Event n) (s : Threads n) : Prop :=
  ∃ ticket turn count,
    Inv base total ticket turn count (grabs ++ e.grabbed) (entries ++ e.entered) s

theorem Inv.after (h : Inv base total ticket turn count grabs entries s) :
    After base total grabs entries .other s :=
  ⟨ticket, turn, count, by simpa [Event.grabbed, Event.entered] using h⟩

theorem event_eq (hpc : c.pc = base + k) :
    event base t (.running c) =
      if k = 1 then .grab t else if k = 4 ∧ c.conditions.neq = false then .enter t else .other := by
  rw [← point_eq hpc]
  rfl

-- The memory and the phase stay as they are.
theorem Inv.running (h : Inv base total ticket turn count grabs entries s)
    (hl : s.locals t = .running c) (hpc : c.pc = base + k) (k' : ℕ) {c' : Context}
    (hpc' : c'.pc = base + k') (hk' : k' < 14) (hzero : c'.registers .zero = 0)
    (hphase : phaseAt k' c' = phaseAt k c)
    (hleft : leftAt k' (c'.registers .bx) = leftAt k (c.registers .bx))
    (hfact : Fact c' turn count k') :
    After base total grabs entries .other (s.set t (.running c', s.shared)) := by
  have hknown : known base turn count (.running c') := ⟨k', hpc', hk', hzero, hfact⟩
  refine (h.quiet ?_ ?_ hknown).after
  · rw [hl, phase_eq hpc, phase_eq hpc', hphase]
  · rw [hl, left_eq hpc, left_eq hpc', hleft]

theorem Inv.grab (h : Inv base total ticket turn count grabs entries s)
    (hl : s.locals t = .running c) (hpc : c.pc = base + (1 : ℕ)) (hzero : c.registers .zero = 0)
    (hax : c.registers .ax = 1) :
    After base total grabs entries (.grab t)
      (s.set t (.running ({ c with pc := base + (2 : ℕ) }.setReg .ax ticket),
        s.shared.write ticketAddr (ticket + c.registers .ax))) := by
  have haddr := h.addr
  simp only [countAddr] at haddr
  have hphase : phase base (s.locals t) = .outside := by
    rw [hl, phase_eq hpc]
    rfl
  have hwaiting : phase base
      (.running ({ c with pc := base + (2 : ℕ) }.setReg .ax ticket)) = .waiting ticket := by
    rw [phase_eq (k := 2) rfl]
    simp [phaseAt, Context.setReg]
  have hqueue := h.queue.grab hphase
  rw [← hwaiting] at hqueue
  refine ⟨ticket + 1, turn, count, ?_⟩
  rw [show Event.entered (.grab t) = [] from rfl, List.append_nil]
  refine h.advance (h.code.write (by simp only [ticketAddr]; omega)) ?_ ?_ ?_ hqueue
    ⟨2, rfl, by decide, ?_, ?_⟩ (fun u _ => h.knows u) ?_
  · rw [Memory.read_write_self, hax]
    rfl
  · rw [Memory.read_write_of_ne (by decide)]
    exact h.readTurn
  · rw [Memory.read_write_of_ne (by decide)]
    exact h.readCount
  · simpa [Context.setReg] using hzero
  · simp [Fact, Context.setReg]
  · rw [hl, left_eq hpc, left_eq (k := 2) rfl]
    simp [leftAt, Context.setReg]

theorem Inv.enter (h : Inv base total ticket turn count grabs entries s)
    (hl : s.locals t = .running c) (hpc : c.pc = base + (4 : ℕ)) (hzero : c.registers .zero = 0)
    (hfact : Fact c turn count 4) (hneq : c.conditions.neq = false) :
    After base total grabs entries (.enter t)
      (s.set t (.running { c with pc := base + (5 : ℕ) }, s.shared)) := by
  obtain ⟨hpos, hlooked, hcompared⟩ := hfact
  have heq : c.registers .ax = c.registers .cx := by
    rw [hneq] at hcompared
    simpa using hcompared.symm
  have hphase : phase base (s.locals t) = .waiting (c.registers .ax).toNat := by
    rw [hl, phase_eq hpc]
    rfl
  have hserving : phase base (.running { c with pc := base + (5 : ℕ) }) = .serving := by
    rw [phase_eq (k := 5) rfl]
    rfl
  have hqueue := h.queue.enter hphase (by omega)
  rw [← hserving] at hqueue
  refine ⟨ticket, turn, count, ?_⟩
  rw [show Event.grabbed (.enter t) = [] from rfl, List.append_nil]
  refine h.advance h.code h.readTicket h.readTurn h.readCount hqueue
    ⟨5, rfl, by decide, hzero, trivial⟩ (fun u _ => h.knows u) ?_
  rw [hl, left_eq hpc, left_eq (k := 5) rfl]
  rfl

theorem Inv.storeCount (h : Inv base total ticket turn count grabs entries s)
    (hl : s.locals t = .running c) (hpc : c.pc = base + (7 : ℕ)) (hzero : c.registers .zero = 0)
    (hax : c.registers .ax = count + 1) :
    After base total grabs entries .other
      (s.set t (.running { c with pc := base + (8 : ℕ) },
        s.shared.write countAddr (c.registers .ax))) := by
  have hserving : phase base (s.locals t) = .serving := by
    rw [hl, phase_eq hpc]
    rfl
  have hsame : phase base (.running { c with pc := base + (8 : ℕ) }) = phase base (s.locals t) := by
    rw [hserving, phase_eq (k := 8) rfl]
    rfl
  have hinv : Inv base total ticket turn (count + 1) grabs entries
      (s.set t (.running { c with pc := base + (8 : ℕ) },
        s.shared.write countAddr (c.registers .ax))) := by
    refine h.advance (h.code.write h.addr) ?_ ?_ ?_ (h.queue.keep hsame)
      ⟨8, rfl, by decide, hzero, trivial⟩ ?_ ?_
    · rw [Memory.read_write_of_ne (by decide)]
      exact h.readTicket
    · rw [Memory.read_write_of_ne (by decide)]
      exact h.readTurn
    · rw [Memory.read_write_self, hax]
    · intro u hne
      exact known_count (h.knows u) fun hu => hne (h.queue.exclusive hu hserving)
    · rw [hl, left_eq hpc, left_eq (k := 8) rfl]
      simp only [leftAt]
      split_ifs <;> omega
  exact hinv.after

theorem Inv.release (h : Inv base total ticket turn count grabs entries s)
    (hl : s.locals t = .running c) (hpc : c.pc = base + (9 : ℕ)) (hzero : c.registers .zero = 0)
    (hax : c.registers .ax = 1) :
    After base total grabs entries .other
      (s.set t (.running ({ c with pc := base + (10 : ℕ) }.setReg .ax turn),
        s.shared.write turnAddr (turn + c.registers .ax))) := by
  have haddr := h.addr
  simp only [countAddr] at haddr
  have hserving : phase base (s.locals t) = .serving := by
    rw [hl, phase_eq hpc]
    rfl
  have houtside : phase base
      (.running ({ c with pc := base + (10 : ℕ) }.setReg .ax turn)) = .outside := by
    rw [phase_eq (k := 10) rfl]
    rfl
  have hqueue := h.queue.release hserving
  rw [← houtside] at hqueue
  have hinv : Inv base total ticket (turn + 1) count grabs entries
      (s.set t (.running ({ c with pc := base + (10 : ℕ) }.setReg .ax turn),
        s.shared.write turnAddr (turn + c.registers .ax))) := by
    refine h.advance (h.code.write (by simp only [turnAddr]; omega)) ?_ ?_ ?_ hqueue
      ⟨10, rfl, by decide, by simpa [Context.setReg] using hzero, trivial⟩
      (fun u _ => known_mono (Nat.le_succ turn) (h.knows u)) ?_
    · rw [Memory.read_write_of_ne (by decide)]
      exact h.readTicket
    · rw [Memory.read_write_self, hax]
      rfl
    · rw [Memory.read_write_of_ne (by decide)]
      exact h.readCount
    · rw [hl, left_eq hpc, left_eq (k := 10) rfl]
      simp [leftAt, Context.setReg]
  exact hinv.after

theorem Inv.step {x : Thread × Memory} (h : Inv base total ticket turn count grabs entries s)
    (hx : threadStep (s.locals t) s.shared = some x) :
    After base total grabs entries (event base t (s.locals t)) (s.set t x) := by
  cases hl : s.locals t with
  | done =>
    rw [hl] at hx
    cases hx
  | running c =>
    have hknown := h.knows t
    rw [hl] at hx hknown
    obtain ⟨k, hpc, hk, hzero, hfact⟩ := hknown
    rw [event_eq hpc]
    cases effect_of_step h.code hpc hk hzero hx with
    | one =>
      exact h.running hl hpc 1 rfl (by decide) (by simpa [Context.setReg] using hzero) rfl
        (by simp [leftAt, Context.setReg]) (by simp [Fact, Context.setReg])
    | grab hticket =>
      rw [h.readTicket] at hticket
      obtain rfl := Option.some.inj hticket
      exact h.grab hl hpc hzero hfact
    | look hturn =>
      rw [h.readTurn] at hturn
      obtain rfl := Option.some.inj hturn
      refine h.running hl hpc 3 rfl (by decide) (by simpa [Context.setReg] using hzero) ?_ ?_ ?_
      · simp [phaseAt, Context.setReg]
      · simp [leftAt, Context.setReg]
      · have hax : 0 ≤ c.registers .ax := hfact
        exact ⟨by simpa [Context.setReg] using hax, by simp [Context.setReg]⟩
    | compare =>
      exact h.running hl hpc 4 rfl (by decide) hzero rfl rfl ⟨hfact.1, hfact.2, rfl⟩
    | spin hneq =>
      rw [if_neg (by decide), if_neg (by simp [hneq])]
      exact h.running hl hpc 2 rfl (by decide) hzero rfl rfl hfact.1
    | enter hneq =>
      rw [if_neg (by decide), if_pos ⟨rfl, hneq⟩]
      exact h.enter hl hpc hzero hfact hneq
    | loadCount hcount =>
      rw [h.readCount] at hcount
      obtain rfl := Option.some.inj hcount
      exact h.running hl hpc 6 rfl (by decide) (by simpa [Context.setReg] using hzero) rfl
        (by simp [leftAt, Context.setReg]) (by simp [Fact, Context.setReg])
    | add =>
      have hadd : c.registers .ax = count := hfact
      exact h.running hl hpc 7 rfl (by decide) (by simpa [Context.setReg] using hzero) rfl
        (by simp [leftAt, Context.setReg]) (by simp [Fact, Context.setReg, hadd])
    | storeCount => exact (h.storeCount hl hpc hzero hfact)
    | oneAgain =>
      exact h.running hl hpc 9 rfl (by decide) (by simpa [Context.setReg] using hzero) rfl
        (by simp [leftAt, Context.setReg]) (by simp [Fact, Context.setReg])
    | release hturn =>
      rw [h.readTurn] at hturn
      obtain rfl := Option.some.inj hturn
      exact h.release hl hpc hzero hfact
    | sub =>
      exact h.running hl hpc 11 rfl (by decide) (by simpa [Context.setReg] using hzero) rfl
        (by simp [leftAt, Context.setReg]) trivial
    | test =>
      exact h.running hl hpc 12 rfl (by decide) hzero rfl rfl rfl
    | again hgt =>
      have hbx : 0 < c.registers .bx := of_decide_eq_true ((hgt.symm.trans hfact).symm)
      refine h.running hl hpc 0 rfl (by decide) hzero rfl ?_ trivial
      simp only [leftAt]
      split_ifs <;> omega
    | leave hgt =>
      have hbx : ¬ 0 < c.registers .bx := of_decide_eq_false ((hgt.symm.trans hfact).symm)
      refine h.running hl hpc 13 rfl (by decide) hzero rfl ?_ trivial
      simp only [leftAt]
      split_ifs <;> omega
    | halt =>
      refine (h.quiet (l := .done) ?_ ?_ trivial).after
      · rw [hl, phase_eq hpc]
        rfl
      · rw [hl, left_eq hpc]
        rfl

-- One instruction of some thread, with what it is.
def Steps (base : Int) (s : Threads n) (e : Event n) (s' : Threads n) : Prop :=
  ∃ t x, threadStep (s.locals t) s.shared = some x ∧ s' = s.set t x ∧
    e = event base t (s.locals t)

-- The threads in the order of their tickets, and in the order they come in.
def takers (es : List (Event n)) : List (Fin n) :=
  es.flatMap Event.grabbed

def entrants (es : List (Event n)) : List (Fin n) :=
  es.flatMap Event.entered

section Runs

variable {o : Options} {argv : Fin n → List (Reg × Int)} {memory : Memory} {es : List (Event n)}

theorem inv_start (hmem : 0 < o.memsize) (hzero : ∀ t, ∀ x ∈ argv t, x.1 ≠ .zero)
    (hload : load source o.loadaddr (initMemory o.memsize) = some memory) :
    Inv o.loadaddr (rounds o argv) 0 0 0 [] [] (o.threads argv memory) := by
  obtain ⟨hcode, haddr, hticket, hturn, hcount⟩ := load_code hmem hload
  have hpc : ∀ t, (o.process argv t).saved.pc = o.loadaddr + (0 : ℕ) := by
    intro t
    simp [Options.process]
  refine ⟨hcode, haddr, hticket, hturn, hcount, TicketQueue.Inv.start ?_, ?_, ?_⟩
  · intro t
    exact (phase_eq (hpc t)).trans rfl
  · intro t
    exact ⟨0, hpc t, by decide, Options.process_zero (hzero t), trivial⟩
  · have hleft : ∀ t, left o.loadaddr ((o.threads argv memory).locals t) =
        (max 1 ((o.process argv t).saved.registers .bx)).toNat := by
      intro t
      exact (left_eq (hpc t)).trans rfl
    simp only [hleft, rounds, Int.zero_add]

theorem inv_run (hmem : 0 < o.memsize) (hzero : ∀ t, ∀ x ∈ argv t, x.1 ≠ .zero)
    (hload : load source o.loadaddr (initMemory o.memsize) = some memory)
    (hrun : LabelledRun.Run (Steps o.loadaddr) (o.threads argv memory) es s) :
    ∃ ticket turn count, Inv o.loadaddr (rounds o argv) ticket turn count (takers es)
      (entrants es) s := by
  refine hrun.history (I := fun es s => ∃ ticket turn count, Inv o.loadaddr (rounds o argv)
      ticket turn count (takers es) (entrants es) s) (G := fun _ => True)
    ⟨0, 0, 0, inv_start hmem hzero hload⟩ ?_ (fun _ _ => trivial)
  rintro es s e s' - ⟨ticket, turn, count, hinv⟩ - ⟨t, x, hx, rfl, rfl⟩
  simpa [After, takers, entrants] using hinv.step hx

theorem exists_run {s₀ : Threads n} (base : Int) (h : Reachable threadStep s₀ s) :
    ∃ es, LabelledRun.Run (Steps base) s₀ es s := by
  induction h with
  | refl => exact ⟨[], LabelledRun.Run.nil⟩
  | tail _ hstep ih =>
    obtain ⟨es, hes⟩ := ih
    obtain ⟨t, x, hx, rfl⟩ := hstep
    exact ⟨es ++ [event base t _], hes.snoc ⟨t, x, hx, rfl, rfl⟩⟩

theorem Inv.count_of_allDone {grabs entries : List (Fin n)}
    (h : Inv base total ticket turn count grabs entries s) (hdone : AllDone s) :
    s.shared.read countAddr = some total := by
  have hzero : ∑ t, left base (s.locals t) = 0 :=
    Finset.sum_eq_zero fun t _ => by rw [hdone t]; rfl
  have hbalance := h.balance
  rw [hzero] at hbalance
  rw [h.readCount, ← hbalance]
  simp

-- First come, first served, one at a time; and when `run` returns no increment is lost.
theorem serves_in_order (o : Options) (argv : Fin n → List (Reg × Int)) (hmem : 0 < o.memsize)
    (hzero : ∀ t, ∀ x ∈ argv t, x.1 ≠ .zero) {memory : Memory}
    (hload : load source o.loadaddr (initMemory o.memsize) = some memory) :
    (∀ es s, LabelledRun.Run (Steps o.loadaddr) (o.threads argv memory) es s →
      entrants es <+: takers es ∧
        ∀ t u, phase o.loadaddr (s.locals t) = .serving → phase o.loadaddr (s.locals u) = .serving →
          t = u) ∧
    (∀ draw m k m', o.start argv memory draw = some m → Returns o.interrupts m k m' →
      m'.cpu.memory.read countAddr = some (rounds o argv : Int)) := by
  constructor
  · intro es s hrun
    obtain ⟨ticket, turn, count, hinv⟩ := inv_run hmem hzero hload hrun
    exact ⟨hinv.queue.fifo, fun t u => hinv.queue.exclusive⟩
  · intro draw m k m' hstart hreturns
    obtain ⟨hview, hvalid⟩ := Options.start_view hstart
    obtain ⟨hreach, hdone⟩ := hreturns.simulates hvalid
    rw [hview] at hreach
    obtain ⟨es, hrun⟩ := exists_run o.loadaddr hreach
    obtain ⟨ticket, turn, count, hinv⟩ := inv_run hmem hzero hload hrun
    exact hinv.count_of_allDone hdone

theorem serves_in_order_three :
    let o : Options :=
      { intfreq := 7, intrand := false, procsched := [], loadaddr := 1000, memsize := 1 }
    let argv : Fin 3 → List (Reg × Int) := fun t => [(.bx, t.val)]
    ∃ memory, load source 1000 (initMemory 1) = some memory ∧
      (∀ es s, LabelledRun.Run (Steps 1000) (o.threads argv memory) es s →
        entrants es <+: takers es ∧
          ∀ t u, phase 1000 (s.locals t) = .serving → phase 1000 (s.locals u) = .serving → t = u) ∧
      (∀ draw m k m', o.start argv memory draw = some m → Returns o.interrupts m k m' →
        m'.cpu.memory.read countAddr = some (rounds o argv : Int)) := by
  intro o argv
  obtain ⟨memory, hload⟩ := Option.isSome_iff_exists.mp
    (show (load source 1000 (initMemory 1)).isSome = true from rfl)
  exact ⟨memory, hload, serves_in_order o argv (by decide) (by decide) hload⟩

end Runs

end X86.TicketLock
