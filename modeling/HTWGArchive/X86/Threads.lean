import HTWGArchive.Library.ThreadSums
import HTWGArchive.X86.Processes

namespace X86

open Interleaving

-- The threads as the programs see them: each has registers of its own and only the memory is
-- shared.
inductive Thread where
  | running (c : Context)
  | done

def threadStep : Thread → Memory → Option (Thread × Memory)
  | .done, _ => none
  | .running c, m =>
    (cycle { context := c, memory := m }).map fun x =>
      (if x.1 = .halt then .done else .running x.2.context, x.2.memory)

abbrev Threads (n : ℕ) := State (Fin n) Thread Memory

variable {n : ℕ}

-- The thread `t` runs its next instruction.
def Moves (s : Threads n) (t : Fin n) (s' : Threads n) : Prop :=
  ∃ x, threadStep (s.locals t) s.shared = some x ∧ s' = s.set t x

theorem Moves.step {s s' : Threads n} {t : Fin n} (h : Moves s t s') : Step threadStep s s' :=
  ⟨t, h⟩

-- The registers of the current process are in the cpu, those of the others where `save` put them.
def Proclist.thread (p : Proclist n) (c : Context) (u : Fin n) : Thread :=
  if (p.plist u).done then .done
  else if p.getcurr = some u then .running c
  else .running (p.plist u).saved

def Machine.view (m : Machine n) : Threads n :=
  { shared := m.cpu.memory, locals := m.procs.thread m.cpu.context }

def Proclist.alive (p : Proclist n) (u : Fin n) : ℕ :=
  if (p.plist u).done then 0 else 1

structure Proclist.Valid (p : Proclist n) : Prop where
  current : ∃ t, p.getcurr = some t ∧ (p.plist t).done = false
  active : p.active = ∑ u, p.alive u

variable {p p' : Proclist n} {m m' : Machine n} {c : Context} {t : Fin n}

theorem Proclist.nextFrom_some {k curr curr' : ℕ} (h : p.nextFrom k curr = some curr') :
    ∃ t, p.procsched[curr']? = some t ∧ (p.plist t).done = false := by
  induction k generalizing curr with
  | zero => cases h
  | succ k ih =>
    simp only [Proclist.nextFrom] at h
    obtain ⟨t, ht, hrest⟩ := Option.bind_eq_some_iff.mp h
    cases hdone : (p.plist t).done with
    | true =>
      rw [hdone, if_pos rfl] at hrest
      exact ih hrest
    | false =>
      rw [hdone, if_neg (by decide)] at hrest
      obtain rfl := Option.some.inj hrest
      exact ⟨t, ht, hdone⟩

-- What is kept when the cpu turns to another process.
structure Switched (m m' : Machine n) : Prop where
  memory : m'.cpu.memory = m.cpu.memory
  plist : m'.procs.plist = m.procs.plist
  active : m'.procs.active = m.procs.active
  procsched : m'.procs.procsched = m.procs.procsched
  current : ∃ t, m'.procs.getcurr = some t ∧ (m'.procs.plist t).done = false ∧
    m'.cpu.context = (m'.procs.plist t).saved

theorem Machine.switch_switched (h : m.switch = some m') : Switched m m' := by
  obtain ⟨p, hp, hrest⟩ := Option.bind_eq_some_iff.mp h
  obtain ⟨c, hc, rfl⟩ := Option.map_eq_some_iff.mp hrest
  obtain ⟨curr, hcurr, rfl⟩ := Option.map_eq_some_iff.mp hp
  obtain ⟨t, ht, hdone⟩ := Proclist.nextFrom_some hcurr
  refine ⟨rfl, rfl, rfl, rfl, t, ht, hdone, ?_⟩
  have hrestore : some (m.procs.plist t).saved = some c := by
    simpa [Proclist.restore, Proclist.getcurr, ht] using hc
  exact (Option.some.inj hrestore).symm

-- A switch is invisible once the registers of the process it leaves are saved or no longer needed.
theorem Switched.view (h : Switched m m')
    (hsaved : ∀ t, m.procs.getcurr = some t → (m.procs.plist t).done = false →
      (m.procs.plist t).saved = m.cpu.context) : m'.view = m.view := by
  obtain ⟨t, ht, hdone, hcontext⟩ := h.current
  have hlocals : m'.procs.thread m'.cpu.context = m.procs.thread m.cpu.context := by
    funext u
    simp only [Proclist.thread, h.plist]
    cases hu : (m.procs.plist u).done with
    | true => rfl
    | false =>
      have hnew : (if m'.procs.getcurr = some u then Thread.running m'.cpu.context
          else .running (m.procs.plist u).saved) = .running (m.procs.plist u).saved := by
        split
        · rename_i heq
          rw [ht] at heq
          obtain rfl := Option.some.inj heq
          rw [hcontext, h.plist]
        · rfl
      have hold : (if m.procs.getcurr = some u then Thread.running m.cpu.context
          else .running (m.procs.plist u).saved) = .running (m.procs.plist u).saved := by
        split
        · rename_i heq
          rw [hsaved u heq hu]
        · rfl
      simp only [Bool.false_eq_true, if_false]
      rw [hnew, hold]
  simp only [Machine.view, h.memory, hlocals]

theorem Switched.valid (h : Switched m m') (hactive : m.procs.active = ∑ u, m.procs.alive u) :
    m'.procs.Valid := by
  obtain ⟨t, ht, hdone, -⟩ := h.current
  refine ⟨⟨t, ht, hdone⟩, ?_⟩
  rw [h.active, hactive]
  simp only [Proclist.alive, h.plist]

theorem Proclist.save_some (hp : p.getcurr = some t) :
    p.save c =
      some { p with plist := Function.update p.plist t { p.plist t with saved := c } } := by
  simp [Proclist.save, hp]

theorem Proclist.save_done (u : Fin n) :
    (Function.update p.plist t { p.plist t with saved := c } u).done = (p.plist u).done := by
  rcases eq_or_ne u t with rfl | hne
  · simp
  · simp [hne]

theorem Proclist.save_thread (hp : p.getcurr = some t) (hsave : p.save c = some p') :
    p'.thread c = p.thread c := by
  rw [Proclist.save_some hp] at hsave
  obtain rfl := Option.some.inj hsave
  funext u
  simp only [Proclist.thread, Proclist.getcurr, Proclist.save_done]
  rcases eq_or_ne u t with rfl | hne
  · simp only [Proclist.getcurr] at hp
    simp [hp]
  · simp only [Function.update_of_ne hne]
    rfl

theorem interruptProcessing_view {f : Interrupts} {draw : ℕ} {rc : Signal} (hm : m.procs.Valid)
    (h : Machine.interruptProcessing f draw rc m = some m') :
    m'.view = m.view ∧ m'.procs.Valid := by
  obtain ⟨t, ht, hdone⟩ := hm.current
  unfold Machine.interruptProcessing at h
  split at h
  · obtain ⟨p, hp, hswitch⟩ := Option.bind_eq_some_iff.mp h
    have hswitched := Machine.switch_switched hswitch
    have hsaved := hp
    rw [Proclist.save_some ht] at hsaved
    obtain rfl := Option.some.inj hsaved
    refine ⟨?_, hswitched.valid ?_⟩
    · rw [hswitched.view]
      · simp only [Machine.view]
        rw [Proclist.save_thread ht hp]
      · intro u hu _
        have heq : m.procs.getcurr = some u := hu
        rw [ht] at heq
        obtain rfl := Option.some.inj heq
        simp
    · rw [hm.active]
      simp only [Proclist.alive, Proclist.save_done]
  · obtain rfl := Option.some.inj h
    exact ⟨rfl, hm⟩

theorem Machine.view_current (hp : m.procs.getcurr = some t)
    (hdone : (m.procs.plist t).done = false) : m.view.locals t = .running m.cpu.context := by
  simp [Machine.view, Proclist.thread, hp, hdone]

-- The cpu has run one instruction of the current process.
theorem Machine.view_step {x : Cpu} {k : ℕ} (hp : m.procs.getcurr = some t)
    (hdone : (m.procs.plist t).done = false) :
    ({ m with cpu := x, icount := k } : Machine n).view =
      m.view.set t (.running x.context, x.memory) := by
  have hlocals : m.procs.thread x.context =
      Function.update (m.procs.thread m.cpu.context) t (.running x.context) := by
    funext u
    rcases eq_or_ne u t with rfl | hne
    · simp [Proclist.thread, hp, hdone]
    · have hother : m.procs.getcurr ≠ some u := by
        rw [hp]
        exact fun heq => hne (Option.some.inj heq).symm
      simp [Proclist.thread, hother, hne]
  simp only [Machine.view, State.set, hlocals]

theorem Proclist.setdone_some (hp : p.getcurr = some t) :
    p.setdone = some
      { p with
        plist := Function.update p.plist t { p.plist t with done := true }
        active := p.active - 1 } := by
  simp [Proclist.setdone, hp]

theorem Proclist.setdone_thread (hp : p.getcurr = some t) (hset : p.setdone = some p') :
    p'.thread c = Function.update (p.thread c) t .done := by
  rw [Proclist.setdone_some hp] at hset
  obtain rfl := Option.some.inj hset
  funext u
  rcases eq_or_ne u t with rfl | hne
  · simp [Proclist.thread]
  · simp only [Proclist.thread, Proclist.getcurr, Function.update_of_ne hne]
    rfl

theorem Proclist.setdone_active (hp : p.getcurr = some t) (hdone : (p.plist t).done = false)
    (hactive : p.active = ∑ u, p.alive u) (hset : p.setdone = some p') :
    p'.active = ∑ u, p'.alive u := by
  rw [Proclist.setdone_some hp] at hset
  obtain rfl := Option.some.inj hset
  have hsum := ThreadSums.sum_update (fun x : Process => if x.done then 0 else 1) p.plist t
    { p.plist t with done := true }
  simp only [hdone, Bool.false_eq_true, if_false, if_true] at hsum
  simp only [Proclist.alive] at hactive ⊢
  omega

-- All threads have halted.
def AllDone (s : Threads n) : Prop :=
  ∀ u, s.locals u = .done

theorem thread_done (hactive : p.active = ∑ u, p.alive u) (hnum : p.numdone = n) (u : Fin n) :
    (p.plist u).done = true := by
  have hle : p.active ≤ n := by
    rw [hactive]
    calc ∑ u, p.alive u ≤ ∑ _u : Fin n, 1 :=
          Finset.sum_le_sum fun u _ => by unfold Proclist.alive; split <;> omega
      _ = n := by simp
  have hzero : p.active = 0 := by
    have hpos : 0 < n := Nat.lt_of_le_of_lt (Nat.zero_le _) u.isLt
    unfold Proclist.numdone at hnum
    omega
  have hterm := ThreadSums.le_sum (fun x : Process => if x.done then 0 else 1) p.plist u
  simp only [Proclist.alive] at hactive
  rw [← hactive, hzero] at hterm
  by_contra hfalse
  simp [hfalse] at hterm

-- What a tick is for the threads: the next instruction of the current one.
inductive Ticks (m : Machine n) (t : Fin n) : Outcome n → Prop where
  | running {m' : Machine n} : Moves m.view t m'.view → m'.procs.Valid → Ticks m t (.running m')
  | returned {k : ℕ} {m' : Machine n} : Moves m.view t m'.view → AllDone m'.view →
      Ticks m t (.returned k m')

theorem Machine.tick_ticks {f : Interrupts} {draw : ℕ} {o : Outcome n} (hm : m.procs.Valid)
    (h : m.tick f draw = some o) : ∃ t, m.procs.getcurr = some t ∧ Ticks m t o := by
  obtain ⟨t, ht, hdone⟩ := hm.current
  refine ⟨t, ht, ?_⟩
  obtain ⟨⟨rc, x⟩, hx, hrest⟩ := Option.bind_eq_some_iff.mp h
  have hview := Machine.view_step (x := x) (k := m.icount + 1) ht hdone
  have hthread : threadStep (m.view.locals t) m.view.shared =
      some (if rc = .halt then .done else .running x.context, x.memory) := by
    rw [Machine.view_current ht hdone]
    simp only [threadStep, Machine.view]
    rw [show ({ context := m.cpu.context, memory := m.cpu.memory } : Cpu) = m.cpu from rfl, hx]
    rfl
  dsimp only at hrest
  split at hrest
  · rename_i hhalt
    rw [if_pos hhalt] at hthread
    obtain ⟨p, hp, hcase⟩ := Option.bind_eq_some_iff.mp hrest
    have hactive := Proclist.setdone_active ht hdone hm.active hp
    have hmoves : Moves m.view t
        ({ m with cpu := x, procs := p, icount := m.icount + 1 } : Machine n).view := by
      refine ⟨_, hthread, ?_⟩
      simp only [Machine.view, State.set]
      rw [Proclist.setdone_thread ht hp]
      have hlocals := congrArg State.locals hview
      simp only [Machine.view, State.set] at hlocals
      rw [hlocals, Function.update_idem]
    split at hcase
    · rename_i hnum
      obtain rfl := Option.some.inj hcase
      refine Ticks.returned hmoves ?_
      intro u
      simp [Machine.view, Proclist.thread, thread_done hactive hnum u]
    · obtain ⟨m₁, hm₁, hlast⟩ := Option.bind_eq_some_iff.mp hcase
      obtain ⟨m₂, hm₂, rfl⟩ := Option.map_eq_some_iff.mp hlast
      have hswitched := Machine.switch_switched hm₁
      obtain ⟨hsame, hvalid⟩ := interruptProcessing_view (hswitched.valid hactive) hm₂
      refine Ticks.running ?_ hvalid
      rw [hsame, hswitched.view]
      · exact hmoves
      · intro u hu halive
        rw [Proclist.setdone_some ht] at hp
        obtain rfl := Option.some.inj hp
        have heq : m.procs.getcurr = some u := hu
        rw [ht] at heq
        obtain rfl := Option.some.inj heq
        simp at halive
  · rename_i hhalt
    rw [if_neg hhalt] at hthread
    obtain ⟨m₁, hm₁, rfl⟩ := Option.map_eq_some_iff.mp hrest
    obtain ⟨hsame, hvalid⟩ :=
      interruptProcessing_view (m := { m with cpu := x, icount := m.icount + 1 })
      ⟨⟨t, ht, hdone⟩, hm.active⟩ hm₁
    exact Ticks.running (hsame ▸ ⟨_, hthread, hview⟩) hvalid

theorem Run.simulates {f : Interrupts} (hm : m.procs.Valid) (h : Run f m m') :
    Reachable threadStep m.view m'.view ∧ m'.procs.Valid := by
  induction h with
  | refl => exact ⟨Relation.ReflTransGen.refl, hm⟩
  | tail _ _ htick ih =>
    obtain ⟨hreach, hvalid⟩ := ih
    obtain ⟨t, -, hticks⟩ := Machine.tick_ticks hvalid htick
    cases hticks with
    | running hmoves hnext => exact ⟨hreach.tail hmoves.step, hnext⟩

theorem Returns.simulates {f : Interrupts} {k : ℕ} (hm : m.procs.Valid)
    (h : Returns f m k m') : Reachable threadStep m.view m'.view ∧ AllDone m'.view := by
  obtain ⟨m₁, draw, hrun, -, htick⟩ := h
  obtain ⟨hreach, hvalid⟩ := hrun.simulates hm
  obtain ⟨t, -, hticks⟩ := Machine.tick_ticks hvalid htick
  cases hticks with
  | returned hmoves hdone => exact ⟨hreach.tail hmoves.step, hdone⟩

def Options.threads (o : Options) (argv : Fin n → List (Reg × Int)) (memory : Memory) : Threads n :=
  { shared := memory, locals := fun t => .running (o.process argv t).saved }

-- `-a` can name every register, also the hidden one that addresses are built with.
theorem Options.process_zero {o : Options} {argv : Fin n → List (Reg × Int)} {t : Fin n}
    (h : ∀ x ∈ argv t, x.1 ≠ .zero) : (o.process argv t).saved.registers .zero = 0 := by
  have hfold : ∀ (l : List (Reg × Int)) (r : Reg → Int), (∀ x ∈ l, x.1 ≠ .zero) →
      (l.foldl (fun r x => Function.update r x.1 x.2) r) .zero = r .zero := by
    intro l
    induction l with
    | nil => exact fun _ _ => rfl
    | cons x l ih =>
      intro r hl
      rw [List.foldl_cons, ih _ (fun y hy => hl y (List.mem_cons_of_mem _ hy)),
        Function.update_of_ne (hl x List.mem_cons_self).symm]
  simp only [Options.process]
  rw [Function.update_of_ne (by decide), hfold _ _ h]

theorem Options.start_view {o : Options} {argv : Fin n → List (Reg × Int)} {memory : Memory}
    {draw : ℕ} (h : o.start argv memory draw = some m) :
    m.view = o.threads argv memory ∧ m.procs.Valid := by
  obtain ⟨p, hp, hrest⟩ := Option.bind_eq_some_iff.mp h
  obtain ⟨c, hc, rfl⟩ := Option.map_eq_some_iff.mp hrest
  obtain ⟨t, ht, rfl⟩ := Option.map_eq_some_iff.mp hc
  have hplist : p.plist = o.process argv ∧ p.active = n := by
    unfold Options.finalize at hp
    split at hp
    · obtain ⟨s, -, rfl⟩ := Option.map_eq_some_iff.mp hp
      exact ⟨rfl, rfl⟩
    · obtain rfl := Option.some.inj hp
      exact ⟨rfl, rfl⟩
  refine ⟨?_, ⟨t, ht, ?_⟩, ?_⟩
  · simp only [Machine.view, Options.threads]
    congr 1
    funext u
    simp only [Proclist.thread, hplist.1, Options.process, Bool.false_eq_true, if_false]
    split
    · rename_i hu
      rw [ht] at hu
      rw [Option.some.inj hu]
    · rfl
  · rw [hplist.1]
    rfl
  · rw [hplist.2]
    simp [Proclist.alive, hplist.1, Options.process]

end X86
