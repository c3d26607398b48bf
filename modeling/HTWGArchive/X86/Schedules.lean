import HTWGArchive.X86.Threads
import Mathlib.Tactic.FinCases

namespace X86

open Interleaving

variable {n : ℕ} {p : Proclist n} {m : Machine n} {c : Context} {s s' last : Threads n}
  {t u : Fin n} {rest : List (Fin n)}

-- The interrupts under a schedule given with `-P`.
def everyInstruction : Interrupts :=
  { intfreq := 1, intrand := false }

theorem getcurr_of_drop (h : p.procsched.drop p.curr = t :: rest) : p.getcurr = some t := by
  have hget := congrArg List.head? h
  simpa [Proclist.getcurr, List.head?_drop] using hget

theorem next_of_drop (h : p.procsched.drop p.curr = u :: t :: rest)
    (ht : (p.plist t).done = false) : p.next = some { p with curr := p.curr + 1 } := by
  have hlen := congrArg List.length h
  simp only [List.length_drop, List.length_cons] at hlen
  have hget : p.procsched[p.curr + 1]? = some t := by
    have hsecond := congrArg (fun l => l[1]?) h
    simpa [List.getElem?_drop] using hsecond
  obtain ⟨k, hk⟩ : ∃ k, p.procsched.length = k + 1 := ⟨p.procsched.length - 1, by omega⟩
  have hne : p.curr + 1 ≠ p.procsched.length := by omega
  unfold Proclist.next
  rw [hk, Proclist.nextFrom, if_neg hne, hget, Option.bind_some, ht, if_neg (by decide)]
  rfl

theorem drop_succ (h : p.procsched.drop p.curr = u :: rest) :
    p.procsched.drop (p.curr + 1) = rest := by
  rw [← List.drop_drop, h, List.drop_one, List.tail_cons]

theorem switch_of_drop (h : m.procs.procsched.drop m.procs.curr = u :: t :: rest)
    (ht : (m.procs.plist t).done = false) :
    ∃ m', m.switch = some m' ∧ m'.interrupt = m.interrupt ∧
      m'.procs.plist = m.procs.plist ∧ m'.procs.procsched.drop m'.procs.curr = t :: rest := by
  have hdrop := drop_succ h
  have hcurr : ({ m.procs with curr := m.procs.curr + 1 } : Proclist n).getcurr = some t :=
    getcurr_of_drop hdrop
  refine ⟨{ m with
    procs := { m.procs with curr := m.procs.curr + 1 }
    cpu := { m.cpu with context := (m.procs.plist t).saved } }, ?_, rfl, rfl, hdrop⟩
  rw [Machine.switch, next_of_drop h ht, Option.bind_some, Proclist.restore, hcurr]
  rfl

theorem interruptProcessing_of_drop (rc : Signal)
    (h : m.procs.procsched.drop m.procs.curr = u :: t :: rest) (hinterrupt : m.interrupt = 1)
    (ht : (m.procs.plist t).done = false) :
    ∃ m', Machine.interruptProcessing everyInstruction 0 rc m = some m' ∧ m'.interrupt = 1 ∧
      m'.procs.procsched.drop m'.procs.curr = t :: rest := by
  have hfire : m.interrupt - 1 = 0 ∨ rc = .yield := Or.inl (by rw [hinterrupt]; rfl)
  obtain ⟨m', hswitch, hint, -, hdrop⟩ := switch_of_drop
    (m := { m with
      procs := { m.procs with
        plist := Function.update m.procs.plist u { m.procs.plist u with saved := m.cpu.context } }
      interrupt := everyInstruction.setint 0 }) h
    (by rw [← ht]; exact Proclist.save_done t)
  refine ⟨m', ?_, hint, hdrop⟩
  unfold Machine.interruptProcessing
  rw [if_pos hfire, Proclist.save_some (getcurr_of_drop h), Option.bind_some]
  exact hswitch

theorem tick_continues {rc : Signal} {x : Cpu}
    (h : m.procs.procsched.drop m.procs.curr = u :: t :: rest) (hinterrupt : m.interrupt = 1)
    (hx : cycle m.cpu = some (rc, x)) (hrc : rc ≠ .halt) (ht : (m.procs.plist t).done = false) :
    ∃ m', m.tick everyInstruction 0 = some (.running m') ∧ m'.interrupt = 1 ∧
      m'.procs.procsched.drop m'.procs.curr = t :: rest := by
  obtain ⟨m', hm', hint, hdrop⟩ := interruptProcessing_of_drop rc
    (m := { m with cpu := x, icount := m.icount + 1 }) h hinterrupt ht
  refine ⟨m', ?_, hint, hdrop⟩
  rw [Machine.tick, hx, Option.bind_some]
  dsimp only
  rw [if_neg hrc, hm']
  rfl

theorem done_of_ne (hne : t ≠ u) (ht : (p.plist t).done = false) :
    (Function.update p.plist u { p.plist u with done := true } t).done = false := by
  rw [Function.update_of_ne hne, ht]

-- After a halt the list moves on twice, once for the halt and once for the interrupt.
theorem tick_halts {x : Cpu} (hm : m.procs.Valid)
    (h : m.procs.procsched.drop m.procs.curr = u :: t :: t :: rest) (hinterrupt : m.interrupt = 1)
    (hx : cycle m.cpu = some (.halt, x)) (hu : (m.procs.plist u).done = false) (hne : t ≠ u)
    (ht : (m.procs.plist t).done = false) :
    ∃ m', m.tick everyInstruction 0 = some (.running m') ∧ m'.interrupt = 1 ∧
      m'.procs.procsched.drop m'.procs.curr = t :: rest := by
  have hcurr := getcurr_of_drop h
  have hset := Proclist.setdone_some hcurr
  have hactive := Proclist.setdone_active hcurr hu hm.active hset
  have hnum : ¬ Proclist.numdone { m.procs with
      plist := Function.update m.procs.plist u { m.procs.plist u with done := true }
      active := m.procs.active - 1 } = n := by
    intro heq
    have hdone := thread_done hactive heq t
    rw [done_of_ne hne ht] at hdone
    cases hdone
  obtain ⟨m₁, hm₁, hint₁, hplist, hdrop₁⟩ := switch_of_drop
    (m := { m with
      cpu := x
      icount := m.icount + 1
      procs := { m.procs with
        plist := Function.update m.procs.plist u { m.procs.plist u with done := true }
        active := m.procs.active - 1 } }) h (done_of_ne hne ht)
  obtain ⟨m₂, hm₂, hint₂, hdrop₂⟩ := interruptProcessing_of_drop .halt hdrop₁
    (hint₁.trans hinterrupt) (by rw [hplist]; exact done_of_ne hne ht)
  refine ⟨m₂, ?_, hint₂, hdrop₂⟩
  rw [Machine.tick, hx, Option.bind_some]
  dsimp only
  rw [if_pos rfl, hset, Option.bind_some]
  dsimp only
  rw [if_neg hnum, hm₁, Option.bind_some, hm₂]
  rfl

theorem tick_returns {x : Cpu} (hm : m.procs.Valid) (hcurr : m.procs.getcurr = some u)
    (hx : cycle m.cpu = some (.halt, x)) (hu : (m.procs.plist u).done = false)
    (hall : ∀ v, v ≠ u → (m.procs.plist v).done = true) :
    ∃ o : ℕ × Machine n, m.tick everyInstruction 0 = some (.returned o.1 o.2) := by
  have hset := Proclist.setdone_some hcurr
  have hactive := Proclist.setdone_active hcurr hu hm.active hset
  have hzero : m.procs.active - 1 = 0 := by
    rw [show m.procs.active - 1 = _ from hactive]
    apply Finset.sum_eq_zero
    intro v _
    rcases eq_or_ne v u with rfl | hne
    · simp [Proclist.alive]
    · simp [Proclist.alive, hne, hall v hne]
  refine ⟨(m.icount + 1, { m with
    cpu := x
    icount := m.icount + 1
    procs := { m.procs with
      plist := Function.update m.procs.plist u { m.procs.plist u with done := true }
      active := m.procs.active - 1 } }), ?_⟩
  rw [Machine.tick, hx, Option.bind_some]
  dsimp only
  rw [if_pos rfl, hset, Option.bind_some]
  dsimp only
  rw [if_pos (by simp [Proclist.numdone, hzero])]

theorem view_ne_done : m.view.locals t ≠ .done ↔ (m.procs.plist t).done = false := by
  cases hdone : (m.procs.plist t).done with
  | true => simp [Machine.view, Proclist.thread, hdone]
  | false =>
    have hrunning : ∀ b : Prop, ∀ _ : Decidable b, ∀ c c' : Context,
        (if b then Thread.running c else .running c') ≠ .done := by
      intro b _ c c'
      split <;> exact Thread.noConfusion
    simp only [Machine.view, Proclist.thread, hdone, Bool.false_eq_true, if_false]
    exact iff_of_true (hrunning _ _ _ _) trivial

theorem Moves.unique (h : Moves s t s') {s'' : Threads n} (h' : Moves s t s'') : s'' = s' := by
  obtain ⟨x, hx, rfl⟩ := h
  obtain ⟨y, hy, rfl⟩ := h'
  rw [hx] at hy
  rw [Option.some.inj hy]

-- The instruction behind a move of the current process.
theorem Moves.cycle (h : Moves m.view t s') (hcurr : m.procs.getcurr = some t)
    (hdone : (m.procs.plist t).done = false) :
    ∃ rc x, X86.cycle m.cpu = some (rc, x) ∧
      s' = m.view.set t (if rc = .halt then .done else .running x.context, x.memory) := by
  obtain ⟨y, hy, rfl⟩ := h
  rw [Machine.view_current hcurr hdone] at hy
  obtain ⟨⟨rc, x⟩, hx, rfl⟩ := Option.map_eq_some_iff.mp hy
  exact ⟨rc, x, hx, rfl⟩

-- From every machine that shows these threads the schedule leads to `last`.
def Serves (s last : Threads n) (sched : List (Fin n)) : Prop :=
  ∀ m : Machine n, m.procs.Valid → m.view = s → m.interrupt = 1 →
    m.procs.procsched.drop m.procs.curr = sched →
    ∃ k m', Returns everyInstruction m k m' ∧ m'.view = last

theorem Run.head {f : Interrupts} {m₁ m' : Machine n} {draw : ℕ} (hdraw : draw < f.intfreq)
    (htick : m.tick f draw = some (.running m₁)) (h : Run f m₁ m') : Run f m m' := by
  induction h with
  | refl => exact Run.tail (Run.refl m) hdraw htick
  | tail _ hlt hnext ih => exact Run.tail ih hlt hnext

theorem Returns.head {f : Interrupts} {m₁ m' : Machine n} {draw k : ℕ} (hdraw : draw < f.intfreq)
    (htick : m.tick f draw = some (.running m₁)) (h : Returns f m₁ k m') : Returns f m k m' := by
  obtain ⟨m₂, d, hrun, hd, hlast⟩ := h
  exact ⟨m₂, d, hrun.head hdraw htick, hd, hlast⟩

theorem serves_cons {sched tail : List (Fin n)}
    (hmove : Moves s u s') (hhead : ∃ l, sched = u :: l)
    (htick : ∀ m : Machine n, m.procs.Valid → m.view = s → m.interrupt = 1 →
      m.procs.procsched.drop m.procs.curr = sched →
      ∃ m', m.tick everyInstruction 0 = some (.running m') ∧ m'.interrupt = 1 ∧
        m'.procs.procsched.drop m'.procs.curr = tail)
    (h : Serves s' last tail) : Serves s last sched := by
  intro m hm hview hint hdrop
  obtain ⟨m₁, hm₁, hint₁, hdrop₁⟩ := htick m hm hview hint hdrop
  obtain ⟨t, ht, hticks⟩ := Machine.tick_ticks hm hm₁
  obtain ⟨l, rfl⟩ := hhead
  rw [getcurr_of_drop hdrop] at ht
  obtain rfl := Option.some.inj ht
  cases hticks with
  | running hmoves hvalid =>
    rw [hview] at hmoves
    obtain ⟨k, m', hreturns, hlast⟩ := h m₁ hvalid (hmove.unique hmoves) hint₁ hdrop₁
    exact ⟨k, m', hreturns.head (by decide) hm₁, hlast⟩

theorem Moves.ne_done (h : Moves s t s') : s.locals t ≠ .done := by
  obtain ⟨x, hx, -⟩ := h
  intro hdone
  rw [hdone] at hx
  cases hx

theorem Moves.other (h : Moves s t s') (hne : u ≠ t) : s'.locals u = s.locals u := by
  obtain ⟨x, -, rfl⟩ := h
  exact State.set_locals_of_ne s hne x

theorem AllDone.stuck (h : AllDone s) (hreach : Reachable threadStep s s') : s' = s := by
  rcases hreach.cases_head with rfl | ⟨s₁, ⟨t, x, hx, -⟩, -⟩
  · rfl
  · rw [h t] at hx
    cases hx

-- A schedule that has every thread still running in it.
structure Schedules (s last : Threads n) (sched : List (Fin n)) : Prop where
  serves : Serves s last sched
  head : ∃ t rest, sched = t :: rest ∧ s.locals t ≠ .done
  all : ∀ u, s.locals u ≠ .done → u ∈ sched

theorem Moves.serves_last (h : Moves s t last) (hlast : AllDone last) : Serves s last [t] := by
  intro m hm hview _ hdrop
  subst hview
  have hcurr := getcurr_of_drop hdrop
  have hdone := view_ne_done.mp h.ne_done
  obtain ⟨rc, x, hx, hset⟩ := h.cycle hcurr hdone
  have hrc : rc = .halt := by
    by_contra hne
    have hself := hlast t
    rw [hset, State.set_locals_self, if_neg hne] at hself
    cases hself
  subst hrc
  have hall : ∀ v, v ≠ t → (m.procs.plist v).done = true := by
    intro v hne
    by_contra hfalse
    rw [Bool.not_eq_true] at hfalse
    exact view_ne_done.mpr hfalse ((h.other hne).symm.trans (hlast v))
  obtain ⟨o, ho⟩ := tick_returns hm hcurr hx hdone hall
  obtain ⟨t', ht', hticks⟩ := Machine.tick_ticks hm ho
  rw [hcurr] at ht'
  obtain rfl := Option.some.inj ht'
  cases hticks with
  | returned hmoves _ =>
    exact ⟨o.1, o.2, ⟨m, 0, Run.refl m, by decide, ho⟩, h.unique hmoves⟩

theorem Moves.serves_next (h : Moves s t s') (ht : s'.locals t ≠ .done) (hu : s'.locals u ≠ .done)
    (hserves : Serves s' last (u :: rest)) : Serves s last (t :: u :: rest) := by
  refine serves_cons h ⟨_, rfl⟩ ?_ hserves
  intro m hm hview hint hdrop
  subst hview
  have hcurr := getcurr_of_drop hdrop
  obtain ⟨rc, x, hx, hset⟩ := h.cycle hcurr (view_ne_done.mp h.ne_done)
  have hrc : rc ≠ .halt := by
    intro heq
    rw [hset, State.set_locals_self, if_pos heq] at ht
    exact ht rfl
  have halive : (m.procs.plist u).done = false := by
    rcases eq_or_ne u t with rfl | hne
    · exact view_ne_done.mp h.ne_done
    · rw [h.other hne] at hu
      exact view_ne_done.mp hu
  exact tick_continues hdrop hint hx hrc halive

theorem Moves.serves_halt (h : Moves s t s') (ht : s'.locals t = .done) (hu : s'.locals u ≠ .done)
    (hserves : Serves s' last (u :: rest)) : Serves s last (t :: u :: u :: rest) := by
  refine serves_cons h ⟨_, rfl⟩ ?_ hserves
  intro m hm hview hint hdrop
  subst hview
  have hcurr := getcurr_of_drop hdrop
  have hne : u ≠ t := fun heq => hu (heq ▸ ht)
  obtain ⟨rc, x, hx, hset⟩ := h.cycle hcurr (view_ne_done.mp h.ne_done)
  have hrc : rc = .halt := by
    by_contra hneg
    rw [hset, State.set_locals_self, if_neg hneg] at ht
    cases ht
  subst hrc
  rw [h.other hne] at hu
  exact tick_halts hm hdrop hint hx (view_ne_done.mp h.ne_done) hne (view_ne_done.mp hu)

theorem Moves.all (sched : List (Fin n)) (h : Moves s t s')
    (hall : ∀ u, s'.locals u ≠ .done → u ∈ sched) (hsub : ∀ u ∈ sched, u ∈ t :: rest) :
    ∀ u, s.locals u ≠ .done → u ∈ t :: rest := by
  intro u hu
  rcases eq_or_ne u t with rfl | hne
  · exact List.mem_cons_self
  · rw [← h.other hne] at hu
    exact hsub u (hall u hu)

theorem schedule_exists (h : Reachable threadStep s last) (hlast : AllDone last)
    (hs : ¬ AllDone s) : ∃ sched, Schedules s last sched := by
  induction h using Relation.ReflTransGen.head_induction_on with
  | refl => exact absurd hlast hs
  | @head s s' hstep hrest ih =>
    obtain ⟨t, hmove⟩ := hstep
    change Moves s t s' at hmove
    by_cases hdone : AllDone s'
    · obtain rfl := hdone.stuck hrest
      refine ⟨[t], hmove.serves_last hlast, ⟨t, [], rfl, hmove.ne_done⟩, ?_⟩
      exact hmove.all [] (fun u hu => absurd (hdone u) hu) (by simp)
    · obtain ⟨sched, hserves, ⟨u, rest, rfl, hu⟩, hall⟩ := ih hdone
      by_cases ht : s'.locals t = .done
      · refine ⟨t :: u :: u :: rest, hmove.serves_halt ht hu hserves,
          ⟨t, _, rfl, hmove.ne_done⟩, hmove.all _ hall ?_⟩
        exact fun v hv => List.mem_cons_of_mem _ (List.mem_cons_of_mem _ hv)
      · refine ⟨t :: u :: rest, hmove.serves_next ht hu hserves,
          ⟨t, _, rfl, hmove.ne_done⟩, hmove.all _ hall ?_⟩
        exact fun v hv => List.mem_cons_of_mem _ hv

theorem schedule_map {sched : List (Fin n)} (hn : n ≤ 10) (hall : ∀ u, u ∈ sched) :
    schedule (sched.map (Fin.castLE hn)) = some sched := by
  have hdigits : ∀ l : List (Fin n), (l.map (Fin.castLE hn)).mapM
      (fun d => if h : d.val < n then some (⟨d.val, h⟩ : Fin n) else none) = some l := by
    intro l
    induction l with
    | nil => rfl
    | cons t l ih => simp [List.mapM_cons, ih]
  have hlength : sched.dedup.length = n := by
    have hperm : sched.dedup.Perm (List.finRange n) := by
      rw [List.perm_ext_iff_of_nodup sched.nodup_dedup (List.nodup_finRange n)]
      simp [hall]
    rw [hperm.length_eq, List.length_finRange]
  unfold schedule
  rw [hdigits, Option.bind_some, if_pos hlength]

-- What the memory can be when `run` returns, over all settings of the interrupts.
def Results (o : Options) (argv : Fin n → List (Reg × Int)) (memory last : Memory) : Prop :=
  ∃ intfreq intrand procsched draw, ∃ m : Machine n, ∃ k m',
    let o' := { o with intfreq := intfreq, intrand := intrand, procsched := procsched }
    draw < o'.interrupts.intfreq ∧ o'.start argv memory draw = some m ∧
      Returns o'.interrupts m k m' ∧ m'.cpu.memory = last

theorem Options.start_manual (o : Options) (argv : Fin n → List (Reg × Int)) (memory : Memory)
    {sched : List (Fin n)} {digits : List (Fin 10)} (hdigits : digits ≠ [])
    (hsched : schedule digits = some (t :: sched)) :
    ∃ m : Machine n, { o with procsched := digits }.start argv memory 0 = some m ∧
      m.interrupt = 1 ∧ m.procs.procsched.drop m.procs.curr = t :: sched := by
  have hmanual : { o with procsched := digits }.manual = true := by
    cases digits with
    | nil => exact absurd rfl hdigits
    | cons d l => rfl
  unfold Options.start Options.finalize
  rw [if_pos hmanual, hsched]
  refine ⟨_, rfl, ?_, rfl⟩
  simp [Options.interrupts, hmanual, Interrupts.setint]

end X86
