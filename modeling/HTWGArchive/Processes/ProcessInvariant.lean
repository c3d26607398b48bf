import HTWGArchive.Processes.ProcessScheduler
import Mathlib.Algebra.GroupWithZero.Nat
import Mathlib.Algebra.Order.BigOperators.Group.Finset
import Mathlib.Data.List.Nodup

namespace ProcessRun

variable {c : Config} {n pid : ℕ} {s s' : Scheduler} {now : ℕ → ℤ} {due : ℕ → Option ℤ} {clock : ℤ}

-- All that holds in the middle of a switch; `due` is the end of the I/O that a process waits for.
structure Loose (c : Config) (n : ℕ) (now : ℕ → ℤ) (due : ℕ → Option ℤ) (s : Scheduler) :
    Prop where
  curr : s.currProc < n
  running : ∀ i, s.state i = .running → i = s.currProc
  waiting : ∀ i, s.state i = .waiting ↔ due i ≠ none
  finish : ∀ i t, now i < t → (t ∈ s.ioFinishTimes i ↔ due i = some t)
  future : ∀ i t, due i = some t → i < n ∧ now i < t
  onEnd : c.processSwitchBehavior = .onEnd → ∀ i, s.state i = .waiting → i = s.currProc
  done : ∀ i, s.state i = .done → s.code i = []

-- The processor is not left idle while a process is ready, but for the I/O with -S SWITCH_ON_END.
structure Good (c : Config) (n : ℕ) (now : ℕ → ℤ) (due : ℕ → Option ℤ) (s : Scheduler) : Prop
    extends Loose c n now due s where
  busy : ∀ i < n, s.state i = .ready → s.state s.currProc = .running ∨
    c.processSwitchBehavior = .onEnd ∧ s.state s.currProc = .waiting

def wait (now : ℤ) : Option ℤ → ℤ
  | some t => t - now
  | none => 0

-- The ticks that a process can still take up.
def ticksLeft (c : Config) (now : ℤ) (due : Option ℤ) (code : List Instruction)
    (state : ProcState) : ℤ :=
  code.length * (1 + c.ioLength) + (if state = .done then 0 else 1) + wait now due

def potential (c : Config) (n : ℕ) (now : ℕ → ℤ) (due : ℕ → Option ℤ) (s : Scheduler) : ℤ :=
  ∑ i ∈ Finset.range n, ticksLeft c (now i) (due i) (s.code i) (s.state i)

def work (n : ℕ) (s : Scheduler) : ℕ :=
  s.cpuBusy + ∑ i ∈ Finset.range n, (s.code i).length

theorem moveTo_some {state expected : ProcState} (h : s.state pid = expected) :
    moveTo state expected pid s = some { s with state := Function.update s.state pid state } :=
  if_pos h

-- A potential does not tell the states other than done apart.
theorem potential_state (h : ∀ i, s'.state i = .done ↔ s.state i = .done)
    (hcode : s'.code = s.code) : potential c n now due s' = potential c n now due s := by
  refine Finset.sum_congr rfl (fun i _ => ?_)
  rw [ticksLeft, ticksLeft, hcode]
  simp only [h i]

-- Some process is given the processor, nothing else happens.
structure Switched (s s' : Scheduler) : Prop where
  code : s'.code = s.code
  cpuBusy : s'.cpuBusy = s.cpuBusy
  done : ∀ i, s'.state i = .done ↔ s.state i = .done

theorem Loose.nextProcPid (h : Loose c n now due s) (hpid : pid < n)
    (hready : s.state pid = .ready) (hidle : ∀ i, s.state i ≠ .running)
    (hwait : c.processSwitchBehavior = .onEnd → ∀ i, s.state i ≠ .waiting) :
    nextProcPid pid s =
        some { s with currProc := pid, state := Function.update s.state pid .running } ∧
      Good c n now due
        { s with currProc := pid, state := Function.update s.state pid .running } := by
  refine ⟨moveTo_some hready, ⟨hpid, fun i hi => ?_, fun i => ?_, h.finish, h.future,
    fun hend i hi => ?_, fun i hi => ?_⟩, fun i _ _ => Or.inl (Function.update_self ..)⟩
  · by_contra hne
    change Function.update s.state pid .running i = .running at hi
    rw [Function.update_of_ne hne] at hi
    exact hidle i hi
  · change Function.update s.state pid .running i = .waiting ↔ _
    rcases eq_or_ne i pid with rfl | hne
    · rw [Function.update_self, ← h.waiting i, hready]
      simp
    · rw [Function.update_of_ne hne]
      exact h.waiting i
  · change Function.update s.state pid .running i = .waiting at hi
    rcases eq_or_ne i pid with rfl | hne
    · rfl
    · rw [Function.update_of_ne hne] at hi
      exact absurd hi (hwait hend i)
  · change Function.update s.state pid .running i = .done at hi
    rcases eq_or_ne i pid with rfl | hne
    · rw [Function.update_self] at hi
      cases hi
    · rw [Function.update_of_ne hne] at hi
      exact h.done i hi

theorem switched_update {state : ProcState} (curr : ℕ) (hold : s.state pid ≠ .done)
    (hnew : state ≠ .done) :
    Switched s { s with currProc := curr, state := Function.update s.state pid state } := by
  refine ⟨rfl, rfl, fun i => ?_⟩
  change Function.update s.state pid state i = .done ↔ _
  rcases eq_or_ne i pid with rfl | hne
  · rw [Function.update_self]
    exact iff_of_false hnew hold
  · rw [Function.update_of_ne hne]

theorem switched_nextProcPid (hready : s.state pid = .ready) :
    Switched s { s with currProc := pid, state := Function.update s.state pid .running } :=
  switched_update pid (by rw [hready]; nofun) nofun

theorem Loose.nextProc (h : Loose c n now due s) (hidle : ∀ i, s.state i ≠ .running)
    (hwait : c.processSwitchBehavior = .onEnd → ∀ i, s.state i ≠ .waiting) :
    ∃ s', nextProc n s = some s' ∧ Good c n now due s' ∧ Switched s s' := by
  have hall : ∀ i < n, i ∈ List.range' (s.currProc + 1) (n - (s.currProc + 1)) ++
      List.range (s.currProc + 1) := by
    intro i hi
    rw [List.mem_append, List.mem_range'_1, List.mem_range]
    omega
  have hcurr := h.curr
  rw [ProcessRun.nextProc]
  cases hfind : (List.range' (s.currProc + 1) (n - (s.currProc + 1)) ++
      List.range (s.currProc + 1)).find? (fun pid => s.state pid = .ready) with
  | none =>
    refine ⟨s, rfl, ⟨h, fun i hi hready => ?_⟩, rfl, rfl, fun i => Iff.rfl⟩
    have hno := List.find?_eq_none.mp hfind i (hall i hi)
    simp [hready] at hno
  | some pid =>
    have hready : s.state pid = .ready := by simpa using List.find?_some hfind
    have hmem := List.mem_of_find?_eq_some hfind
    rw [List.mem_append, List.mem_range'_1, List.mem_range] at hmem
    obtain ⟨hnext, hgood⟩ := h.nextProcPid (by omega) hready hidle hwait
    exact ⟨_, hnext, hgood, switched_nextProcPid hready⟩

-- The running process is stopped: nobody runs, and with -S SWITCH_ON_END nobody waits.
theorem Loose.stop {state : ProcState} (h : Loose c n now due s)
    (hrunning : s.state s.currProc = .running)
    (hstate : state = .ready ∨ state = .done ∧ s.code s.currProc = []) :
    Loose c n now due { s with state := Function.update s.state s.currProc state } ∧
      (∀ i, Function.update s.state s.currProc state i ≠ .running) ∧
      (c.processSwitchBehavior = .onEnd →
        ∀ i, Function.update s.state s.currProc state i ≠ .waiting) := by
  have hothers : ∀ i, i ≠ s.currProc →
      Function.update s.state s.currProc state i = s.state i :=
    fun i hi => Function.update_of_ne hi _ _
  have hself : Function.update s.state s.currProc state s.currProc = state :=
    Function.update_self ..
  have hidle : ∀ i, Function.update s.state s.currProc state i ≠ .running := by
    intro i hi
    rcases eq_or_ne i s.currProc with rfl | hne
    · rw [hself] at hi
      rcases hstate with rfl | ⟨rfl, -⟩ <;> cases hi
    · exact hne (h.running i ((hothers i hne).symm.trans hi))
  have hold : ∀ i, Function.update s.state s.currProc state i = .waiting ↔
      s.state i = .waiting := by
    intro i
    rcases eq_or_ne i s.currProc with rfl | hne
    · rw [hself, hrunning]
      rcases hstate with rfl | ⟨rfl, -⟩ <;> simp
    · rw [hothers i hne]
  refine ⟨⟨h.curr, fun i hi => absurd hi (hidle i), fun i => (hold i).trans (h.waiting i), h.finish,
    h.future, fun hend i hi => h.onEnd hend i ((hold i).mp hi), fun i hi => ?_⟩, hidle,
    fun hend i hi => ?_⟩
  · change Function.update s.state s.currProc state i = .done at hi
    rcases eq_or_ne i s.currProc with rfl | hne
    · rw [hself] at hi
      rcases hstate with rfl | ⟨-, hempty⟩
      · cases hi
      · exact hempty
    · exact h.done i ((hothers i hne).symm.trans hi)
  · have hwaiting := (hold i).mp hi
    rw [h.onEnd hend i hwaiting, hrunning] at hwaiting
    cases hwaiting

theorem Good.checkIfDone (h : Good c n now due s) : ∃ s', checkIfDone n s = some s' ∧
    Good c n now due s' ∧ work n s' = work n s ∧
    potential c n now due s' ≤ potential c n now due s ∧
    (s.state s.currProc = .running → s.code s.currProc = [] →
      potential c n now due s' < potential c n now due s) := by
  rw [ProcessRun.checkIfDone]
  by_cases hempty : (s.code s.currProc).length = 0
  · rw [if_pos hempty]
    by_cases hrunning : s.state s.currProc = .running
    · have hdone : ∀ i, i ≠ s.currProc →
          Function.update s.state s.currProc .done i = s.state i :=
        fun i hi => Function.update_of_ne hi _ _
      obtain ⟨hloose, hidle, hwait⟩ :=
        h.stop hrunning (Or.inr ⟨rfl, List.length_eq_zero_iff.mp hempty⟩)
      obtain ⟨s', hnext, hgood, hswitched⟩ := hloose.nextProc hidle hwait
      have hlt : potential c n now due s' < potential c n now due s := by
        rw [potential_state hswitched.done hswitched.code]
        refine Finset.sum_lt_sum (fun i _ => ?_)
          ⟨s.currProc, Finset.mem_range.mpr h.curr, ?_⟩
        · change ticksLeft c (now i) (due i) (s.code i)
            (Function.update s.state s.currProc .done i) ≤ _
          rcases eq_or_ne i s.currProc with rfl | hne
          · rw [Function.update_self, ticksLeft, ticksLeft, hrunning]
            simp
          · rw [hdone i hne]
        · change ticksLeft c (now s.currProc) (due s.currProc) (s.code s.currProc)
            (Function.update s.state s.currProc .done s.currProc) < _
          rw [Function.update_self, ticksLeft, ticksLeft, hrunning]
          simp
      refine ⟨s', ?_, hgood, ?_, Int.le_of_lt hlt, fun _ _ => hlt⟩
      · rw [if_pos hrunning, moveToDone, moveTo_some hrunning]
        exact hnext
      · rw [work, work, hswitched.code, hswitched.cpuBusy]
    · rw [if_neg hrunning]
      exact ⟨s, rfl, h, rfl, Int.le_refl _, fun hc => absurd hc hrunning⟩
  · rw [if_neg hempty]
    exact ⟨s, rfl, h, rfl, Int.le_refl _, fun _ hc => absurd (by rw [hc]; rfl) hempty⟩

theorem getNumRunnable_of_done (h : ∀ i, (s'.state i = .ready ∨ s'.state i = .running) ↔
    (s.state i = .ready ∨ s.state i = .running)) : getNumRunnable n s' = getNumRunnable n s := by
  rw [getNumRunnable, getNumRunnable]
  simp only [h]

theorem only_runnable (hpid : pid < n) (hready : s.state pid = .ready) :
    getNumRunnable n s = 1 ↔
      ∀ i < n, s.state i = .ready ∨ s.state i = .running → i = pid := by
  have hmem : ∀ i, i ∈ (List.range n).filter (fun pid => s.state pid = .ready ∨
      s.state pid = .running) ↔ i < n ∧ (s.state i = .ready ∨ s.state i = .running) := by
    intro i
    rw [List.mem_filter, List.mem_range, decide_eq_true_eq]
  have hself := (hmem pid).mpr ⟨hpid, Or.inl hready⟩
  constructor
  · intro hone i hi hrunnable
    obtain ⟨x, hx⟩ := List.length_eq_one_iff.mp hone
    have hi' := (hmem i).mpr ⟨hi, hrunnable⟩
    rw [hx] at hi' hself
    exact (List.mem_singleton.mp hi').trans (List.mem_singleton.mp hself).symm
  · intro honly
    have hnodup : ((List.range n).filter (fun pid => s.state pid = .ready ∨
        s.state pid = .running)).Nodup := List.nodup_range.filter _
    have hsub : (List.range n).filter (fun pid => s.state pid = .ready ∨
        s.state pid = .running) ⊆ [pid] := by
      intro i hi
      obtain ⟨hi, hrunnable⟩ := (hmem i).mp hi
      exact List.mem_singleton.mpr (honly i hi hrunnable)
    have hle := (hnodup.subperm hsub).length_le
    exact Nat.le_antisymm hle (List.length_pos_of_mem hself)

-- The state in which the end of an I/O is handled.
def woken (pid : ℕ) (s : Scheduler) : Scheduler :=
  { s with state := Function.update s.state pid .ready }

theorem Good.woken (h : Good c n now due s) (hdue : due pid = some clock)
    (hnow : now pid + 1 = clock) : Loose c n (Function.update now pid clock)
      (Function.update due pid none) (woken pid s) := by
  have hwaiting : s.state pid = .waiting := (h.waiting pid).mpr (by simp [hdue])
  have hothers : ∀ i, i ≠ pid → (ProcessRun.woken pid s).state i = s.state i :=
    fun i hi => Function.update_of_ne hi _ _
  have hself : (ProcessRun.woken pid s).state pid = .ready := Function.update_self ..
  refine ⟨h.curr, fun i hi => ?_, fun i => ?_, fun i t ht => ?_, fun i t hi => ?_,
    fun hend i hi => ?_, fun i hi => ?_⟩
  · rcases eq_or_ne i pid with rfl | hne
    · rw [hself] at hi
      cases hi
    · exact h.running i ((hothers i hne).symm.trans hi)
  · rcases eq_or_ne i pid with rfl | hne
    · rw [hself, Function.update_self]
      simp
    · rw [hothers i hne, Function.update_of_ne hne]
      exact h.waiting i
  · rcases eq_or_ne i pid with rfl | hne
    · rw [Function.update_self] at ht ⊢
      refine (h.finish i t (by omega)).trans (iff_of_false (fun hc => ?_) (by simp))
      have heq := Option.some.inj (hdue.symm.trans hc)
      omega
    · rw [Function.update_of_ne hne] at ht ⊢
      exact h.finish i t ht
  · rcases eq_or_ne i pid with rfl | hne
    · rw [Function.update_self] at hi
      cases hi
    · rw [Function.update_of_ne hne] at hi ⊢
      exact h.future i t hi
  · rcases eq_or_ne i pid with rfl | hne
    · exact h.onEnd hend i hwaiting
    · exact h.onEnd hend i ((hothers i hne).symm.trans hi)
  · rcases eq_or_ne i pid with rfl | hne
    · rw [hself] at hi
      cases hi
    · exact h.done i ((hothers i hne).symm.trans hi)

theorem switched_woken (hwaiting : s.state pid = .waiting) : Switched s (woken pid s) :=
  switched_update s.currProc (by rw [hwaiting]; nofun) nofun

theorem Switched.trans {s'' : Scheduler} (h : Switched s s') (h' : Switched s' s'') :
    Switched s s'' :=
  ⟨h'.code.trans h.code, h'.cpuBusy.trans h.cpuBusy, fun i => (h'.done i).trans (h.done i)⟩

theorem runImmediate_good (h : Loose c n now due s) (hpid : pid < n)
    (hready : s.state pid = .ready)
    (hwait : c.processSwitchBehavior = .onEnd → ∀ i, s.state i ≠ .waiting) :
    ∃ s', runImmediate pid s = some s' ∧ Good c n now due s' ∧ Switched s s' := by
  rw [runImmediate]
  by_cases hother : s.currProc ≠ pid ∧ s.state s.currProc = .running
  · obtain ⟨hloose, hidle, hnowait⟩ := h.stop hother.2 (Or.inl rfl)
    have hready' : Function.update s.state s.currProc .ready pid = .ready := by
      rw [Function.update_of_ne (Ne.symm hother.1), hready]
    obtain ⟨hnext, hgood⟩ := hloose.nextProcPid hpid hready' hidle hnowait
    have hpreempted : Switched s { s with state := Function.update s.state s.currProc .ready } :=
      switched_update s.currProc (by rw [hother.2]; nofun) nofun
    refine ⟨_, ?_, hgood, hpreempted.trans (switched_nextProcPid hready')⟩
    rw [if_pos hother, moveToReady, moveTo_some hother.2]
    exact hnext
  · have hidle : ∀ i, s.state i ≠ .running := by
      intro i hi
      have hcurr := h.running i hi
      subst hcurr
      refine hother ⟨fun hc => ?_, hi⟩
      rw [hc, hready] at hi
      cases hi
    obtain ⟨hnext, hgood⟩ := h.nextProcPid hpid hready hidle hwait
    rw [if_neg hother]
    exact ⟨_, hnext, hgood, switched_nextProcPid hready⟩

theorem runLater_good (h : Loose c n now due s) (hpid : pid < n)
    (hready : s.state pid = .ready)
    (hwait : c.processSwitchBehavior = .onEnd →
      ∀ i, s.state i ≠ .waiting ∧ s.state i ≠ .running)
    (hbusy : c.processSwitchBehavior = .onIo → ∀ i < n, i ≠ pid → s.state i = .ready →
      s.state s.currProc = .running) :
    ∃ s', runLater c n pid s = some s' ∧ Good c n now due s' ∧ Switched s s' := by
  rw [runLater]
  have honly := only_runnable hpid hready
  by_cases hmore : c.processSwitchBehavior = .onEnd ∧ 1 < getNumRunnable n s
  · obtain ⟨hnext, hgood⟩ := h.nextProcPid hpid hready (fun i => (hwait hmore.1 i).2)
      (fun hend i => (hwait hend i).1)
    refine ⟨_, ?_, hgood, switched_nextProcPid hready⟩
    rw [if_pos hmore, hnext]
    refine if_neg (fun hone => ?_)
    rw [getNumRunnable_of_done (s := s) (fun i => ?_)] at hone
    · omega
    · change (Function.update s.state pid .running i = .ready ∨
        Function.update s.state pid .running i = .running) ↔ _
      rcases eq_or_ne i pid with rfl | hne
      · rw [Function.update_self, hready]
        simp
      · rw [Function.update_of_ne hne]
  · rw [if_neg hmore]
    change ∃ s', (if getNumRunnable n s = 1 then nextProcPid pid s else some s) = some s' ∧ _
    by_cases hone : getNumRunnable n s = 1
    · have hidle : ∀ i, s.state i ≠ .running := by
        intro i hi
        have hcurr := h.running i hi
        have hsame := (honly.mp hone) i (hcurr ▸ h.curr) (Or.inr hi)
        rw [hsame, hready] at hi
        cases hi
      obtain ⟨hnext, hgood⟩ := h.nextProcPid hpid hready hidle
        (fun hend i => (hwait hend i).1)
      rw [if_pos hone]
      exact ⟨_, hnext, hgood, switched_nextProcPid hready⟩
    · have hrunning : s.state s.currProc = .running := by
        by_contra hno
        refine hone (honly.mpr (fun i hi hrunnable => ?_))
        by_contra hne
        rcases hrunnable with hr | hr
        · cases hswitch : c.processSwitchBehavior with
          | onIo => exact hno (hbusy hswitch i hi hne hr)
          | onEnd =>
            refine hmore ⟨hswitch, ?_⟩
            have hpos : 0 < getNumRunnable n s :=
              List.length_pos_of_mem
                (List.mem_filter.mpr ⟨List.mem_range.mpr hpid, by simp [hready]⟩)
            omega
        · exact hno (h.running i hr ▸ hr)
      rw [if_neg hone]
      exact ⟨s, rfl, ⟨h, fun _ _ _ => Or.inl hrunning⟩, rfl, rfl, fun i => Iff.rfl⟩

end ProcessRun
