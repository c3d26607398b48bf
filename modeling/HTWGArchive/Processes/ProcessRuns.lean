import HTWGArchive.Processes.ProcessInvariant
import Mathlib.Algebra.BigOperators.Fin

namespace ProcessRun

variable {c : Config} {n pid : ℕ} {s s' : Scheduler} {now : ℕ → ℤ} {due : ℕ → Option ℤ} {clock : ℤ}

theorem Switched.work (h : Switched s s') (n : ℕ) : work n s' = work n s := by
  rw [ProcessRun.work, ProcessRun.work, h.code, h.cpuBusy]

theorem potential_woken (hpid : pid < n) (hdue : due pid = some clock) (hnow : now pid + 1 = clock)
    (hswitched : Switched s s') :
    potential c n (Function.update now pid clock) (Function.update due pid none) s' <
      potential c n now due s := by
  rw [potential_state hswitched.done hswitched.code]
  refine Finset.sum_lt_sum (fun i _ => ?_) ⟨pid, Finset.mem_range.mpr hpid, ?_⟩
  · rcases eq_or_ne i pid with rfl | hne
    · rw [Function.update_self, Function.update_self, hdue, ticksLeft, ticksLeft]
      simp only [wait]
      omega
    · rw [Function.update_of_ne hne, Function.update_of_ne hne]
  · rw [Function.update_self, Function.update_self, hdue, ticksLeft, ticksLeft]
    simp only [wait]
    omega

-- The end of an I/O, if it is due.
theorem Good.ioFinish (h : Good c n now due s) (hpid : pid < n) (hnow : now pid + 1 = clock) :
    ∃ s' due', ioFinish c n clock s pid = some s' ∧
      Good c n (Function.update now pid clock) due' s' ∧ work n s' = work n s ∧
      (due pid ≠ none → potential c n (Function.update now pid clock) due' s' <
        potential c n now due s) ∧
      potential c n (Function.update now pid clock) due' s' ≤ potential c n now due s ∧
      (due pid = none → s' = s ∧ due' = due) ∧ ∀ i, i ≠ pid → due' i = due i := by
  rw [ProcessRun.ioFinish]
  have hiff := h.finish pid clock (by omega)
  by_cases hdue : due pid = some clock
  · have hwaiting : s.state pid = .waiting := (h.waiting pid).mpr (by simp [hdue])
    have hloose := h.woken hdue hnow
    have hready : (ProcessRun.woken pid s).state pid = .ready := Function.update_self ..
    have hothers : ∀ i, i ≠ pid → (ProcessRun.woken pid s).state i = s.state i :=
      fun i hi => Function.update_of_ne hi _ _
    have hend : c.processSwitchBehavior = .onEnd → ∀ i,
        (ProcessRun.woken pid s).state i ≠ .waiting ∧
          (ProcessRun.woken pid s).state i ≠ .running := by
      intro hend i
      rcases eq_or_ne i pid with rfl | hne
      · rw [hready]
        exact ⟨nofun, nofun⟩
      · rw [hothers i hne]
        have hcurr := h.onEnd hend pid hwaiting
        exact ⟨fun hc => hne ((h.onEnd hend i hc).trans hcurr.symm),
          fun hc => hne ((h.running i hc).trans hcurr.symm)⟩
    have hhandled : ∃ s', runFinished c n pid (ProcessRun.woken pid s) = some s' ∧
        Good c n (Function.update now pid clock) (Function.update due pid none) s' ∧
        Switched (ProcessRun.woken pid s) s' := by
      rw [runFinished]
      cases c.ioDoneBehavior with
      | runImmediate => exact runImmediate_good hloose hpid hready (fun he i => (hend he i).1)
      | runLater =>
        refine runLater_good hloose hpid hready hend (fun hio i hi hne hr => ?_)
        rcases h.busy i hi ((hothers i hne).symm.trans hr) with hrunning | ⟨hc, -⟩
        · have hne' : s.currProc ≠ pid := by
            intro hc
            rw [hc, hwaiting] at hrunning
            cases hrunning
          exact (hothers _ hne').trans hrunning
        · rw [hio] at hc
          cases hc
    obtain ⟨s₁, hhandle, hgood₁, hswitched⟩ := hhandled
    obtain ⟨s₂, hcheck, hgood₂, hwork, hle, -⟩ := hgood₁.checkIfDone
    have hall := (switched_woken hwaiting).trans hswitched
    have hlt := Int.lt_of_le_of_lt hle (potential_woken (c := c) hpid hdue hnow hall)
    refine ⟨s₂, _, ?_, hgood₂, hwork.trans (hall.work n), fun _ => hlt, Int.le_of_lt hlt,
      fun hc => absurd (hdue.symm.trans hc) nofun, fun i hi => Function.update_of_ne hi _ _⟩
    rw [if_pos (hiff.mpr hdue), moveToReady, moveTo_some hwaiting]
    change (runFinished c n pid (ProcessRun.woken pid s)).bind (ProcessRun.checkIfDone n) = _
    rw [hhandle]
    exact hcheck
  · have hpast : ∀ i t, due i = some t → Function.update now pid clock i < t := by
      intro i t hi
      have hfuture := (h.future i t hi).2
      rcases eq_or_ne i pid with rfl | hne
      · rw [Function.update_self]
        have hne : t ≠ clock := fun hc => hdue (hc ▸ hi)
        omega
      · rwa [Function.update_of_ne hne]
    have hnow' : ∀ i, now i ≤ Function.update now pid clock i := by
      intro i
      rcases eq_or_ne i pid with rfl | hne
      · rw [Function.update_self]
        omega
      · rw [Function.update_of_ne hne]
    have hwait : ∀ i, wait (Function.update now pid clock i) (due i) ≤ wait (now i) (due i) := by
      intro i
      have hle := hnow' i
      cases due i with
      | none => exact Int.le_refl _
      | some t =>
        simp only [wait]
        omega
    rw [if_neg (fun hc => hdue (hiff.mp hc))]
    refine ⟨s, due, rfl, ⟨⟨h.curr, h.running, h.waiting, fun i t ht => ?_, fun i t hi => ?_,
      h.onEnd, h.done⟩, h.busy⟩, rfl, fun hc => ?_, ?_, fun _ => ⟨rfl, rfl⟩, fun i _ => rfl⟩
    · exact h.finish i t (Int.lt_of_le_of_lt (hnow' i) ht)
    · exact ⟨(h.future i t hi).1, hpast i t hi⟩
    · refine Finset.sum_lt_sum (fun i _ => Int.add_le_add_left (hwait i) _)
        ⟨pid, Finset.mem_range.mpr hpid, Int.add_lt_add_left ?_ _⟩
      obtain ⟨t, ht⟩ := Option.ne_none_iff_exists'.mp hc
      rw [ht, Function.update_self]
      simp only [wait]
      omega
    · exact Finset.sum_le_sum (fun i _ => Int.add_le_add_left (hwait i) _)

-- The processes below `k` have been looked at.
theorem Good.ioFinish_fold (h : Good c n (fun _ => clock) due s) :
    ∀ k ≤ n, ∃ s' due', (List.range k).foldlM (ProcessRun.ioFinish c n (clock + 1)) s = some s' ∧
      Good c n (fun i => if i < k then clock + 1 else clock) due' s' ∧ work n s' = work n s ∧
      potential c n (fun i => if i < k then clock + 1 else clock) due' s' ≤
        potential c n (fun _ => clock) due s ∧
      ((∀ i < k, due i = none) → s' = s) ∧
      ((∃ i < k, due i ≠ none) → potential c n (fun i => if i < k then clock + 1 else clock) due'
        s' < potential c n (fun _ => clock) due s) ∧ ∀ i, k ≤ i → due' i = due i := by
  intro k
  induction k with
  | zero =>
    intro _
    exact ⟨s, due, rfl, h, rfl, Int.le_refl _, fun _ => rfl,
      fun ⟨i, hi, _⟩ => absurd hi (Nat.not_lt_zero i), fun i _ => rfl⟩
  | succ k ih =>
    intro hk
    obtain ⟨s₁, due₁, hfold, hgood, hwork, hle, hsame, hlt, hrest⟩ := ih (by omega)
    have hkn : k < n := by omega
    have hclock : (fun i => if i < k then clock + 1 else clock) k + 1 = clock + 1 := by simp
    obtain ⟨s₂, due₂, hfinish, hgood', hwork', hlt', hle', hsame', hrest'⟩ :=
      hgood.ioFinish hkn hclock
    have hnow : Function.update (fun i => if i < k then clock + 1 else clock) k (clock + 1) =
        fun i => if i < k + 1 then clock + 1 else clock := by
      funext i
      rcases eq_or_ne i k with rfl | hne
      · rw [Function.update_self, if_pos (Nat.lt_succ_self i)]
      · rw [Function.update_of_ne hne]
        have hiff : i < k ↔ i < k + 1 := by omega
        simp only [hiff]
    rw [hnow] at hgood' hlt' hle'
    refine ⟨s₂, due₂, ?_, hgood', hwork'.trans hwork, Int.le_trans hle' hle, fun hnone => ?_,
      fun ⟨i, hi, hdue⟩ => ?_, fun i hi => (hrest' i (by omega)).trans (hrest i (by omega))⟩
    · rw [List.range_succ, List.foldlM_append, hfold]
      simpa using hfinish
    · have hk' : due₁ k = none := (hrest k (Nat.le_refl k)).trans (hnone k (Nat.lt_succ_self k))
      exact (hsame' hk').1.trans (hsame (fun i hi => hnone i (by omega)))
    · rcases Nat.lt_succ_iff_lt_or_eq.mp hi with hi | rfl
      · exact Int.lt_of_le_of_lt hle' (hlt ⟨i, hi, hdue⟩)
      · refine Int.lt_of_lt_of_le (hlt' ?_) hle
        rwa [hrest i (Nat.le_refl i)]

theorem sum_range_change {M : Type*} [AddCommMonoid M] {f g : ℕ → M} {j : ℕ} (hj : j < n)
    (hothers : ∀ i, i ≠ j → g i = f i) :
    ∑ i ∈ Finset.range n, g i + f j = ∑ i ∈ Finset.range n, f i + g j := by
  have hmem := Finset.mem_range.mpr hj
  rw [← Finset.sum_erase_add _ _ hmem, ← Finset.sum_erase_add _ f hmem, add_right_comm]
  congr 2
  exact Finset.sum_congr rfl (fun i hi => hothers i (Finset.ne_of_mem_erase hi))

theorem execute_idle (h : s.state s.currProc = .running → s.code s.currProc = []) :
    execute c n clock s = some s := by
  rw [execute]
  split
  · rename_i hrunning hcode
    exact absurd ((h hrunning).symm.trans hcode) nofun
  · rfl

-- The current process after its next instruction, and after one that is an I/O.
def popped (code : List Instruction) (s : Scheduler) : Scheduler :=
  { s with
    code := Function.update s.code s.currProc code
    cpuBusy := s.cpuBusy + 1 }

def issued (c : Config) (clock : ℤ) (s : Scheduler) : Scheduler :=
  { s with
    state := Function.update s.state s.currProc .waiting
    ioFinishTimes := Function.update s.ioFinishTimes s.currProc
      (s.ioFinishTimes s.currProc ++ [clock + c.ioLength]) }

theorem execute_running {instruction : Instruction} {code : List Instruction}
    (hrunning : s.state s.currProc = .running) (hcode : s.code s.currProc = instruction :: code) :
    execute c n clock s = if instruction = .io then issueIo c n clock (popped code s)
      else some (popped code s) := by
  simp only [execute, hrunning, hcode]
  rfl

theorem Good.popped {instruction : Instruction} {code : List Instruction}
    (h : Good c n now due s) (hrunning : s.state s.currProc = .running)
    (hcode : s.code s.currProc = instruction :: code) :
    Good c n now due (popped code s) ∧ work n (ProcessRun.popped code s) = work n s ∧
      potential c n now due (ProcessRun.popped code s) + (1 + c.ioLength) =
        potential c n now due s := by
  have hothers : ∀ i, i ≠ s.currProc → (ProcessRun.popped code s).code i = s.code i :=
    fun i hi => Function.update_of_ne hi _ _
  have hself : (ProcessRun.popped code s).code s.currProc = code := Function.update_self ..
  refine ⟨⟨⟨h.curr, h.running, h.waiting, h.finish, h.future, h.onEnd, fun i hi => ?_⟩, h.busy⟩,
    ?_, ?_⟩
  · have hne : i ≠ s.currProc := by
      rintro rfl
      exact absurd (hrunning.symm.trans hi) nofun
    exact (hothers i hne).trans (h.done i hi)
  · have hsum := sum_range_change (f := fun i => (s.code i).length)
      (g := fun i => ((ProcessRun.popped code s).code i).length) h.curr
      (fun i hi => by rw [hothers i hi])
    simp only [hself, hcode, List.length_cons] at hsum
    change s.cpuBusy + 1 + _ = s.cpuBusy + _
    omega
  · have hsum := sum_range_change
      (f := fun i => ticksLeft c (now i) (due i) (s.code i) (s.state i))
      (g := fun i => ticksLeft c (now i) (due i) ((ProcessRun.popped code s).code i) (s.state i))
      h.curr (fun i hi => by rw [hothers i hi])
    have hmore : ((code.length + 1 : ℕ) : ℤ) * (1 + c.ioLength) =
        code.length * (1 + c.ioLength) + (1 + c.ioLength) := by
      rw [Int.natCast_succ, Int.add_mul, Int.one_mul]
    simp only [hself, hcode, ticksLeft, List.length_cons, hmore] at hsum
    rw [potential, potential]
    simp only [ticksLeft]
    change ∑ i ∈ Finset.range n, (((ProcessRun.popped code s).code i).length * (1 + c.ioLength) +
      (if s.state i = .done then 0 else 1) + wait (now i) (due i)) + _ = _
    omega

theorem Good.issued (h : Good c n (fun _ => clock) due s)
    (hrunning : s.state s.currProc = .running) (hlength : 0 < c.ioLength) :
    Loose c n (fun _ => clock) (Function.update due s.currProc (some (clock + c.ioLength)))
        (issued c clock s) ∧
      (∀ i, (ProcessRun.issued c clock s).state i ≠ .running) ∧
      potential c n (fun _ => clock)
        (Function.update due s.currProc (some (clock + c.ioLength)))
        (ProcessRun.issued c clock s) = potential c n (fun _ => clock) due s + c.ioLength := by
  have hothers : ∀ i, i ≠ s.currProc → (ProcessRun.issued c clock s).state i = s.state i :=
    fun i hi => Function.update_of_ne hi _ _
  have hself : (ProcessRun.issued c clock s).state s.currProc = .waiting :=
    Function.update_self ..
  have hnone : due s.currProc = none := by
    by_contra hc
    exact absurd (hrunning.symm.trans ((h.waiting _).mpr hc)) nofun
  have hidle : ∀ i, (ProcessRun.issued c clock s).state i ≠ .running := by
    intro i hi
    rcases eq_or_ne i s.currProc with rfl | hne
    · exact absurd (hself.symm.trans hi) nofun
    · exact hne (h.running i ((hothers i hne).symm.trans hi))
  refine ⟨⟨h.curr, fun i hi => absurd hi (hidle i), fun i => ?_, fun i t ht => ?_, fun i t hi => ?_,
    fun hend i hi => ?_, fun i hi => ?_⟩, hidle, ?_⟩
  · rcases eq_or_ne i s.currProc with rfl | hne
    · rw [hself, Function.update_self]
      simp
    · rw [hothers i hne, Function.update_of_ne hne]
      exact h.waiting i
  · change t ∈ Function.update s.ioFinishTimes s.currProc _ i ↔ _
    rcases eq_or_ne i s.currProc with rfl | hne
    · have hold : t ∉ s.ioFinishTimes s.currProc := by
        rw [h.finish _ t ht, hnone]
        nofun
      rw [Function.update_self, Function.update_self, List.mem_append, List.mem_singleton,
        Option.some.injEq]
      exact (or_iff_right hold).trans eq_comm
    · rw [Function.update_of_ne hne, Function.update_of_ne hne]
      exact h.finish i t ht
  · rcases eq_or_ne i s.currProc with rfl | hne
    · rw [Function.update_self] at hi
      obtain rfl := Option.some.inj hi
      exact ⟨h.curr, by omega⟩
    · rw [Function.update_of_ne hne] at hi
      exact h.future i t hi
  · by_contra hne
    exact hne (h.onEnd hend i ((hothers i hne).symm.trans hi))
  · rcases eq_or_ne i s.currProc with rfl | hne
    · exact absurd (hself.symm.trans hi) nofun
    · exact h.done i ((hothers i hne).symm.trans hi)
  · have hsum := sum_range_change
      (f := fun i => ticksLeft c clock (due i) (s.code i) (s.state i))
      (g := fun i => ticksLeft c clock
        (Function.update due s.currProc (some (clock + c.ioLength)) i) (s.code i)
        ((ProcessRun.issued c clock s).state i))
      h.curr (fun i hi => by rw [hothers i hi, Function.update_of_ne hi])
    have hnever : wait clock none = 0 := rfl
    have hlater : wait clock (some (clock + c.ioLength)) = c.ioLength := by
      simp only [wait]
      omega
    simp only [hself, hnone, hrunning, Function.update_self, ticksLeft, hnever, hlater] at hsum
    rw [potential, potential]
    simp only [ticksLeft]
    change ∑ i ∈ Finset.range n, ((s.code i).length * (1 + c.ioLength) +
      (if (ProcessRun.issued c clock s).state i = .done then 0 else 1) + _) = _
    simp only [reduceCtorEq, if_false] at hsum
    omega

theorem Good.execute (h : Good c n (fun _ => clock) due s) (hlength : 0 < c.ioLength) :
    ∃ s' due', execute c n clock s = some s' ∧ Good c n (fun _ => clock) due' s' ∧
      work n s' = work n s ∧
      potential c n (fun _ => clock) due' s' ≤ potential c n (fun _ => clock) due s ∧
      (s.state s.currProc = .running → potential c n (fun _ => clock) due' s' <
        potential c n (fun _ => clock) due s ∨ s' = s ∧ due' = due ∧ s.code s.currProc = []) := by
  by_cases hrunning : s.state s.currProc = .running
  · cases hcode : s.code s.currProc with
    | nil =>
      exact ⟨s, due, execute_idle (fun _ => hcode), h, rfl, Int.le_refl _,
        fun _ => Or.inr ⟨rfl, rfl, rfl⟩⟩
    | cons instruction code =>
      obtain ⟨hgood, hwork, hpotential⟩ := h.popped hrunning hcode
      rw [execute_running hrunning hcode]
      cases instruction with
      | cpu =>
        exact ⟨_, due, rfl, hgood, hwork, by omega, fun _ => Or.inl (by omega)⟩
      | io =>
        obtain ⟨hloose, hidle, hadded⟩ := hgood.issued hrunning hlength
        have hissue : issueIo c n clock (ProcessRun.popped code s) =
            if c.processSwitchBehavior = .onIo then
              nextProc n (ProcessRun.issued c clock (ProcessRun.popped code s))
            else some (ProcessRun.issued c clock (ProcessRun.popped code s)) := by
          have hcurr : (ProcessRun.popped code s).state (ProcessRun.popped code s).currProc =
              .running := hrunning
          rw [issueIo, moveToWait, moveTo_some hcurr]
          rfl
        rw [if_pos rfl, hissue]
        cases hswitch : c.processSwitchBehavior with
        | onIo =>
          rw [if_pos rfl]
          obtain ⟨s', hnext, hgood', hswitched⟩ := hloose.nextProc hidle
            (fun hend => absurd (hswitch.symm.trans hend) nofun)
          have hsame : ∀ due', potential c n (fun _ => clock) due' s' =
              potential c n (fun _ => clock) due'
                (ProcessRun.issued c clock (ProcessRun.popped code s)) :=
            fun _ => potential_state hswitched.done hswitched.code
          rw [← hsame] at hadded
          refine ⟨s', _, hnext, hgood', (hswitched.work n).trans hwork, ?_, fun _ => Or.inl ?_⟩
          · omega
          · omega
        | onEnd =>
          rw [if_neg nofun]
          exact ⟨_, _, rfl, ⟨hloose, fun i _ _ => Or.inr ⟨hswitch, Function.update_self ..⟩⟩,
            hwork, by omega, fun _ => Or.inl (by omega)⟩
  · exact ⟨s, due, execute_idle (fun hc => absurd hc hrunning), h, rfl, Int.le_refl _,
      fun hc => absurd hc hrunning⟩

theorem Good.running_of_active (h : Good c n now due s) (hactive : 0 < getNumActive n s)
    (hnone : ∀ i < n, due i = none) : s.state s.currProc = .running := by
  obtain ⟨pid, hpid⟩ := List.exists_mem_of_length_pos hactive
  rw [List.mem_filter, List.mem_range, decide_eq_true_eq] at hpid
  have hwaiting : ∀ i < n, s.state i ≠ .waiting :=
    fun i hi hc => (h.waiting i).mp hc (hnone i hi)
  cases hstate : s.state pid with
  | running => exact h.running pid hstate ▸ hstate
  | ready =>
    rcases h.busy pid hpid.1 hstate with hrunning | ⟨-, hc⟩
    · exact hrunning
    · exact absurd hc (hwaiting _ h.curr)
  | done => exact absurd hstate hpid.2
  | waiting => exact absurd hstate (hwaiting pid hpid.1)

theorem Good.tick (h : Good c n (fun _ => clock) due s) (hlength : 0 < c.ioLength)
    (hactive : 0 < getNumActive n s) : ∃ s' due', tick c n (clock + 1) s = some s' ∧
      Good c n (fun _ => clock + 1) due' s' ∧ work n s' = work n s ∧
      potential c n (fun _ => clock + 1) due' s' < potential c n (fun _ => clock) due s := by
  obtain ⟨s₁, due₁, hfold, h₁, hwork₁, hle₁, hsame, hlt₁, -⟩ := h.ioFinish_fold n (Nat.le_refl n)
  have hpotential : potential c n (fun i => if i < n then clock + 1 else clock) due₁ s₁ =
      potential c n (fun _ => clock + 1) due₁ s₁ := by
    refine Finset.sum_congr rfl (fun i hi => ?_)
    simp only [Finset.mem_range.mp hi, if_true]
  rw [hpotential] at hle₁ hlt₁
  have hgood₁ : Good c n (fun _ => clock + 1) due₁ s₁ := by
    refine ⟨⟨h₁.curr, h₁.running, h₁.waiting, fun i t ht => h₁.finish i t ?_, fun i t hi => ?_,
      h₁.onEnd, h₁.done⟩, h₁.busy⟩
    · split <;> omega
    · obtain ⟨hi, hlt⟩ := h₁.future i t hi
      simp only [hi, if_true] at hlt
      exact ⟨hi, hlt⟩
  obtain ⟨s₂, due₂, hexecute, hgood₂, hwork₂, hle₂, hlt₂⟩ := hgood₁.execute hlength
  obtain ⟨s₃, hcheck, hgood₃, hwork₃, hle₃, hlt₃⟩ := hgood₂.checkIfDone
  refine ⟨s₃, due₂, ?_, hgood₃, hwork₃.trans (hwork₂.trans hwork₁), ?_⟩
  · rw [ProcessRun.tick, hfold]
    change (ProcessRun.execute c n (clock + 1) s₁).bind _ = _
    rw [hexecute]
    exact hcheck
  · by_cases hwaiting : ∃ i < n, due i ≠ none
    · have hlt := hlt₁ hwaiting
      omega
    · -- nobody waits, so the current process runs, and either its code or the process ends
      have hnone : ∀ i < n, due i = none := by
        intro i hi
        by_contra hc
        exact hwaiting ⟨i, hi, hc⟩
      have hrunning := h.running_of_active hactive hnone
      rw [← hsame hnone] at hrunning
      rcases hlt₂ hrunning with hlt | ⟨rfl, rfl, hempty⟩
      · omega
      · have hlt := hlt₃ hrunning hempty
        omega

theorem Good.potential_nonneg (h : Good c n now due s) (hlength : 0 < c.ioLength) :
    0 ≤ potential c n now due s := by
  refine Finset.sum_nonneg (fun i _ => ?_)
  have hcode : 0 ≤ ((s.code i).length : ℤ) * (1 + c.ioLength) :=
    Int.mul_nonneg (Int.natCast_nonneg _) (by omega)
  have hwait : 0 ≤ wait (now i) (due i) := by
    cases hdue : due i with
    | none => exact Int.le_refl 0
    | some t =>
      have hfuture := (h.future i t hdue).2
      simp only [wait]
      omega
  rw [ticksLeft]
  split <;> omega

theorem Good.loop (h : Good c n (fun _ => clock) due s) (hlength : 0 < c.ioLength) (ticks : ℕ)
    (hticks : potential c n (fun _ => clock) due s ≤ ticks) :
    ∃ s' clock' due', loop c n ticks clock s = some (s', clock') ∧
      Good c n (fun _ => clock') due' s' ∧ getNumActive n s' = 0 ∧ work n s' = work n s ∧
      clock' + potential c n (fun _ => clock') due' s' ≤
        clock + potential c n (fun _ => clock) due s := by
  induction ticks generalizing s due clock with
  | zero =>
    refine ⟨s, clock, due, rfl, h, ?_, rfl, Int.le_refl _⟩
    by_contra hactive
    obtain ⟨s', due', -, hgood, -, hlt⟩ := h.tick hlength (by omega)
    have hnonneg := hgood.potential_nonneg hlength
    omega
  | succ ticks ih =>
    rw [ProcessRun.loop]
    by_cases hactive : 0 < getNumActive n s
    · obtain ⟨s', due', htick, hgood, hwork, hlt⟩ := h.tick hlength hactive
      obtain ⟨s'', clock', due'', hloop, hgood', hnone, hwork', hle⟩ := ih hgood (by omega)
      rw [if_pos hactive, htick]
      exact ⟨s'', clock', due'', hloop, hgood', hnone, hwork'.trans hwork, by omega⟩
    · rw [if_neg hactive]
      exact ⟨s, clock, due, rfl, h, by omega, rfl, Int.le_refl _⟩

-- The ticks that the programs take at most.
def ticksBound (c : Config) (programs : List (List Instruction)) : ℤ :=
  (programs.map (fun code => (code.length : ℤ) * (1 + c.ioLength) + 1)).sum

-- The state in which the loop starts.
def started (programs : List (List Instruction)) : Scheduler :=
  { load programs with state := Function.update (load programs).state 0 .running }

theorem started_state (programs : List (List Instruction)) (i : ℕ) :
    (started programs).state i = if i = 0 then .running else .ready := by
  change Function.update (fun _ => ProcState.ready) 0 .running i = _
  rw [Function.update_apply]

theorem good_started (c : Config) {programs : List (List Instruction)} (h : programs ≠ []) :
    Good c programs.length (fun _ => 0) (fun _ => none) (started programs) := by
  have hstate := started_state programs
  refine ⟨⟨List.length_pos_iff.mpr h, fun i hi => ?_, fun i => ?_, fun i t _ => ?_,
    fun i t hi => absurd hi nofun, fun _ i hi => ?_, fun i hi => ?_⟩, fun i _ _ => Or.inl ?_⟩
  · rw [hstate] at hi
    split at hi
    · assumption
    · cases hi
  · refine iff_of_false (fun hi => ?_) (fun hc => hc rfl)
    rw [hstate] at hi
    split at hi <;> cases hi
  · exact iff_of_false List.not_mem_nil nofun
  · rw [hstate] at hi
    split at hi <;> cases hi
  · rw [hstate] at hi
    split at hi <;> cases hi
  · exact (hstate 0).trans (if_pos rfl)

theorem potential_started (c : Config) (programs : List (List Instruction)) :
    potential c programs.length (fun _ => 0) (fun _ => none) (started programs) =
      ticksBound c programs := by
  rw [potential, Finset.sum_range, ticksBound, ← Fin.sum_univ_fun_getElem]
  refine Finset.sum_congr rfl (fun i _ => ?_)
  have hcode : (started programs).code i = programs[i] := by simp [started, load]
  have hstate : (started programs).state i ≠ .done := by
    rw [started_state]
    split <;> nofun
  rw [ticksLeft, hcode, if_neg hstate]
  exact Int.add_zero _

theorem work_started (programs : List (List Instruction)) :
    work programs.length (started programs) = (programs.map List.length).sum := by
  rw [work, Finset.sum_range, ← Fin.sum_univ_fun_getElem]
  refine (Nat.zero_add _).trans (Finset.sum_congr rfl (fun i _ => ?_))
  simp [started, load]

-- No assertion of the scheduler fails, and it runs every instruction of every process.
theorem run_finishes (c : Config) (programs : List (List Instruction)) (hlength : 0 < c.ioLength)
    (hprograms : programs ≠ []) (ticks : ℕ) (hticks : ticksBound c programs ≤ ticks) :
    ∃ s clock, run c programs ticks = some (s, clock) ∧ clock ≤ ticksBound c programs ∧
      (∀ pid < programs.length, s.state pid = .done) ∧
      s.cpuBusy = (programs.map List.length).sum := by
  have hgood := good_started c hprograms
  have hpotential := potential_started c programs
  obtain ⟨s, clock, due, hloop, hgood', hnone, hwork, hle⟩ :=
    hgood.loop hlength ticks (by omega)
  have hnonneg := hgood'.potential_nonneg hlength
  have hdone : ∀ pid < programs.length, s.state pid = .done := by
    intro pid hpid
    by_contra hne
    have hmem : pid ∈ (List.range programs.length).filter (fun pid => s.state pid ≠ .done) := by
      rw [List.mem_filter, List.mem_range, decide_eq_true_eq]
      exact ⟨hpid, hne⟩
    exact Nat.ne_of_gt (List.length_pos_of_mem hmem) hnone
  refine ⟨s, clock, ?_, by omega, hdone, ?_⟩
  · have hready : (load programs).state (load programs).currProc = .ready := rfl
    have hlength' : ¬ programs.length = 0 := fun hc => hprograms (List.length_eq_zero_iff.mp hc)
    rw [run, if_neg hlength', moveToRunning, moveTo_some hready]
    exact hloop
  · rw [work_started] at hwork
    rw [← hwork, work, Finset.sum_eq_zero, Nat.add_zero]
    intro i hi
    rw [hgood'.done i (hdone i (Finset.mem_range.mp hi))]
    rfl

theorem run_finishes_immediate : ∃ s clock,
    run ⟨.onIo, .runImmediate, 5⟩ [[.io, .cpu, .cpu], [.cpu, .io]] 40 = some (s, clock) ∧
      clock ≤ 32 ∧ s.cpuBusy = 5 := by
  obtain ⟨s, clock, hrun, hle, -, hbusy⟩ := run_finishes ⟨.onIo, .runImmediate, 5⟩
    [[.io, .cpu, .cpu], [.cpu, .io]] (by decide) (by decide) 40 (by decide)
  exact ⟨s, clock, hrun, hle, hbusy⟩

end ProcessRun
