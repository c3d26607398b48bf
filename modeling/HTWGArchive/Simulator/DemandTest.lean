import HTWGArchive.Simulator.Hyperperiod
import HTWGArchive.Simulator.Realtime

namespace Simulator

inductive DemandCheck where
  | met
  | exceeded (tCges : ℕ)
  | undefined
  deriving DecidableEq, Repr

inductive EdfTest where
  | passed
  | failed (tCges i : ℕ)
  | undefined
  deriving DecidableEq, Repr

-- The numerator is an unsigned expression, so that `floor` sees a quotient of integers.
def demandOf (blocking : List (String × UInt32)) (i : ℕ) (task : TaskStruct) : ℕ :=
  ((UInt32.ofNat i + task.tPer - task.tD - task.tPh) / task.tPer).toNat *
    (task.tE + blockedFor (fun _ => 0) blocking task).toNat

-- A sum beyond the range of `int` has no value.
def checkDemand (blocking : List (String × UInt32)) (i : ℕ) : ℕ → List TaskStruct → DemandCheck
  | _, [] => .met
  | tCges, task :: rest =>
    let tCges := tCges + demandOf blocking i task
    if 2 ^ 31 ≤ tCges then .undefined
    else if tCges > i then .exceeded tCges
    else checkDemand blocking i tCges rest

-- `n` more values of `i`, which is an `int`.
def edfLoop (blocking : List (String × UInt32)) (tasks : List TaskStruct) : ℕ → ℕ → EdfTest
  | 0, i => if 2 ^ 31 ≤ i then .undefined else .passed
  | n + 1, i =>
    if 2 ^ 31 ≤ i then .undefined
    else
      match checkDemand blocking i 0 tasks with
      | .met => edfLoop blocking tasks n (i + 1)
      | .exceeded tCges => .failed tCges i
      | .undefined => .undefined

def realtimeNotwendigEdf (blocking : List (String × UInt32)) (tasks : List TaskStruct) : EdfTest :=
  match hyperperiod (tasks.map TaskStruct.tPer) with
  | none => .undefined
  | some kgV => edfLoop blocking tasks kgV.toNat 0

-- The term of the sum with its numerator and its factor taken modulo `2 ^ 32`.
def wrappedTerm (blocking : List (String × UInt32)) (i : ℕ) (task : TaskStruct) : ℕ :=
  (i + task.tPer.toNat + 2 ^ 33 - (task.tD.toNat + task.tPh.toNat)) % 2 ^ 32 / task.tPer.toNat *
    ((task.tE.toNat + (blockedFor (fun _ => 0) blocking task).toNat) % 2 ^ 32)

theorem demandOf_eq (blocking : List (String × UInt32)) (i : ℕ) (task : TaskStruct) :
    demandOf blocking i task = wrappedTerm blocking i task := by
  have hnum : (UInt32.ofNat i + task.tPer - task.tD - task.tPh).toNat =
      (i + task.tPer.toNat + 2 ^ 33 - (task.tD.toNat + task.tPh.toNat)) % 2 ^ 32 := by
    have hD := task.tD.toNat_lt
    have hPh := task.tPh.toNat_lt
    rw [UInt32.toNat_sub, UInt32.toNat_sub, UInt32.toNat_add, UInt32.toNat_ofNat']
    omega
  rw [demandOf, wrappedTerm, UInt32.toNat_div, UInt32.toNat_add, hnum]

section Loop

variable {blocking : List (String × UInt32)} {tasks : List TaskStruct}

def wrappedDemand (blocking : List (String × UInt32)) (i : ℕ) (tasks : List TaskStruct) : ℕ :=
  (tasks.map (wrappedTerm blocking i)).sum

theorem wrappedDemand_cons (i : ℕ) (task : TaskStruct) (rest : List TaskStruct) :
    wrappedDemand blocking i (task :: rest) =
      wrappedTerm blocking i task + wrappedDemand blocking i rest := by
  rw [wrappedDemand, List.map_cons, List.sum_cons, wrappedDemand]

theorem checkDemand_met {i tCges : ℕ} (hi : i < 2 ^ 31) (hstart : tCges ≤ i) :
    checkDemand blocking i tCges tasks = .met ↔ tCges + wrappedDemand blocking i tasks ≤ i := by
  induction tasks generalizing tCges with
  | nil => simp [checkDemand, wrappedDemand, hstart]
  | cons task rest ih =>
    rw [checkDemand, demandOf_eq, wrappedDemand_cons, ← Nat.add_assoc]
    split
    · constructor
      · exact fun h => by cases h
      · intro hle
        omega
    · split
      · constructor
        · exact fun h => by cases h
        · intro hle
          omega
      · rename_i hbelow
        exact ih (Nat.not_lt.mp hbelow)

-- `v` is the first sum over a prefix of the list that is above `i`.
def Exceeds (blocking : List (String × UInt32)) (i tCges : ℕ) (tasks : List TaskStruct) (v : ℕ) :
    Prop :=
  ∃ front task back, tasks = front ++ task :: back ∧ tCges + wrappedDemand blocking i front ≤ i ∧
    tCges + wrappedDemand blocking i (front ++ [task]) = v ∧ i < v

theorem exceeds_cons {i tCges v : ℕ} {task : TaskStruct} (hstart : tCges ≤ i) :
    Exceeds blocking i tCges (task :: tasks) v ↔
      (i < tCges + wrappedTerm blocking i task ∧ v = tCges + wrappedTerm blocking i task) ∨
        (tCges + wrappedTerm blocking i task ≤ i ∧
          Exceeds blocking i (tCges + wrappedTerm blocking i task) tasks v) := by
  constructor
  · rintro ⟨front, x, back, hsplit, hle, heq, hlt⟩
    cases front with
    | nil =>
      obtain ⟨rfl, rfl⟩ := List.cons.inj hsplit
      have hone : wrappedDemand blocking i [task] = wrappedTerm blocking i task := by simp [wrappedDemand]
      rw [List.nil_append, hone] at heq
      exact Or.inl ⟨by rw [heq]; exact hlt, heq.symm⟩
    | cons y front =>
      obtain ⟨rfl, hrest⟩ := List.cons.inj hsplit
      rw [wrappedDemand_cons] at hle
      rw [List.cons_append, wrappedDemand_cons, ← Nat.add_assoc] at heq
      exact Or.inr ⟨by omega, front, x, back, hrest, by omega, heq, hlt⟩
  · rintro (⟨hlt, rfl⟩ | ⟨_, front, x, back, rfl, hle, heq, hlt⟩)
    · refine ⟨[], task, tasks, rfl, hstart, ?_, hlt⟩
      simp [wrappedDemand]
    · refine ⟨task :: front, x, back, rfl, ?_, ?_, hlt⟩
      · rw [wrappedDemand_cons]
        omega
      · rw [List.cons_append, wrappedDemand_cons, ← Nat.add_assoc]
        exact heq

theorem checkDemand_exceeded {i tCges v : ℕ} (hi : i < 2 ^ 31) (hstart : tCges ≤ i) :
    checkDemand blocking i tCges tasks = .exceeded v ↔
      v < 2 ^ 31 ∧ Exceeds blocking i tCges tasks v := by
  induction tasks generalizing tCges with
  | nil =>
    constructor
    · exact fun h => by cases h
    · rintro ⟨_, front, x, back, hsplit, _⟩
      simp at hsplit
  | cons task rest ih =>
    rw [checkDemand, demandOf_eq, exceeds_cons hstart]
    split
    · constructor
      · exact fun h => by cases h
      · rintro ⟨hv, ⟨_, rfl⟩ | ⟨hle, _⟩⟩
        · omega
        · omega
    · split
      · rename_i hover
        constructor
        · intro h
          obtain rfl := DemandCheck.exceeded.inj h
          exact ⟨by omega, Or.inl ⟨hover, rfl⟩⟩
        · rintro ⟨_, ⟨_, rfl⟩ | ⟨hle, _⟩⟩
          · rfl
          · exact absurd hover (Nat.not_lt.mpr hle)
      · rename_i hbelow
        have hle := Nat.not_lt.mp hbelow
        rw [ih hle]
        constructor
        · exact fun h => ⟨h.1, Or.inr ⟨hle, h.2⟩⟩
        · rintro ⟨hv, ⟨hlt, _⟩ | ⟨_, hrest⟩⟩
          · exact absurd hlt hbelow
          · exact ⟨hv, hrest⟩

theorem checkDemand_zero_met {i : ℕ} (hi : i < 2 ^ 31) :
    checkDemand blocking i 0 tasks = .met ↔ wrappedDemand blocking i tasks ≤ i := by
  rw [checkDemand_met hi (Nat.zero_le i), Nat.zero_add]

theorem met_from_iff {i j : ℕ} (hi : wrappedDemand blocking i tasks ≤ i) :
    (∀ k, i ≤ k → k < j → wrappedDemand blocking k tasks ≤ k) ↔
      ∀ k, i + 1 ≤ k → k < j → wrappedDemand blocking k tasks ≤ k := by
  constructor
  · exact fun h k hk => h k (Nat.le_of_succ_le hk)
  · intro h k hk hkj
    rcases Nat.eq_or_lt_of_le hk with rfl | hk
    · exact hi
    · exact h k hk hkj

theorem eq_of_met_from {i j : ℕ} (hi : ¬wrappedDemand blocking i tasks ≤ i) (hij : i ≤ j)
    (h : ∀ k, i ≤ k → k < j → wrappedDemand blocking k tasks ≤ k) : i = j := by
  rcases Nat.eq_or_lt_of_le hij with heq | hlt
  · exact heq
  · exact absurd (h i (le_refl i) hlt) hi

theorem edfLoop_passed {n i : ℕ} :
    edfLoop blocking tasks n i = .passed ↔
      i + n < 2 ^ 31 ∧ ∀ k, i ≤ k → k < i + n → wrappedDemand blocking k tasks ≤ k := by
  induction n generalizing i with
  | zero =>
    rw [edfLoop]
    split
    · constructor
      · exact fun h => by cases h
      · intro h
        omega
    · exact iff_of_true rfl ⟨by omega, fun k hk hlt => absurd hlt (by omega)⟩
  | succ n ih =>
    rw [edfLoop]
    split
    · constructor
      · exact fun h => by cases h
      · intro h
        omega
    · rename_i hrange
      have hmet : checkDemand blocking i 0 tasks = .met ↔ wrappedDemand blocking i tasks ≤ i :=
        checkDemand_zero_met (Nat.not_le.mp hrange)
      have hstops : checkDemand blocking i 0 tasks ≠ .met →
          ¬(i + (n + 1) < 2 ^ 31 ∧ ∀ k, i ≤ k → k < i + (n + 1) → wrappedDemand blocking k tasks ≤ k) :=
        fun hcheck h => hcheck (hmet.mpr (h.2 i (le_refl i) (by omega)))
      split
      · rename_i hcheck
        rw [ih, met_from_iff (hmet.mp hcheck), Nat.add_right_comm, Nat.add_assoc]
      · rename_i hcheck
        refine iff_of_false (fun h => by cases h) (hstops ?_)
        rw [hcheck]
        exact fun h => by cases h
      · rename_i hcheck
        refine iff_of_false (fun h => by cases h) (hstops ?_)
        rw [hcheck]
        exact fun h => by cases h

theorem edfLoop_failed {n i v j : ℕ} :
    edfLoop blocking tasks n i = .failed v j ↔
      i ≤ j ∧ j < i + n ∧ j < 2 ^ 31 ∧
        (∀ k, i ≤ k → k < j → wrappedDemand blocking k tasks ≤ k) ∧ v < 2 ^ 31 ∧
          Exceeds blocking j 0 tasks v := by
  induction n generalizing i with
  | zero =>
    constructor
    · intro h
      rw [edfLoop] at h
      split at h <;> cases h
    · intro h
      omega
  | succ n ih =>
    rw [edfLoop]
    split
    · constructor
      · exact fun h => by cases h
      · intro h
        omega
    · rename_i hrange
      have hrange := Nat.not_le.mp hrange
      have hmet : checkDemand blocking i 0 tasks = .met ↔ wrappedDemand blocking i tasks ≤ i :=
        checkDemand_zero_met hrange
      have hexceeded : ∀ v, checkDemand blocking i 0 tasks = .exceeded v ↔
          v < 2 ^ 31 ∧ Exceeds blocking i 0 tasks v :=
        fun v => checkDemand_exceeded hrange (Nat.zero_le i)
      split
      · rename_i hcheck
        rw [ih, met_from_iff (hmet.mp hcheck)]
        constructor
        · rintro ⟨hij, hlt, hrest⟩
          exact ⟨by omega, by omega, hrest⟩
        · rintro ⟨hij, hlt, hsmall, hbefore, hstop⟩
          have hne : i ≠ j := by
            rintro rfl
            cases hcheck.symm.trans ((hexceeded v).mpr hstop)
          exact ⟨by omega, by omega, hsmall, hbefore, hstop⟩
      · rename_i tCges hcheck
        have hover : ¬wrappedDemand blocking i tasks ≤ i := by
          rw [← hmet, hcheck]
          exact fun h => by cases h
        constructor
        · intro h
          obtain ⟨rfl, rfl⟩ := EdfTest.failed.inj h
          exact ⟨le_refl i, by omega, hrange, fun k hk hkj => absurd hkj (by omega),
            (hexceeded tCges).mp hcheck⟩
        · rintro ⟨hij, _, _, hbefore, hstop⟩
          obtain rfl := eq_of_met_from hover hij hbefore
          rw [DemandCheck.exceeded.inj (hcheck.symm.trans ((hexceeded v).mpr hstop))]
      · rename_i hcheck
        have hover : ¬wrappedDemand blocking i tasks ≤ i := by
          rw [← hmet, hcheck]
          exact fun h => by cases h
        constructor
        · exact fun h => by cases h
        · rintro ⟨hij, _, _, hbefore, hstop⟩
          obtain rfl := eq_of_met_from hover hij hbefore
          cases hcheck.symm.trans ((hexceeded v).mpr hstop)

end Loop

-- The sum over all tasks of `max(0, floor((i + T - D - ph) / T)) * (C + B)`.
def edfDemand (blocking : List (String × UInt32)) (i : ℕ) (tasks : List TaskStruct) : ℕ :=
  (tasks.map (fun task =>
    (i + task.tPer.toNat - (task.tD.toNat + task.tPh.toNat)) / task.tPer.toNat *
      (task.tE.toNat + (blockedFor (fun _ => 0) blocking task).toNat))).sum

def FirstFailure (blocking : List (String × UInt32)) (tasks : List TaskStruct) (i : ℕ) : Prop :=
  i < periodLcm (tasks.map TaskStruct.tPer) ∧ i < edfDemand blocking i tasks ∧
    ∀ k < i, edfDemand blocking k tasks ≤ k

def Feasible (blocking : List (String × UInt32)) (tasks : List TaskStruct) : Prop :=
  ∀ i < periodLcm (tasks.map TaskStruct.tPer), edfDemand blocking i tasks ≤ i

def EdfExact (blocking : List (String × UInt32)) (tasks : List TaskStruct) : Prop :=
  (∃ tCges i, realtimeNotwendigEdf blocking tasks = .failed tCges i ∧
    FirstFailure blocking tasks i) ∨
  (realtimeNotwendigEdf blocking tasks = .passed ∧ Feasible blocking tasks)

-- `reach` is where the loop ends: the least common multiple that the wrapped products give.
structure DemandCondition (blocking : List (String × UInt32)) (tasks : List TaskStruct)
    (reach : ℕ) : Prop where
  quiet : ∀ i < reach, (∀ k ≤ i, k < periodLcm (tasks.map TaskStruct.tPer) →
    edfDemand blocking k tasks ≤ k) → wrappedDemand blocking i tasks ≤ i
  alarm : ∀ i, FirstFailure blocking tasks i → i < reach ∧ ∃ v < 2 ^ 31, Exceeds blocking i 0 tasks v
  range : Feasible blocking tasks → reach < 2 ^ 31

section Exact

variable {blocking : List (String × UInt32)} {tasks : List TaskStruct}

theorem FirstFailure.unique {i j : ℕ} (hi : FirstFailure blocking tasks i)
    (hj : FirstFailure blocking tasks j) : i = j := by
  rcases Nat.lt_trichotomy i j with hlt | rfl | hlt
  · exact absurd hi.2.1 (Nat.not_lt.mpr (hj.2.2 i hlt))
  · rfl
  · exact absurd hj.2.1 (Nat.not_lt.mpr (hi.2.2 j hlt))

theorem feasible_or_firstFailure (blocking : List (String × UInt32)) (tasks : List TaskStruct) :
    Feasible blocking tasks ∨ ∃ i, FirstFailure blocking tasks i := by
  by_cases h : ∃ i, i < periodLcm (tasks.map TaskStruct.tPer) ∧ i < edfDemand blocking i tasks
  · right
    refine ⟨Nat.find h, (Nat.find_spec h).1, (Nat.find_spec h).2, ?_⟩
    intro k hk
    have hno := Nat.find_min h hk
    have hbound := (Nat.find_spec h).1
    exact Nat.not_lt.mp (fun hlt => hno ⟨by omega, hlt⟩)
  · left
    exact fun i hi => Nat.not_lt.mp (fun hlt => h ⟨i, hi, hlt⟩)

theorem realtimeNotwendigEdf_eq (hne : tasks ≠ []) (hpos : ∀ task ∈ tasks, 1 ≤ task.tPer) :
    realtimeNotwendigEdf blocking tasks =
      edfLoop blocking tasks (wrappedLcm (tasks.map TaskStruct.tPer)) 0 := by
  have hperiods : ∀ t ∈ tasks.map TaskStruct.tPer, 1 ≤ t := by
    intro t ht
    obtain ⟨task, htask, rfl⟩ := List.mem_map.mp ht
    exact hpos task htask
  obtain ⟨v, hv, hval⟩ := hyperperiod_eq (by simpa using hne) hperiods
  rw [realtimeNotwendigEdf, hv, ← hval]

theorem DemandCondition.exact (hne : tasks ≠ []) (hpos : ∀ task ∈ tasks, 1 ≤ task.tPer)
    (hrange : periodLcm (tasks.map TaskStruct.tPer) < 2 ^ 31)
    (h : DemandCondition blocking tasks (wrappedLcm (tasks.map TaskStruct.tPer))) :
    EdfExact blocking tasks := by
  rw [EdfExact, realtimeNotwendigEdf_eq hne hpos]
  rcases feasible_or_firstFailure blocking tasks with hfeas | ⟨i, hi⟩
  · refine Or.inr ⟨?_, hfeas⟩
    rw [edfLoop_passed, Nat.zero_add]
    exact ⟨h.range hfeas, fun k _ hk => h.quiet k hk (fun j _ hj => hfeas j hj)⟩
  · obtain ⟨hreach, v, hv, hexceeds⟩ := h.alarm i hi
    refine Or.inl ⟨v, i, ?_, hi⟩
    rw [edfLoop_failed, Nat.zero_add]
    refine ⟨Nat.zero_le i, hreach, hi.1.trans hrange, ?_, hv, hexceeds⟩
    intro k _ hk
    exact h.quiet k (hk.trans hreach) (fun j hj _ => hi.2.2 j (by omega))

theorem EdfExact.condition (hne : tasks ≠ []) (hpos : ∀ task ∈ tasks, 1 ≤ task.tPer)
    (h : EdfExact blocking tasks) :
    DemandCondition blocking tasks (wrappedLcm (tasks.map TaskStruct.tPer)) := by
  rw [EdfExact, realtimeNotwendigEdf_eq hne hpos] at h
  rcases h with ⟨v, i, hfailed, hi⟩ | ⟨hpassed, hfeas⟩
  · rw [edfLoop_failed, Nat.zero_add] at hfailed
    obtain ⟨_, hreach, _, hbefore, hv, hexceeds⟩ := hfailed
    refine ⟨?_, ?_, ?_⟩
    · intro j _ hj
      have hlt : j < i := by
        rcases Nat.lt_or_ge j i with hlt | hge
        · exact hlt
        · exact absurd hi.2.1 (Nat.not_lt.mpr (hj i hge hi.1))
      exact hbefore j (Nat.zero_le j) hlt
    · intro j hj
      obtain rfl := hi.unique hj
      exact ⟨hreach, v, hv, hexceeds⟩
    · exact fun hfeas => absurd hi.2.1 (Nat.not_lt.mpr (hfeas i hi.1))
  · rw [edfLoop_passed, Nat.zero_add] at hpassed
    refine ⟨fun i hi _ => hpassed.2 i (Nat.zero_le i) hi, ?_, fun _ => hpassed.1⟩
    exact fun i hi => absurd hi.2.1 (Nat.not_lt.mpr (hfeas i hi.1))

end Exact

def demandTask (tPh tPer tD tE : UInt32) : TaskStruct :=
  template ⟨"A", tPh, tPer, tE, tD, []⟩ 0

end Simulator
