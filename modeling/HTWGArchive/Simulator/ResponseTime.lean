import HTWGArchive.Library.UpwardIteration
import HTWGArchive.Simulator.BlockingTime
import Mathlib.Algebra.Order.Floor.Div

namespace Simulator

open UpwardIteration

-- A double that does not fit has no value as `unsigned int`.
def toUnsigned (n : ℕ) : Option UInt32 :=
  if n < 2 ^ 32 then some (UInt32.ofNat n) else none

-- `ceil` sees the quotient of two integers.
def ceilQuotient (t tPer : UInt32) : Option ℕ :=
  if tPer = 0 then none else some (t / tPer).toNat

def addHigher (task : TaskStruct) (t tC : UInt32) (other : TaskStruct) : Option UInt32 :=
  if other.tD < task.tD && other.addr != task.addr then
    (ceilQuotient t other.tPer).bind (fun n => toUnsigned (tC.toNat + (n + other.tE.toNat)))
  else some tC

def notwendigRound (tBlock : UInt32) (tasks : List TaskStruct) (task : TaskStruct) (t : UInt32) :
    Option UInt32 :=
  ((ceilQuotient t task.tPer).bind (fun n => toUnsigned (task.tE.toNat + n * tBlock.toNat))).bind
    (fun tC => tasks.foldlM (addHigher task t) tC)

inductive DmTest where
  | running
  | undefined
  | printed (t : UInt32) (ungueltig : Bool)
  deriving DecidableEq, Repr

def notwendigLoop (tBlock : UInt32) (tasks : List TaskStruct) (task : TaskStruct) :
    ℕ → UInt32 → DmTest
  | 0, _ => .running
  | fuel + 1, t =>
    match notwendigRound tBlock tasks task t with
    | none => .undefined
    | some tC =>
      if t = tC then .printed t (t > task.tD) else notwendigLoop tBlock tasks task fuel tC

-- Each round but the last raises `t`, so that there are not more rounds than values of `t`.
def realtimeNotwendigDm (stale : ℕ → UInt32) (blocking : List (String × UInt32))
    (tasks : List TaskStruct) (task : TaskStruct) : DmTest :=
  notwendigLoop (blockedFor stale blocking task) tasks task (2 ^ 32) task.tE

def higherTasks (tasks : List TaskStruct) (task : TaskStruct) : List TaskStruct :=
  tasks.filter (fun other => other.tD < task.tD && other.addr != task.addr)

-- What a round computes for `t`, without a bound on the values.
def roundOf (tBlock : UInt32) (tasks : List TaskStruct) (task : TaskStruct) (t : ℕ) : ℕ :=
  task.tE.toNat + t / task.tPer.toNat * tBlock.toNat +
    ((higherTasks tasks task).map (fun other => t / other.tPer.toNat + other.tE.toNat)).sum

section Round

variable {tBlock : UInt32} {tasks : List TaskStruct} {task : TaskStruct}

theorem toUnsigned_bind {α : Type} {n : ℕ} {f : UInt32 → Option α} :
    (toUnsigned n).bind f = if n < 2 ^ 32 then f (UInt32.ofNat n) else none := by
  rw [toUnsigned]
  split <;> rfl

theorem toNat_ofNat_of_lt {n : ℕ} (h : n < 2 ^ 32) : (UInt32.ofNat n).toNat = n :=
  UInt32.toNat_ofNat_of_lt' h

theorem foldlM_addHigher (t tC : UInt32) (hpos : ∀ other ∈ tasks, 1 ≤ other.tPer) :
    tasks.foldlM (addHigher task t) tC =
      toUnsigned (tC.toNat + ((higherTasks tasks task).map
        (fun other => t.toNat / other.tPer.toNat + other.tE.toNat)).sum) := by
  induction tasks generalizing tC with
  | nil =>
    rw [toUnsigned, if_pos]
    · simp [higherTasks]
    · simpa [higherTasks] using tC.toNat_lt
  | cons other tasks ih =>
    have hne : other.tPer ≠ 0 := by
      have hone := hpos other List.mem_cons_self
      rintro hzero
      rw [hzero] at hone
      exact absurd hone (by decide)
    have ih := fun tC => ih tC (fun x hx => hpos x (List.mem_cons_of_mem other hx))
    rw [List.foldlM_cons, addHigher, higherTasks, List.filter_cons]
    split
    · rename_i hhigher
      rw [ceilQuotient, if_neg hne, Option.bind_some, List.map_cons, List.sum_cons,
        Option.bind_eq_bind, toUnsigned_bind]
      rw [UInt32.toNat_div]
      split
      · rename_i hlt
        rw [ih, toNat_ofNat_of_lt hlt, Nat.add_assoc]
        rfl
      · rename_i hover
        rw [toUnsigned, if_neg (by omega)]
    · exact ih tC

theorem notwendigRound_eq (t : UInt32) (hper : 1 ≤ task.tPer)
    (hpos : ∀ other ∈ tasks, 1 ≤ other.tPer) :
    notwendigRound tBlock tasks task t = toUnsigned (roundOf tBlock tasks task t.toNat) := by
  have hne : task.tPer ≠ 0 := by
    rintro hzero
    rw [hzero] at hper
    exact absurd hper (by decide)
  rw [notwendigRound, ceilQuotient, if_neg hne, Option.bind_some, toUnsigned_bind, roundOf,
    UInt32.toNat_div]
  split
  · rename_i hlt
    rw [foldlM_addHigher _ _ hpos, toNat_ofNat_of_lt hlt]
  · rename_i hover
    rw [toUnsigned, if_neg (by omega)]

theorem roundOf_mono (tBlock : UInt32) (tasks : List TaskStruct) (task : TaskStruct) :
    Monotone (roundOf tBlock tasks task) := by
  intro s t hst
  rw [roundOf, roundOf]
  apply Nat.add_le_add
  · exact Nat.add_le_add_left (Nat.mul_le_mul_right _ (Nat.div_le_div_right hst)) _
  · apply List.sum_le_sum
    intro other _
    exact Nat.add_le_add_right (Nat.div_le_div_right hst) _

theorem le_roundOf (t : ℕ) : task.tE.toNat ≤ roundOf tBlock tasks task t := by
  rw [roundOf, Nat.add_assoc]
  exact Nat.le_add_right _ _

def resultOf (task : TaskStruct) : Outcome → DmTest
  | .running => .running
  | .overflow => .undefined
  | .converged r => .printed (UInt32.ofNat r) (UInt32.ofNat r > task.tD)

theorem notwendigLoop_eq {fuel : ℕ} {t : UInt32} (hper : 1 ≤ task.tPer)
    (hpos : ∀ other ∈ tasks, 1 ≤ other.tPer) :
    notwendigLoop tBlock tasks task fuel t =
      resultOf task (run (roundOf tBlock tasks task) (2 ^ 32) fuel t.toNat) := by
  induction fuel generalizing t with
  | zero => rfl
  | succ fuel ih =>
    rw [notwendigLoop, notwendigRound_eq t hper hpos, run, toUnsigned]
    by_cases hlt : roundOf tBlock tasks task t.toNat < 2 ^ 32
    · rw [if_pos hlt, if_neg (Nat.not_le.mpr hlt)]
      have heq : t = UInt32.ofNat (roundOf tBlock tasks task t.toNat) ↔
          t.toNat = roundOf tBlock tasks task t.toNat := by
        rw [← UInt32.toNat_inj, toNat_ofNat_of_lt hlt]
      dsimp only
      rw [ih, toNat_ofNat_of_lt hlt]
      simp only [heq]
      split
      · rw [resultOf, UInt32.ofNat_toNat]
      · rfl
    · rw [if_neg hlt, if_pos (Nat.not_lt.mp hlt)]
      rfl

theorem realtimeNotwendigDm_eq {stale : ℕ → UInt32} {blocking : List (String × UInt32)}
    (hper : 1 ≤ task.tPer) (hpos : ∀ other ∈ tasks, 1 ≤ other.tPer) :
    realtimeNotwendigDm stale blocking tasks task =
      resultOf task (run (roundOf (blockedFor stale blocking task) tasks task) (2 ^ 32) (2 ^ 32)
        task.tE.toNat) :=
  notwendigLoop_eq hper hpos

theorem realtimeNotwendigDm_stops {stale : ℕ → UInt32} {blocking : List (String × UInt32)}
    (hper : 1 ≤ task.tPer) (hpos : ∀ other ∈ tasks, 1 ≤ other.tPer) :
    realtimeNotwendigDm stale blocking tasks task ≠ .running := by
  have hstops := run_stops (w := 2 ^ 32) (n := 2 ^ 32)
    (roundOf_mono (blockedFor stale blocking task) tasks task)
    (le_roundOf _) task.tE.toNat_lt (Nat.le_add_left _ _)
  rw [realtimeNotwendigDm_eq hper hpos]
  cases hrun : run (roundOf (blockedFor stale blocking task) tasks task) (2 ^ 32) (2 ^ 32)
      task.tE.toNat with
  | running => exact absurd hrun hstops
  | overflow => exact fun h => by cases h
  | converged r => exact fun h => by cases h

theorem realtimeNotwendigDm_printed {stale : ℕ → UInt32} {blocking : List (String × UInt32)}
    {R : ℕ} (hper : 1 ≤ task.tPer) (hpos : ∀ other ∈ tasks, 1 ≤ other.tPer) (hR : R < 2 ^ 32) :
    realtimeNotwendigDm stale blocking tasks task =
        .printed (UInt32.ofNat R) (task.tD.toNat < R) ↔
      IsLeast (FixpointsFrom (roundOf (blockedFor stale blocking task) tasks task) task.tE.toNat)
        R := by
  have hconverged := fun r => run_converged (w := 2 ^ 32) (n := 2 ^ 32) (r := r)
    (roundOf_mono (blockedFor stale blocking task) tasks task)
    (le_roundOf _) task.tE.toNat_lt (Nat.le_add_left _ _)
  rw [realtimeNotwendigDm_eq hper hpos]
  refine Iff.trans ?_ ((hconverged R).trans (and_iff_right hR))
  constructor
  · intro h
    cases hrun : run (roundOf (blockedFor stale blocking task) tasks task) (2 ^ 32) (2 ^ 32)
        task.tE.toNat with
    | running =>
      rw [hrun] at h
      cases h
    | overflow =>
      rw [hrun] at h
      cases h
    | converged r =>
      rw [hrun, resultOf] at h
      obtain ⟨hr, _⟩ := (hconverged r).mp hrun
      have hsame := congrArg UInt32.toNat (DmTest.printed.inj h).1
      rw [toNat_ofNat_of_lt hr, toNat_ofNat_of_lt hR] at hsame
      rw [hsame]
  · intro h
    rw [h, resultOf]
    congr 1
    rw [decide_eq_decide, gt_iff_lt, UInt32.lt_iff_toNat_lt, toNat_ofNat_of_lt hR]

end Round

-- The value of the recurrence at `r`: the execution times of the jobs released up to `r`.
def responseDemand (tasks : List TaskStruct) (task : TaskStruct) (r : ℕ) : ℕ :=
  task.tE.toNat + ((tasks.filter (fun other => other.tD < task.tD)).map
    (fun other => r ⌈/⌉ other.tPer.toNat * other.tE.toNat)).sum

section Untouched

variable {cfg : Config} {rows : List TaskRow}

theorem blockingRounds_zero {all tasks : List TaskStruct} {fuel : ℕ}
    (hplain : ∀ task ∈ all, task.resources = []) :
    ∀ e ∈ blockingRounds cfg all fuel tasks, e.2 = 0 := by
  induction fuel generalizing tasks with
  | zero => exact fun e he => absurd he List.not_mem_nil
  | succ fuel ih =>
    rw [blockingRounds]
    dsimp only
    split
    · exact fun e he => absurd he List.not_mem_nil
    · rename_i higher _
      have hshared : ((prioritizeTasks { cfg with scheduler := .dm } [] all).filter
          (fun t => t.taskPriority ≥ higher.taskPriority)).flatMap TaskStruct.resources = [] := by
        rw [List.flatMap_eq_nil_iff]
        intro x hx
        obtain ⟨y, hy, rfl⟩ := List.mem_map.mp (List.mem_filter.mp hx).1
        exact hplain y hy
      intro e he
      rcases List.mem_cons.mp he with rfl | he
      · have htasks : ∀ lower : List TaskStruct, blockedByTasks lower [] = 0 := by
          intro lower
          induction lower with
          | nil => rfl
          | cons x lower ih => exact ih
        rw [hshared, htasks]
        rfl
      · exact ih e he

theorem blockedFor_plain (stale : ℕ → UInt32) (task : TaskStruct)
    (hplain : ∀ row ∈ rows, row.resources = []) :
    blockedFor stale (blockingTime cfg (untouchedTasks rows)) task = 0 ∨
      (∀ e ∈ blockingTime cfg (untouchedTasks rows), e.1 ≠ task.name) ∧
        blockedFor stale (blockingTime cfg (untouchedTasks rows)) task = stale task.addr := by
  have hzero : ∀ e ∈ blockingTime cfg (untouchedTasks rows), e.2 = 0 := by
    apply blockingRounds_zero
    intro x hx
    obtain ⟨row, hrow, _, hres, _⟩ := untouched_row hx
    rw [hres, hplain row hrow]
    rfl
  rw [blockedFor]
  cases hfind : (blockingTime cfg (untouchedTasks rows)).find? (fun b => b.1 = task.name) with
  | none =>
    right
    refine ⟨?_, rfl⟩
    intro e he heq
    exact List.find?_eq_none.mp hfind e he (decide_eq_true heq)
  | some e =>
    left
    exact hzero e (List.mem_of_find?_eq_some hfind)

end Untouched

-- The loop prints `R` as the reaction time, and calls it invalid if and only if it is too long.
def ReportsResponse (result : DmTest) (task : TaskStruct) (R : ℕ) : Prop :=
  ∃ t ungueltig, result = .printed t ungueltig ∧ t.toNat = R ∧
    (ungueltig = true ↔ task.tD.toNat < R)

theorem reportsResponse_iff {result : DmTest} {task : TaskStruct} {R : ℕ} (hR : R < 2 ^ 32) :
    ReportsResponse result task R ↔
      result = .printed (UInt32.ofNat R) (task.tD.toNat < R) := by
  constructor
  · rintro ⟨t, ungueltig, rfl, rfl, hflag⟩
    rw [UInt32.ofNat_toNat]
    congr 1
    rw [Bool.eq_iff_iff, hflag, decide_eq_true_eq]
  · intro h
    exact ⟨_, _, h, toNat_ofNat_of_lt hR, decide_eq_true_iff⟩

theorem isLeast_fixpointsFrom_iff {f : ℕ → ℕ} {s R : ℕ} (hs : s ≤ R) :
    IsLeast (FixpointsFrom f s) R ↔ f R = R ∧ ∀ t, s ≤ t → t < R → f t ≠ t := by
  constructor
  · rintro ⟨⟨_, hfix⟩, hleast⟩
    exact ⟨hfix, fun t hst hlt heq => absurd (hleast ⟨hst, heq⟩) (Nat.not_le.mpr hlt)⟩
  · rintro ⟨hfix, hbefore⟩
    refine ⟨⟨hs, hfix⟩, ?_⟩
    rintro t ⟨hst, heq⟩
    exact Nat.not_lt.mp (fun hlt => hbefore t hst hlt heq)

def responseRows (tE : UInt32) : List TaskRow :=
  [⟨"A", 0, 4, 2, 4, []⟩, ⟨"B", 0, 20, tE, 20, []⟩]

theorem late_response :
    IsLeast {r | r = responseDemand (untouchedTasks (responseRows 3))
      ((untouchedTasks (responseRows 3))[1]) r} 7 := by
  refine ⟨by decide +kernel, ?_⟩
  intro r hr
  by_contra hlt
  have hsmall : r < 7 := Nat.not_le.mp hlt
  revert hr
  interval_cases r <;> decide +kernel

theorem short_response :
    IsLeast {r | r = responseDemand (untouchedTasks (responseRows 2))
      ((untouchedTasks (responseRows 2))[1]) r} 4 := by
  refine ⟨by decide +kernel, ?_⟩
  intro r hr
  by_contra hlt
  have hsmall : r < 4 := Nat.not_le.mp hlt
  revert hr
  interval_cases r <;> decide +kernel

end Simulator
