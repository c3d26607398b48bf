import HTWGArchive.Library.Sequencing
import Mathlib.Algebra.BigOperators.Group.List.Basic
import Mathlib.Algebra.Order.BigOperators.Group.List
import Mathlib.Algebra.Order.Ring.Int
import Mathlib.Algebra.Ring.Int.Defs
import Mathlib.Data.List.Nodup
import Mathlib.Logic.Function.Basic

namespace Policies

open Sequencing

-- A job: its number and its run time.
abbrev Job := ℕ × ℤ

def joblist (runtimes : List ℤ) : List Job :=
  runtimes.zipIdx.map (fun job => (job.2, job.1))

-- What -p SJF runs first come, first served.
def sjf (joblist : List Job) : List Job :=
  joblist.mergeSort (fun a b => decide (a.2 ≤ b.2))

structure Statistics where
  t : ℤ
  count : ℕ
  turnaroundSum : ℤ
  waitSum : ℤ
  responseSum : ℤ
  deriving DecidableEq, Repr

def addJob (stats : Statistics) (job : Job) : Statistics :=
  let response := stats.t
  let turnaround := stats.t + job.2
  let wait := stats.t
  { t := stats.t + job.2
    count := stats.count + 1
    turnaroundSum := stats.turnaroundSum + turnaround
    waitSum := stats.waitSum + wait
    responseSum := stats.responseSum + response }

def fifo (joblist : List Job) : Statistics :=
  joblist.foldl addJob ⟨0, 0, 0, 0, 0⟩

theorem foldl_addJob (l : List Job) (stats : Statistics) : l.foldl addJob stats =
    { t := stats.t + (l.map Prod.snd).sum
      count := stats.count + l.length
      turnaroundSum := stats.turnaroundSum + (starts stats.t (l.map Prod.snd) +
        (l.map Prod.snd).sum)
      waitSum := stats.waitSum + starts stats.t (l.map Prod.snd)
      responseSum := stats.responseSum + starts stats.t (l.map Prod.snd) } := by
  induction l generalizing stats with
  | nil => simp [starts]
  | cons job l ih =>
    rw [List.foldl_cons, ih]
    simp only [addJob, starts, List.map_cons, List.sum_cons, List.length_cons,
      Statistics.mk.injEq]
    omega

theorem fifo_sums (l : List Job) : (fifo l).count = l.length ∧
    (fifo l).turnaroundSum = starts 0 (l.map Prod.snd) + (l.map Prod.snd).sum ∧
    (fifo l).waitSum = starts 0 (l.map Prod.snd) ∧
    (fifo l).responseSum = starts 0 (l.map Prod.snd) := by
  rw [fifo, foldl_addJob]
  simp

theorem sjf_perm (l : List Job) : (sjf l).Perm l :=
  List.mergeSort_perm l _

theorem sjf_pairwise (l : List Job) : ((sjf l).map Prod.snd).Pairwise (· ≤ ·) := by
  have htrans : ∀ a b c : Job, decide (a.2 ≤ b.2) = true → decide (b.2 ≤ c.2) = true →
      decide (a.2 ≤ c.2) = true := by
    intro a b c hab hbc
    simp only [decide_eq_true_eq] at hab hbc ⊢
    omega
  have htotal : ∀ a b : Job, (decide (a.2 ≤ b.2) || decide (b.2 ≤ a.2)) = true := by
    intro a b
    simp only [Bool.or_eq_true, decide_eq_true_eq]
    omega
  have hsorted := List.pairwise_mergeSort htrans htotal l
  rw [List.pairwise_map]
  exact hsorted.imp (fun h => of_decide_eq_true h)

end Policies

namespace RoundRobin

open Policies

structure State where
  runlist : List Job
  turnaround : ℕ → ℤ
  response : ℕ → ℤ
  lastran : ℕ → ℤ
  wait : ℕ → ℤ
  jobcount : ℕ
  thetime : ℤ

def start (joblist : List Job) : State where
  runlist := joblist
  turnaround := fun _ => 0
  response := fun _ => -1
  lastran := fun _ => 0
  wait := fun _ => 0
  jobcount := joblist.length
  thetime := 0

-- The turn of a job that is not done yet, or not done in it.
def turn (quantum : ℤ) (s : State) (job : Job) (runlist : List Job) : State :=
  let response :=
    if s.response job.1 = -1 then Function.update s.response job.1 s.thetime else s.response
  let wait := Function.update s.wait job.1 (s.wait job.1 + (s.thetime - s.lastran job.1))
  if quantum < job.2 then
    { s with
      response := response
      wait := wait
      runlist := runlist ++ [(job.1, job.2 - quantum)]
      thetime := s.thetime + quantum
      lastran := Function.update s.lastran job.1 (s.thetime + quantum) }
  else
    { response := response
      wait := wait
      runlist := runlist
      turnaround := Function.update s.turnaround job.1 (s.thetime + job.2)
      jobcount := s.jobcount - 1
      thetime := s.thetime + job.2
      lastran := Function.update s.lastran job.1 (s.thetime + job.2) }

-- The loop, for at most so many passes; none is the exception of a pop from an empty list.
def loop (quantum : ℤ) : ℕ → State → Option State
  | 0, s => some s
  | passes + 1, s =>
    if 0 < s.jobcount then
      match s.runlist with
      | [] => none
      | job :: runlist => loop quantum passes (turn quantum s job runlist)
    else some s

variable {runtimes : List ℤ} {quantum : ℤ} {s : State} {j p : ℕ} {r : ℤ}

-- What is left of a job when it is not in the run list is nothing.
structure Turns (runtimes : List ℤ) (quantum : ℤ) (s : State) : Prop where
  nodup : (s.runlist.map Prod.fst).Nodup
  jobcount : s.jobcount = s.runlist.length
  left : ∀ j r, (j, r) ∈ s.runlist → 0 < r ∧
    ∃ runtime, runtimes[j]? = some runtime ∧ s.wait j + (runtime - r) = s.lastran j
  total : s.thetime + (s.runlist.map Prod.snd).sum = runtimes.sum
  now : 0 ≤ s.thetime
  lastran : ∀ j, s.lastran j ≤ s.thetime
  fresh : ∀ j, s.response j = -1 → s.wait j = 0 ∧ s.lastran j = 0
  place : ∀ (p j : ℕ) r, s.runlist[p]? = some (j, r) → s.response j = -1 →
    s.thetime + p * quantum ≤ j * quantum
  response : ∀ j, s.response j ≠ -1 →
    0 ≤ s.response j ∧ s.response j ≤ j * quantum ∧ s.response j ≤ s.wait j
  done : ∀ j runtime, runtimes[j]? = some runtime → j ∉ s.runlist.map Prod.fst →
    s.response j ≠ -1 ∧ s.turnaround j = s.wait j + runtime ∧ s.turnaround j ≤ s.thetime

theorem joblist_getElem? (runtimes : List ℤ) (p : ℕ) :
    (joblist runtimes)[p]? = runtimes[p]?.map (fun runtime => (p, runtime)) := by
  rw [joblist, List.getElem?_map, List.getElem?_zipIdx]
  cases runtimes[p]? with
  | none => rfl
  | some runtime => simp

theorem turns_start (quantum : ℤ) (h : ∀ runtime ∈ runtimes, 0 < runtime) :
    Turns runtimes quantum (start (joblist runtimes)) := by
  have hfst : (joblist runtimes).map Prod.fst = List.range' 0 runtimes.length := by
    rw [joblist, List.map_map]
    exact List.zipIdx_map_snd 0 runtimes
  have hsnd : (joblist runtimes).map Prod.snd = runtimes := by
    rw [joblist, List.map_map]
    exact List.zipIdx_map_fst 0 runtimes
  refine ⟨?_, rfl, fun j r hj => ?_, ?_, Int.le_refl 0, fun j => Int.le_refl 0,
    fun j _ => ⟨rfl, rfl⟩, fun p j r hp _ => ?_, fun j hj => absurd rfl hj,
    fun j runtime hj hn => ?_⟩
  · change ((joblist runtimes).map Prod.fst).Nodup
    rw [hfst]
    exact List.nodup_range'
  · obtain ⟨p, hp⟩ := List.mem_iff_getElem?.mp hj
    rw [show (start (joblist runtimes)).runlist = joblist runtimes from rfl,
      joblist_getElem?] at hp
    obtain ⟨runtime, hget, heq⟩ := Option.map_eq_some_iff.mp hp
    obtain ⟨rfl, rfl⟩ := Prod.mk.inj heq
    refine ⟨h _ (List.mem_of_getElem? hget), runtime, hget, ?_⟩
    change (0 : ℤ) + (runtime - runtime) = 0
    omega
  · change (0 : ℤ) + ((joblist runtimes).map Prod.snd).sum = _
    rw [hsnd, Int.zero_add]
  · rw [show (start (joblist runtimes)).runlist = joblist runtimes from rfl,
      joblist_getElem?] at hp
    obtain ⟨runtime, hget, heq⟩ := Option.map_eq_some_iff.mp hp
    obtain ⟨rfl, rfl⟩ := Prod.mk.inj heq
    change (0 : ℤ) + p * quantum ≤ p * quantum
    omega
  · refine absurd ?_ hn
    change j ∈ (joblist runtimes).map Prod.fst
    rw [hfst, List.mem_range'_1]
    have hlt := (List.getElem?_eq_some_iff.mp hj).1
    omega

-- The fields on which both ends of a turn agree.
theorem turn_fields (quantum : ℤ) (s : State) (j : ℕ) (r : ℤ) (rest : List Job) :
    (turn quantum s (j, r) rest).thetime = s.thetime + min quantum r ∧
      (turn quantum s (j, r) rest).lastran =
        Function.update s.lastran j (s.thetime + min quantum r) ∧
      (turn quantum s (j, r) rest).wait =
        Function.update s.wait j (s.wait j + (s.thetime - s.lastran j)) ∧
      (turn quantum s (j, r) rest).response j =
        (if s.response j = -1 then s.thetime else s.response j) ∧
      (∀ i, i ≠ j → (turn quantum s (j, r) rest).response i = s.response i) ∧
      (turn quantum s (j, r) rest).runlist =
        rest ++ (if quantum < r then [(j, r - quantum)] else []) ∧
      (∀ i, i ≠ j → (turn quantum s (j, r) rest).turnaround i = s.turnaround i) := by
  have hresponse : ∀ i, i ≠ j → (if s.response j = -1 then
      Function.update s.response j s.thetime else s.response) i = s.response i := by
    intro i hi
    split_ifs
    · exact Function.update_of_ne hi _ _
    · rfl
  have hself : (if s.response j = -1 then Function.update s.response j s.thetime
      else s.response) j = if s.response j = -1 then s.thetime else s.response j := by
    split_ifs
    · exact Function.update_self ..
    · rfl
  rw [turn]
  by_cases hmore : quantum < r
  · rw [if_pos hmore, if_pos hmore, min_eq_left (Int.le_of_lt hmore)]
    exact ⟨rfl, rfl, rfl, hself, hresponse, rfl, fun i _ => rfl⟩
  · rw [if_neg hmore, if_neg hmore, min_eq_right (Int.not_lt.mp hmore)]
    exact ⟨rfl, rfl, rfl, hself, hresponse, (List.append_nil rest).symm,
      fun i hi => Function.update_of_ne hi _ _⟩

theorem Turns.turn {rest : List Job} (h : Turns runtimes quantum s) (hq : 0 < quantum)
    (hrun : s.runlist = (j, r) :: rest) :
    Turns runtimes quantum (turn quantum s (j, r) rest) ∧
      ((RoundRobin.turn quantum s (j, r) rest).runlist.map Prod.snd).sum <
        (s.runlist.map Prod.snd).sum := by
  obtain ⟨htime, hlastran, hwait, hself, hothers, hlist, hturnaround⟩ :=
    turn_fields quantum s j r rest
  obtain ⟨hr, runtime, hget, hleft⟩ := h.left j r (by rw [hrun]; exact List.mem_cons_self)
  have hnodup := h.nodup
  rw [hrun, List.map_cons] at hnodup
  obtain ⟨hj, hrest⟩ := List.nodup_cons.mp hnodup
  have hnow := h.now
  have hlast := h.lastran j
  have hran : 0 < min quantum r := lt_min hq hr
  have hrestsum : (s.runlist.map Prod.snd).sum = r + (rest.map Prod.snd).sum := by
    rw [hrun, List.map_cons, List.sum_cons]
  have hsum : ((RoundRobin.turn quantum s (j, r) rest).runlist.map Prod.snd).sum =
      (rest.map Prod.snd).sum + (r - min quantum r) := by
    rw [hlist]
    split_ifs with hmore
    · rw [min_eq_left (Int.le_of_lt hmore)]
      simp
    · rw [min_eq_right (Int.not_lt.mp hmore)]
      simp
  have hne : ∀ i r', (i, r') ∈ rest → i ≠ j := by
    rintro i r' hi rfl
    exact hj (List.mem_map.mpr ⟨(i, r'), hi, rfl⟩)
  have hresponse : 0 ≤ (RoundRobin.turn quantum s (j, r) rest).response j ∧
      (RoundRobin.turn quantum s (j, r) rest).response j ≤ j * quantum ∧
      (RoundRobin.turn quantum s (j, r) rest).response j ≤
        (RoundRobin.turn quantum s (j, r) rest).wait j := by
    rw [hself, hwait, Function.update_self]
    by_cases hfirst : s.response j = -1
    · obtain ⟨hwaited, hran⟩ := h.fresh j hfirst
      have hplace := h.place 0 j r (by rw [hrun]; rfl) hfirst
      rw [if_pos hfirst]
      refine ⟨hnow, ?_, by omega⟩
      simpa using hplace
    · obtain ⟨hnonneg, hle, hwaited⟩ := h.response j hfirst
      rw [if_neg hfirst]
      exact ⟨hnonneg, hle, by omega⟩
  refine ⟨⟨?_, ?_, fun i r' hi => ?_, ?_, ?_, fun i => ?_, fun i hi => ?_, fun p i r' hp hi => ?_,
    fun i hi => ?_, fun i runtime' hi hn => ?_⟩, by omega⟩
  · rw [hlist, List.map_append]
    split_ifs
    · exact hrest.append (List.nodup_singleton j) (List.disjoint_singleton.mpr hj)
    · simpa using hrest
  · have hcount := h.jobcount
    rw [hrun, List.length_cons] at hcount
    rw [RoundRobin.turn]
    by_cases hmore : quantum < r
    · rw [if_pos hmore]
      change s.jobcount = (rest ++ [_]).length
      rw [hcount, List.length_append]
      rfl
    · rw [if_neg hmore]
      exact Nat.sub_eq_of_eq_add hcount
  · rw [hlist, List.mem_append] at hi
    rcases hi with hi | hi
    · have hij := hne i r' hi
      rw [hwait, hlastran, Function.update_of_ne hij, Function.update_of_ne hij]
      exact h.left i r' (hrun ▸ List.mem_cons_of_mem _ hi)
    · split_ifs at hi with hmore
      · obtain ⟨rfl, rfl⟩ := Prod.mk.inj (List.mem_singleton.mp hi)
        refine ⟨by omega, runtime, hget, ?_⟩
        rw [hwait, hlastran, Function.update_self, Function.update_self,
          min_eq_left (Int.le_of_lt hmore)]
        omega
      · exact absurd hi List.not_mem_nil
  · have htotal := h.total
    omega
  · omega
  · rw [hlastran, htime]
    rcases eq_or_ne i j with rfl | hij
    · rw [Function.update_self]
    · rw [Function.update_of_ne hij]
      have hle := h.lastran i
      omega
  · rcases eq_or_ne i j with rfl | hij
    · omega
    · rw [hothers i hij] at hi
      rw [hwait, hlastran, Function.update_of_ne hij, Function.update_of_ne hij]
      exact h.fresh i hi
  · rcases eq_or_ne i j with rfl | hij
    · omega
    · have hold : s.runlist[p + 1]? = some (i, r') := by
        rw [hrun, List.getElem?_cons_succ]
        rw [hlist, List.getElem?_append] at hp
        split_ifs at hp with hlt hmore
        · exact hp
        · have hmem := List.mem_singleton.mp (List.mem_of_getElem? hp)
          exact absurd (Prod.mk.inj hmem).1 hij
        · simp at hp
      rw [hothers i hij] at hi
      have hplace := h.place (p + 1) i r' hold hi
      have hle := min_le_left quantum r
      rw [Int.natCast_succ, Int.add_mul] at hplace
      omega
  · rcases eq_or_ne i j with rfl | hij
    · exact hresponse
    · rw [hothers i hij] at hi ⊢
      rw [hwait, Function.update_of_ne hij]
      exact h.response i hi
  · rcases eq_or_ne i j with rfl | hij
    · have hdone : ¬ quantum < r := by
        intro hmore
        rw [hlist, if_pos hmore] at hn
        exact hn (by simp)
      obtain rfl := Option.some.inj (hget.symm.trans hi)
      have hend : (RoundRobin.turn quantum s (i, r) rest).turnaround i = s.thetime + r := by
        rw [RoundRobin.turn, if_neg hdone]
        exact Function.update_self ..
      refine ⟨by omega, ?_, ?_⟩
      · rw [hend, hwait, Function.update_self]
        omega
      · rw [hend, htime, min_eq_right (Int.not_lt.mp hdone)]
    · have hout : i ∉ s.runlist.map Prod.fst := by
        intro hc
        rw [hrun, List.map_cons, List.mem_cons] at hc
        rw [hlist, List.map_append, List.mem_append] at hn
        exact hn (Or.inl (hc.resolve_left hij))
      obtain ⟨hresponded, hsumof, hle⟩ := h.done i runtime' hi hout
      rw [hothers i hij, hturnaround i hij, hwait, Function.update_of_ne hij]
      exact ⟨hresponded, hsumof, by omega⟩

theorem Turns.loop (h : Turns runtimes quantum s) (hq : 0 < quantum) (passes : ℕ)
    (hpasses : (s.runlist.map Prod.snd).sum ≤ passes) :
    ∃ s', loop quantum passes s = some s' ∧ Turns runtimes quantum s' ∧ s'.jobcount = 0 := by
  induction passes generalizing s with
  | zero =>
    refine ⟨s, rfl, h, ?_⟩
    cases hrun : s.runlist with
    | nil => rw [h.jobcount, hrun, List.length_nil]
    | cons job rest =>
      obtain ⟨j, r⟩ := job
      obtain ⟨hnext, hlt⟩ := h.turn hq hrun
      have hnonneg : 0 ≤ ((RoundRobin.turn quantum s (j, r) rest).runlist.map Prod.snd).sum := by
        refine List.sum_nonneg (fun r' hr' => ?_)
        obtain ⟨⟨i, r''⟩, hi, rfl⟩ := List.mem_map.mp hr'
        exact Int.le_of_lt (hnext.left i r'' hi).1
      omega
  | succ passes ih =>
    rw [RoundRobin.loop]
    cases hrun : s.runlist with
    | nil =>
      have hzero : s.jobcount = 0 := by rw [h.jobcount, hrun, List.length_nil]
      rw [if_neg (by omega)]
      exact ⟨s, rfl, h, hzero⟩
    | cons job rest =>
      obtain ⟨j, r⟩ := job
      have hpos : 0 < s.jobcount := by
        rw [h.jobcount, hrun]
        exact Nat.succ_pos _
      obtain ⟨hnext, hlt⟩ := h.turn hq hrun
      rw [if_pos hpos]
      exact ih hnext (by omega)

end RoundRobin
