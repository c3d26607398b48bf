import HTWGArchive.Library.FirstMinimum
import HTWGArchive.Simulator.GenerationV4
import HTWGArchive.Simulator.GenerationV5
import HTWGArchive.Simulator.Inheritance

namespace SimulatorV4

open FirstMinimum

theorem foldl_compareDeadline (ts : List (SimTaskStruct × ℕ)) (scan : Scan) :
    (ts.foldl compareDeadline scan).nextTask =
      (ts.map Prod.swap).foldl (better (fun p => p.2.tD.toNat)) scan.nextTask := by
  induction ts generalizing scan with
  | nil => rfl
  | cons t ts ih =>
    have hstep : (compareDeadline scan t).nextTask =
        better (fun p => p.2.tD.toNat) scan.nextTask t.swap := by
      rw [compareDeadline, better]
      split
      · rename_i hlt
        exact (if_pos (UInt32.lt_iff_toNat_lt.mp hlt)).symm
      · rename_i hge
        have hnot : ¬t.swap.2.tD.toNat < scan.nextTask.2.tD.toNat :=
          fun hlt => hge (UInt32.lt_iff_toNat_lt.mpr hlt)
        rw [if_neg hnot]
        split <;> rfl
    rw [List.foldl_cons, List.map_cons, List.foldl_cons, ih, hstep]

theorem pickNextTaskDm_first {queue : List SimTaskStruct} (hne : queue ≠ []) :
    ∃ i, IsFirstMin (queue.map (fun t => t.tD.toNat)) i ∧
      pickNextTaskDm queue = some (i, queue.modify i markFinished) := by
  cases queue with
  | nil => exact absurd rfl hne
  | cons t ts =>
    obtain ⟨i, hmin, hbest⟩ := foldl_better (fun p : ℕ × SimTaskStruct => p.2.tD.toNat) (0, t)
      ((ts.zipIdx 1).map Prod.swap)
    have hall : (0, t) :: (ts.zipIdx 1).map Prod.swap = (t :: ts).zipIdx.map Prod.swap := rfl
    have hkeys : ((0, t) :: (ts.zipIdx 1).map Prod.swap).map (fun p => p.2.tD.toNat) =
        (t :: ts).map (fun t => t.tD.toNat) := by
      rw [hall, List.map_map]
      exact (List.map_map (f := Prod.fst) (g := fun t : SimTaskStruct => t.tD.toNat)).symm.trans
        (congrArg _ (List.zipIdx_map_fst 0 (t :: ts)))
    have hindex : ((ts.zipIdx 1).foldl compareDeadline ⟨(0, t), none⟩).nextTask.1 = i := by
      rw [foldl_compareDeadline]
      rw [hall, List.getElem?_map, List.getElem?_zipIdx] at hbest
      simp only [Option.map_map, Option.map_eq_some_iff] at hbest
      obtain ⟨x, _, hx⟩ := hbest
      rw [← hx]
      simp
    rw [hkeys] at hmin
    refine ⟨i, hmin, ?_⟩
    rw [pickNextTaskDm, hindex]

end SimulatorV4

namespace SimulatorV5

open FirstMinimum

theorem foldl_compareDeadline (ts : List SimTask) (scan : Scan) :
    (ts.foldl compareDeadline scan).nextTask =
      ts.foldl (better (fun t => t.tD.toNat)) scan.nextTask := by
  induction ts generalizing scan with
  | nil => rfl
  | cons t ts ih =>
    have hstep : (compareDeadline scan t).nextTask =
        better (fun t => t.tD.toNat) scan.nextTask t := by
      rw [compareDeadline, better]
      split
      · rename_i hlt
        exact (if_pos (UInt32.lt_iff_toNat_lt.mp hlt)).symm
      · rename_i hge
        have hnot : ¬t.tD.toNat < scan.nextTask.tD.toNat :=
          fun hlt => hge (UInt32.lt_iff_toNat_lt.mpr hlt)
        rw [if_neg hnot]
        split <;> rfl
    rw [List.foldl_cons, List.foldl_cons, ih, hstep]

def key : Simulator.Scheduler → SimTask → ℕ
  | .dm => fun t => t.tD.toNat
  | .edf => fun t => t.tRemainingD.toNat

theorem pickNextTask_first (scheduler : Simulator.Scheduler) {queue : List SimTask}
    (hne : queue ≠ []) :
    ∃ i, IsFirstMin (queue.map (key scheduler)) i ∧ pickNextTask scheduler queue = queue[i]? := by
  cases queue with
  | nil => exact absurd rfl hne
  | cons t ts =>
    obtain ⟨i, hmin, hbest⟩ := foldl_better (key scheduler) t ts
    refine ⟨i, hmin, hbest.symm ▸ ?_⟩
    cases scheduler with
    | dm =>
      rw [pickNextTask, pickNextTaskDm, foldl_compareDeadline]
      rfl
    | edf =>
      have hstep : (fun next x : SimTask => if next.tRemainingD > x.tRemainingD then x else next) =
          better (key .edf) := by
        funext next x
        exact if_congr UInt32.lt_iff_toNat_lt rfl rfl
      rw [pickNextTask, pickNextTaskEdf, hstep]

end SimulatorV5

namespace Simulator

open FirstMinimum

def key : Scheduler → TaskStruct → UInt32
  | .dm => fun t => t.tD
  | .edf => fun t => t.localStats.tRemainingD

-- The first job in list order whose key is minimal.
def FirstMinimal (scheduler : Scheduler) (queue : List TaskStruct) (i : ℕ) (t : TaskStruct) :
    Prop :=
  queue[i]? = some t ∧ ∀ j x, queue[j]? = some x →
    key scheduler t ≤ key scheduler x ∧ (j < i → key scheduler t < key scheduler x)

-- Jobs that V6 and V5 see alike; `t_remaining_d` of the job is that of its `local_stats`.
structure SameJobV5 (t : TaskStruct) (s : SimulatorV5.SimTask) : Prop where
  name : s.name = t.name
  taskNum : s.taskNum = t.taskNum
  tD : s.tD = t.tD
  tRemainingD : s.tRemainingD = t.localStats.tRemainingD

structure SameJobV4 (t : TaskStruct) (s : SimulatorV4.SimTaskStruct) : Prop where
  name : s.name = t.name
  taskNum : s.taskNum = t.taskNum
  tD : s.tD = t.tD

def above (queue : List TaskStruct) (scheduler : Scheduler) (k : ℕ) : ℕᵒᵈ :=
  OrderDual.toDual ((queue.map (fun t => (key scheduler t).toNat)).countP (k < ·))

theorem prioritizeTask_none {cfg : Config} {inherited : List InheritedNode} {t x : TaskStruct}
    (h : t.taskPriorities = none) :
    prioritizeTask cfg inherited t x =
      decide ((key cfg.scheduler x).toNat < (key cfg.scheduler t).toNat) := by
  have hstats : inheritedStats inherited t.taskPriorities = [] := by
    rw [h, inheritedStats, chain]
    cases inherited <;> rfl
  rw [prioritizeTask]
  cases cfg.scheduler with
  | dm =>
    simp only [prioritizeTaskDm, hstats, List.foldl_nil, ite_self, key]
    exact decide_eq_decide.mpr UInt32.lt_iff_toNat_lt
  | edf =>
    simp only [prioritizeTaskEdf, hstats, List.foldl_nil, ite_self, key]
    exact decide_eq_decide.mpr UInt32.lt_iff_toNat_lt

theorem prioritizeTasks_above {cfg : Config} {inherited : List InheritedNode}
    {queue : List TaskStruct} (hnone : ∀ t ∈ queue, t.taskPriorities = none) :
    (prioritizeTasks cfg inherited queue).map (fun t => OrderDual.toDual t.taskPriority) =
      (queue.map (fun t => (key cfg.scheduler t).toNat)).map (above queue cfg.scheduler) := by
  rw [prioritizeTasks, List.map_map, List.map_map]
  apply List.map_congr_left
  intro x _
  simp only [Function.comp_apply, above, List.countP_map, ← List.countP_eq_length_filter]
  congr 1
  apply List.countP_congr
  intro t ht
  rw [prioritizeTask_none (hnone t ht)]
  rfl

theorem above_lt {queue : List TaskStruct} {scheduler : Scheduler} {a b : ℕ}
    (hb : b ∈ queue.map (fun t => (key scheduler t).toNat)) :
    a < b ↔ above queue scheduler a < above queue scheduler b := by
  rw [above, above, OrderDual.toDual_lt_toDual]
  constructor
  · intro hlt
    rw [countP_lt_iff]
    · exact ⟨b, hb, by simpa using hlt, by simp⟩
    · intro z _ hz
      rw [decide_eq_true_eq] at hz ⊢
      exact hlt.trans hz
  · intro hcount
    by_contra hle
    have hmono : (queue.map (fun t => (key scheduler t).toNat)).countP (a < ·) ≤
        (queue.map (fun t => (key scheduler t).toNat)).countP (b < ·) := by
      apply List.countP_mono_left
      intro z _ hz
      rw [decide_eq_true_eq] at hz ⊢
      exact (Nat.not_lt.mp hle).trans_lt hz
    exact absurd hcount (Nat.not_lt.mpr hmono)

theorem pickNextTask_first {queue : List TaskStruct} (hne : queue ≠ []) :
    ∃ i, IsFirstMin (queue.map (fun t => OrderDual.toDual t.taskPriority)) i ∧
      pickNextTask queue = queue[i]? := by
  cases queue with
  | nil => exact absurd rfl hne
  | cons t ts =>
    obtain ⟨i, hmin, hbest⟩ := foldl_better (fun t => OrderDual.toDual t.taskPriority) t ts
    exact ⟨i, hmin, hbest.symm⟩

theorem exists_firstMinimal {scheduler : Scheduler} {queue : List TaskStruct} {i : ℕ}
    (h : IsFirstMin (queue.map (fun t => (key scheduler t).toNat)) i) :
    ∃ t, FirstMinimal scheduler queue i t := by
  obtain ⟨k, hk, hmin⟩ := h
  rw [List.getElem?_map, Option.map_eq_some_iff] at hk
  obtain ⟨t, ht, rfl⟩ := hk
  refine ⟨t, ht, ?_⟩
  intro j x hx
  have hleast := hmin j (key scheduler x).toNat (by rw [List.getElem?_map, hx]; rfl)
  rw [UInt32.le_iff_toNat_le, UInt32.lt_iff_toNat_lt]
  exact hleast

theorem map_eq_of_forall₂ {α β κ : Type} {R : α → β → Prop} {f : α → κ} {g : β → κ}
    (hR : ∀ a b, R a b → g b = f a) {xs : List α} {ys : List β} (h : List.Forall₂ R xs ys) :
    ys.map g = xs.map f := by
  induction h with
  | nil => rfl
  | cons hab _ ih => rw [List.map_cons, List.map_cons, ih, hR _ _ hab]

theorem generations_pick_same (cfg : Config) (inherited : List InheritedNode)
    (queue : List TaskStruct) (queue₅ : List SimulatorV5.SimTask)
    (queue₄ : List SimulatorV4.SimTaskStruct) (hne : queue ≠ [])
    (hnone : ∀ t ∈ queue, t.taskPriorities = none) (h₅ : List.Forall₂ SameJobV5 queue queue₅)
    (h₄ : List.Forall₂ SameJobV4 queue queue₄) :
    ∃ i t, FirstMinimal cfg.scheduler queue i t ∧
      (∃ p, pickNextTask (prioritizeTasks cfg inherited queue) =
        some { t with taskPriority := p }) ∧
      SimulatorV5.pickNextTask cfg.scheduler queue₅ = queue₅[i]? ∧
      (cfg.scheduler = .dm → (SimulatorV4.pickNextTaskDm queue₄).map Prod.fst = some i) := by
  have hne₆ : prioritizeTasks cfg inherited queue ≠ [] := by
    simpa [prioritizeTasks] using hne
  obtain ⟨i, hmin, hpick⟩ := pickNextTask_first hne₆
  rw [prioritizeTasks_above hnone] at hmin
  have hfirst := hmin.of_map (fun a _ b hb => above_lt hb)
  obtain ⟨t, ht⟩ := exists_firstMinimal hfirst
  have hkeys₅ : queue₅.map (SimulatorV5.key cfg.scheduler) =
      queue.map (fun t => (key cfg.scheduler t).toNat) := by
    refine map_eq_of_forall₂ ?_ h₅
    intro a b hab
    cases cfg.scheduler with
    | dm => exact congrArg UInt32.toNat hab.tD
    | edf => exact congrArg UInt32.toNat hab.tRemainingD
  have hne₅ : queue₅ ≠ [] := by
    rintro rfl
    cases h₅
    exact hne rfl
  obtain ⟨i₅, hmin₅, hpick₅⟩ := SimulatorV5.pickNextTask_first cfg.scheduler hne₅
  rw [hkeys₅] at hmin₅
  obtain rfl := hfirst.unique hmin₅
  refine ⟨i, t, ht, ?_, hpick₅, ?_⟩
  · rw [hpick, prioritizeTasks, List.getElem?_map, ht.1]
    exact ⟨_, rfl⟩
  · intro hdm
    have hne₄ : queue₄ ≠ [] := by
      rintro rfl
      cases h₄
      exact hne rfl
    obtain ⟨i₄, hmin₄, hpick₄⟩ := SimulatorV4.pickNextTaskDm_first hne₄
    have hkeys₄ : queue₄.map (fun t => t.tD.toNat) =
        queue.map (fun t => (key cfg.scheduler t).toNat) := by
      refine map_eq_of_forall₂ ?_ h₄
      intro a b hab
      rw [hdm]
      exact congrArg UInt32.toNat hab.tD
    rw [hkeys₄] at hmin₄
    rw [hpick₄, hmin₄.unique hfirst]
    rfl

def tiedJobs : List TaskStruct :=
  [template ⟨"A", 0, 9, 1, 7, []⟩ 0, template ⟨"B", 0, 9, 1, 4, []⟩ 1,
    template ⟨"C", 0, 9, 1, 4, []⟩ 2]

def tiedJobsV5 : List SimulatorV5.SimTask :=
  [⟨0, "A", 0, 7, 7⟩, ⟨1, "B", 0, 4, 4⟩, ⟨2, "C", 0, 4, 4⟩]

def tiedJobsV4 : List SimulatorV4.SimTaskStruct :=
  [⟨"A", 0, 0, 9, 1, 1, 7, 7, 0, 0, 0⟩, ⟨"B", 0, 0, 9, 1, 1, 4, 4, 0, 0, 1⟩,
    ⟨"C", 0, 0, 9, 1, 1, 4, 4, 0, 0, 2⟩]

theorem generations_pick_tied :
    ∃ i t, FirstMinimal .dm tiedJobs i t ∧
      (∃ p, pickNextTask (prioritizeTasks (nokillDm 9) [] tiedJobs) =
        some { t with taskPriority := p }) ∧
      SimulatorV5.pickNextTask .dm tiedJobsV5 = tiedJobsV5[i]? ∧
      ((nokillDm 9).scheduler = .dm →
        (SimulatorV4.pickNextTaskDm tiedJobsV4).map Prod.fst = some i) := by
  have h₅ : List.Forall₂ SameJobV5 tiedJobs tiedJobsV5 :=
    .cons ⟨rfl, rfl, rfl, rfl⟩ (.cons ⟨rfl, rfl, rfl, rfl⟩ (.cons ⟨rfl, rfl, rfl, rfl⟩ .nil))
  have h₄ : List.Forall₂ SameJobV4 tiedJobs tiedJobsV4 :=
    .cons ⟨rfl, rfl, rfl⟩ (.cons ⟨rfl, rfl, rfl⟩ (.cons ⟨rfl, rfl, rfl⟩ .nil))
  exact generations_pick_same (nokillDm 9) [] tiedJobs tiedJobsV5 tiedJobsV4 (by decide)
    (by decide) h₅ h₄

end Simulator
