import HTWGArchive.Simulator.Deletion
import HTWGArchive.Simulator.GenerationV4

namespace Simulator

section Unlinking

variable {α : Type} {remove : α → Bool} {xs : List α}

-- A flagged node stays in exactly when its predecessor has been unlinked before it.
theorem removeNodesAfter_exact {linked : Bool}
    (h : removeNodesAfter remove linked xs = xs.filter (fun y => !remove y)) :
    xs.IsChain (fun x y => ¬(remove x ∧ remove y)) ∧
      (linked = false → ∀ y ∈ xs.head?, remove y = false) := by
  induction xs generalizing linked with
  | nil => exact ⟨List.IsChain.nil, by simp⟩
  | cons y ys ih =>
    rw [removeNodesAfter] at h
    cases hy : remove y with
    | true =>
      cases linked with
      | false =>
        simp only [hy, Bool.and_false, Bool.false_eq_true, if_false, Bool.not_true,
          List.filter_cons] at h
        have hmem : y ∈ ys.filter (fun y => !remove y) := by
          rw [← h]
          exact List.mem_cons_self
        simp [hy] at hmem
      | true =>
        simp only [hy, Bool.and_true, if_true, Bool.not_true, List.filter_cons, Bool.false_eq_true,
          if_false] at h
        obtain ⟨hchain, hhead⟩ := ih h
        refine ⟨List.isChain_cons.mpr ⟨?_, hchain⟩, by simp⟩
        intro z hz
        simp [hhead rfl z hz]
    | false =>
      simp only [hy, Bool.false_and, Bool.false_eq_true, if_false, List.filter_cons, Bool.not_false,
        if_true, List.cons.injEq, true_and] at h
      obtain ⟨hchain, _⟩ := ih h
      refine ⟨List.isChain_cons.mpr ⟨?_, hchain⟩, by simp [hy]⟩
      intro z _
      simp [hy]

theorem sweepsClean_iff :
    SweepsClean remove xs ↔ removeNodes remove xs = xs.filter (fun y => !remove y) := by
  refine ⟨SweepsClean.removeNodes_eq, ?_⟩
  induction xs with
  | nil => exact fun _ => List.IsChain.nil
  | cons y ys ih =>
    intro h
    rw [removeNodes] at h
    cases hy : remove y with
    | true =>
      simp only [hy, if_true, Bool.not_true, List.filter_cons, Bool.false_eq_true, if_false] at h
      simpa [SweepsClean, hy] using ih h
    | false =>
      simp only [hy, Bool.false_eq_true, if_false, List.filter_cons, Bool.not_false, if_true,
        List.cons.injEq, true_and] at h
      obtain ⟨hchain, _⟩ := removeNodesAfter_exact h
      have hfull : (y :: ys).IsChain (fun x y => ¬(remove x ∧ remove y)) := by
        refine List.isChain_cons.mpr ⟨?_, hchain⟩
        intro z _
        simp [hy]
      simpa [SweepsClean, hy] using hfull

theorem removeNodes_named {name : α → String} (hnames : (xs.map name).Nodup) (n : String) :
    removeNodes (fun task => decide (name task = n)) xs =
      xs.filter (fun task => !decide (name task = n)) := by
  apply SweepsClean.removeNodes_eq
  apply sweepsClean_of_pairwise
  refine (List.pairwise_map.mp hnames).imp ?_
  intro x y hne hxy
  simp only [decide_eq_true_eq] at hxy
  exact hne (hxy.1.trans hxy.2.symm)

end Unlinking

def killedNamed (queue : List TaskStruct) (task : TaskStruct) : Bool :=
  queue.any (fun t => t.taskState = .killed && t.name = task.name)

def DeletesFlagged (σ : Sim) (queue : List TaskStruct) : Prop :=
  (handleTasksToDelete σ queue).2 = queue.filter (fun t => !t.flagged) ∧
    (handleTasksToDelete σ queue).1.tasks = σ.tasks.filter (fun task => !killedNamed queue task)

instance (σ : Sim) (queue : List TaskStruct) : Decidable (DeletesFlagged σ queue) :=
  inferInstanceAs (Decidable (_ ∧ _))

theorem deleteFlagged_tasks {st : Sim × List TaskStruct}
    (hnames : (st.1.tasks.map TaskStruct.name).Nodup) (t : TaskStruct) :
    (deleteFlagged st t).1.tasks = st.1.tasks.filter (fun task => !killedNamed [t] task) := by
  rw [deleteFlagged]
  cases hkilled : decide (t.taskState = .killed) with
  | true =>
    have hstate := of_decide_eq_true hkilled
    have hflag : t.flagged = true := by simp [TaskStruct.flagged, hstate]
    have htasks : (deleteTask st.1 t).1.tasks =
        removeNodes (fun task => task.name = t.name) st.1.tasks := by
      rw [deleteTask, if_pos hstate]
      exact (unlockResources_unlocking (abortTask st.1 t) t).tasks
    rw [if_pos hflag]
    refine htasks.trans ((removeNodes_named hnames t.name).trans ?_)
    apply List.filter_congr
    intro task _
    simp [killedNamed, hstate, eq_comm]
  | false =>
    have hstate := of_decide_eq_false hkilled
    have hall : st.1.tasks.filter (fun task => !killedNamed [t] task) = st.1.tasks := by
      rw [List.filter_eq_self]
      simp [killedNamed, hstate]
    rw [hall]
    split
    · have htasks : (deleteTask st.1 t).1.tasks = st.1.tasks := by
        rw [deleteTask, if_neg hstate]
        exact (unlockResources_unlocking st.1 t).tasks
      exact htasks
    · rfl

theorem foldl_deleteFlagged_tasks (queue : List TaskStruct) (st : Sim × List TaskStruct)
    (hnames : (st.1.tasks.map TaskStruct.name).Nodup) :
    (queue.foldl deleteFlagged st).1.tasks =
      st.1.tasks.filter (fun task => !killedNamed queue task) := by
  induction queue generalizing st with
  | nil => simp [killedNamed]
  | cons t queue ih =>
    have hstep := deleteFlagged_tasks hnames t
    have hrest : ((deleteFlagged st t).1.tasks.map TaskStruct.name).Nodup := by
      rw [hstep]
      exact hnames.sublist (List.filter_sublist.map _)
    rw [List.foldl_cons, ih _ hrest, hstep, List.filter_filter]
    apply List.filter_congr
    intro task _
    simp [killedNamed, Bool.and_comm]

theorem handleTasksToDelete_kept (σ : Sim) (queue : List TaskStruct) :
    (handleTasksToDelete σ queue).2 = queue.filter (fun t => !t.flagged) ↔
      SweepsClean TaskStruct.flagged queue := by
  obtain ⟨visited, hvisited, h⟩ := foldl_deleteFlagged queue (σ, [])
  have hkept : (handleTasksToDelete σ queue).2 = removeNodes TaskStruct.flagged visited :=
    congrArg (removeNodes TaskStruct.flagged) hvisited
  rw [hkept, ← forall₂_visited_filter h.visits, ← sweepsClean_iff]
  exact sweepsClean_visited h.visits

theorem deletesFlagged_iff {σ : Sim} {queue : List TaskStruct}
    (hnames : (σ.tasks.map TaskStruct.name).Nodup) :
    DeletesFlagged σ queue ↔ SweepsClean TaskStruct.flagged queue := by
  have htasks : (handleTasksToDelete σ queue).1.tasks =
      σ.tasks.filter (fun task => !killedNamed queue task) :=
    foldl_deleteFlagged_tasks queue (σ, []) hnames
  rw [DeletesFlagged, handleTasksToDelete_kept]
  exact and_iff_left htasks

end Simulator

namespace SimulatorV4

open Simulator (SweepsClean sweepsClean_iff removeNodes_named)

def killedNamed (queue : List SimTaskStruct) (task : SimTaskStruct) : Bool :=
  queue.any (fun t => t.killed && t.name = task.name)

def DeletesFlagged (σ : State) : Prop :=
  (handleTasksToDelete σ).readyQueue = σ.readyQueue.filter (fun t => !t.flagged) ∧
    (handleTasksToDelete σ).tasks = σ.tasks.filter (fun task => !killedNamed σ.readyQueue task)

theorem killed_flagged {t : SimTaskStruct} (h : t.killed = true) : t.flagged = true := by
  rw [SimTaskStruct.killed, decide_eq_true_eq] at h
  rw [SimTaskStruct.flagged, h]
  rfl

theorem deleteFlagged_tasks {σ : State} (hnames : (σ.tasks.map SimTaskStruct.name).Nodup)
    (t : SimTaskStruct) :
    (deleteFlagged σ t).tasks = σ.tasks.filter (fun task => !killedNamed [t] task) := by
  cases hkilled : t.killed with
  | true =>
    rw [deleteFlagged, if_pos (killed_flagged hkilled)]
    dsimp only
    rw [if_pos hkilled, removeNodes_named hnames t.name]
    apply List.filter_congr
    intro task _
    simp [killedNamed, hkilled, eq_comm]
  | false =>
    have hall : σ.tasks.filter (fun task => !killedNamed [t] task) = σ.tasks := by
      rw [List.filter_eq_self]
      simp [killedNamed, hkilled]
    rw [hall, deleteFlagged]
    split
    · simp [hkilled]
    · rfl

theorem foldl_deleteFlagged_tasks (queue : List SimTaskStruct) (σ : State)
    (hnames : (σ.tasks.map SimTaskStruct.name).Nodup) :
    (queue.foldl deleteFlagged σ).tasks =
      σ.tasks.filter (fun task => !killedNamed queue task) := by
  induction queue generalizing σ with
  | nil => simp [killedNamed]
  | cons t queue ih =>
    have hstep := deleteFlagged_tasks hnames t
    have hrest : ((deleteFlagged σ t).tasks.map SimTaskStruct.name).Nodup := by
      rw [hstep]
      exact hnames.sublist (List.filter_sublist.map _)
    rw [List.foldl_cons, ih _ hrest, hstep, List.filter_filter]
    apply List.filter_congr
    intro task _
    simp [killedNamed, Bool.and_comm]

theorem deletesFlagged_iff {σ : State} (hnames : (σ.tasks.map SimTaskStruct.name).Nodup) :
    DeletesFlagged σ ↔ SweepsClean SimTaskStruct.flagged σ.readyQueue := by
  have htasks : (handleTasksToDelete σ).tasks =
      σ.tasks.filter (fun task => !killedNamed σ.readyQueue task) :=
    foldl_deleteFlagged_tasks σ.readyQueue σ hnames
  rw [DeletesFlagged, sweepsClean_iff]
  exact and_iff_left htasks

end SimulatorV4

namespace Simulator

def overtaken (state : TaskState) (row : TaskRow) (i : ℕ) : TaskStruct :=
  { template row i with taskState := state }

def twoMissed : List TaskStruct :=
  [overtaken .ready ⟨"A", 0, 9, 1, 9, []⟩ 3, overtaken .removed ⟨"B", 0, 9, 2, 1, []⟩ 4,
    overtaken .removed ⟨"C", 0, 9, 2, 1, []⟩ 5]

end Simulator
