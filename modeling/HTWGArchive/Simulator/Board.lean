import HTWGArchive.Simulator.Scheduling

namespace Simulator

-- What decides who may run and who holds what: everything but priorities and reaction times.
def TaskStruct.core (t : TaskStruct) : TaskStruct :=
  { t with
    tElapsed := 0
    taskPriority := 0
    taskPriorities := none
    localStats := { t.localStats with resourceName := none } }

structure Board where
  tasks : List TaskStruct
  ready : List TaskStruct
  blocked : List TaskStruct
  resources : List GlobalTaskResource
  fresh : ℕ

def Sim.board (σ : Sim) : Board where
  tasks := σ.tasks
  ready := σ.readyQueue.map TaskStruct.core
  blocked := σ.blockedQueue.map TaskStruct.core
  resources := σ.resources
  fresh := σ.fresh

-- What only the main loop changes.
def Sim.still (σ : Sim) : UInt32 × List TaskStruct :=
  (σ.tick, σ.pendingQueue)

def Board.jobs (b : Board) : List TaskStruct :=
  b.ready ++ b.blocked

namespace TaskStruct

variable (t : TaskStruct) (a : ℕ)

@[simp] theorem core_core : t.core.core = t.core := rfl
@[simp] theorem core_addr : t.core.addr = t.addr := rfl
@[simp] theorem core_name : t.core.name = t.name := rfl
@[simp] theorem core_taskNum : t.core.taskNum = t.taskNum := rfl
@[simp] theorem core_id : t.core.id = t.id := rfl
@[simp] theorem core_ref : t.core.ref = t.ref := rfl
@[simp] theorem core_taskState : t.core.taskState = t.taskState := rfl
@[simp] theorem core_flagged : t.core.flagged = t.flagged := rfl
@[simp] theorem core_resources : t.core.resources = t.resources := rfl
@[simp] theorem core_copyNode : (copyNode a t).core = copyNode a t.core := rfl
@[simp] theorem copyNode_addr : (copyNode a t).addr = a := rfl
@[simp] theorem copyNode_id : (copyNode a t).id = t.id := rfl
@[simp] theorem copyNode_flagged : (copyNode a t).flagged = t.flagged := rfl
@[simp] theorem copyNode_resources : (copyNode a t).resources = t.resources := rfl
@[simp] theorem ref_addr : t.ref.addr = t.addr := rfl
@[simp] theorem ref_id : t.ref.id = t.id := rfl

end TaskStruct

@[simp] theorem missed_core (t : TaskStruct) : missed t.core = missed t := rfl

@[simp] theorem map_core_map_core (q : List TaskStruct) :
    (q.map TaskStruct.core).map TaskStruct.core = q.map TaskStruct.core := by
  simp [Function.comp_def]

theorem copyList_map_core (a : ℕ) (q : List TaskStruct) :
    (copyList a q).map TaskStruct.core = copyList a (q.map TaskStruct.core) := by
  induction q generalizing a with
  | nil => rfl
  | cons t q ih => simp [copyList, ih]

theorem copyList_copyList (a b : ℕ) (q : List TaskStruct) :
    copyList a (copyList b q) = copyList a q := by
  induction q generalizing a b with
  | nil => rfl
  | cons t q ih =>
    simp only [copyList, ih]
    rfl

theorem map_addr_copyList (a : ℕ) (q : List TaskStruct) :
    (copyList a q).map TaskStruct.addr = List.range' a q.length := by
  induction q generalizing a with
  | nil => rfl
  | cons t q ih => simp [copyList, ih, List.range'_succ]

theorem mem_copyList {a : ℕ} {q : List TaskStruct} {x : TaskStruct} (h : x ∈ copyList a q) :
    ∃ t ∈ q, x = copyNode x.addr t := by
  induction q generalizing a with
  | nil => exact absurd h List.not_mem_nil
  | cons t q ih =>
    rcases List.mem_cons.mp h with rfl | h
    · exact ⟨t, List.mem_cons_self, rfl⟩
    · obtain ⟨s, hs, hx⟩ := ih h
      exact ⟨s, List.mem_cons_of_mem t hs, hx⟩

theorem map_id_copyList (a : ℕ) (q : List TaskStruct) :
    (copyList a q).map TaskStruct.id = q.map TaskStruct.id := by
  induction q generalizing a with
  | nil => rfl
  | cons t q ih => simp [copyList, ih]

theorem map_core_updateAt {f g : TaskStruct → TaskStruct} (hfg : ∀ t, (f t).core = g t.core)
    (a : ℕ) (q : List TaskStruct) :
    (q.map (updateAt a f)).map TaskStruct.core = (q.map TaskStruct.core).map (updateAt a g) := by
  rw [List.map_map, List.map_map]
  apply List.map_congr_left
  intro t _
  rcases eq_or_ne t.addr a with heq | hne
  · simp [updateAt, heq, hfg]
  · simp [updateAt, hne]

theorem updateAt_id (a : ℕ) : updateAt a (fun t => t) = (fun t => t) := by
  funext t
  simp [updateAt]

theorem map_updateAt_of_notMem {a : ℕ} {f : TaskStruct → TaskStruct} {q : List TaskStruct}
    (h : a ∉ q.map TaskStruct.addr) : q.map (updateAt a f) = q := by
  rw [List.map_congr_left (g := fun t => t), List.map_id']
  intro t ht
  have hne : t.addr ≠ a := fun heq => h (heq ▸ List.mem_map_of_mem ht)
  simp [updateAt, hne]

def Board.update (b : Board) (a : ℕ) (f : TaskStruct → TaskStruct) : Board :=
  { b with ready := b.ready.map (updateAt a f), blocked := b.blocked.map (updateAt a f) }

theorem modify_board {f g : TaskStruct → TaskStruct} (hfg : ∀ t, (f t).core = g t.core)
    (σ : Sim) (a : ℕ) : (σ.modify a f).board = σ.board.update a g := by
  simp [Sim.modify, Sim.board, Board.update, map_core_updateAt hfg]

theorem modify_board_same {f : TaskStruct → TaskStruct} (hf : ∀ t, (f t).core = t.core)
    (σ : Sim) (a : ℕ) : (σ.modify a f).board = σ.board := by
  rw [modify_board (g := fun t => t) hf]
  simp [Board.update, updateAt_id]

theorem prioritizeTasks_map_core (cfg : Config) (inherited : List InheritedNode)
    (q : List TaskStruct) :
    (prioritizeTasks cfg inherited q).map TaskStruct.core = q.map TaskStruct.core := by
  rw [prioritizeTasks, List.map_map]
  apply List.map_congr_left
  intro t _
  rfl

theorem prioritizeQueues_board (cfg : Config) (σ : Sim) :
    (prioritizeQueues cfg σ).board = σ.board := by
  simp [prioritizeQueues, Sim.board, prioritizeTasks_map_core]

theorem foldl_choice_mem {α : Type} {f : α → α → α} (hf : ∀ x y, f x y = x ∨ f x y = y)
    (x : α) (xs : List α) : xs.foldl f x ∈ x :: xs := by
  induction xs generalizing x with
  | nil => simp
  | cons y ys ih =>
    rw [List.foldl_cons]
    rcases List.mem_cons.mp (ih (f x y)) with h | h
    · rw [h]
      rcases hf x y with heq | heq <;> simp [heq]
    · simp [h]

theorem pickNextTask_mem {q : List TaskStruct} {t : TaskStruct} (h : pickNextTask q = some t) :
    t ∈ q := by
  cases q with
  | nil => simp [pickNextTask] at h
  | cons x xs =>
    obtain rfl := Option.some_inj.mp h
    apply foldl_choice_mem
    intro x y
    split
    · exact Or.inr rfl
    · exact Or.inl rfl

theorem pickNextTask_none {q : List TaskStruct} (h : pickNextTask q = none) : q = [] := by
  cases q with
  | nil => rfl
  | cons x xs => simp [pickNextTask] at h

theorem deadlineFlag_core (cfg : Config) (q : List TaskStruct) (t : TaskStruct) :
    deadlineFlag cfg (q.map TaskStruct.core) t.core = deadlineFlag cfg q t := by
  rw [deadlineFlag, List.any_map]
  rfl

theorem handleDeadline_core (cfg : Config) (q : List TaskStruct) (t : TaskStruct) :
    handleDeadline cfg (q.map TaskStruct.core) t.core = (handleDeadline cfg q t).core := by
  rw [handleDeadline, handleDeadline, deadlineFlag_core]
  split <;> rfl

theorem handleDeadlineQueue_map_core (cfg : Config) (q : List TaskStruct) :
    (handleDeadlineQueue cfg q).map TaskStruct.core =
      handleDeadlineQueue cfg (q.map TaskStruct.core) := by
  simp only [handleDeadlineQueue, List.map_map]
  apply List.map_congr_left
  intro t _
  simp only [Function.comp_apply, handleDeadline_core]
  rfl

def Board.check (cfg : Config) (b : Board) : Board :=
  { b with
    ready := handleDeadlineQueue cfg b.ready
    blocked := handleDeadlineQueue cfg b.blocked }

theorem handleDeadlineQueues_board (cfg : Config) (σ : Sim) :
    (handleDeadlineQueues cfg σ).board = σ.board.check cfg := by
  simp [handleDeadlineQueues, Sim.board, Board.check, handleDeadlineQueue_map_core]

def bump (tick : UInt32) (t : TaskStruct) : TaskStruct :=
  if due tick t then { t with taskNum := t.taskNum + 1 } else t

def Board.release (tick : UInt32) (fresh : ℕ) (b : Board) : Board :=
  { b with
    tasks := b.tasks.map (bump tick)
    ready := b.ready ++ copyList fresh ((b.tasks.filter (due tick)).map TaskStruct.core)
    fresh := fresh + (b.tasks.filter (due tick)).length }

-- The pending queue takes one address for every release, its copies in the ready queue another.
theorem release_board {σ pending : Sim} (hpending : σ.pendingQueue = [])
    (h : handlePendingQueue σ = some pending) :
    (handleReadyQueue pending).board =
      σ.board.release σ.tick (σ.fresh + (σ.tasks.filter (due σ.tick)).length) := by
  rw [handlePendingQueue] at h
  split at h
  · cases h
  · obtain rfl := Option.some_inj.mp h
    have hlen : (copyList σ.fresh (σ.tasks.filter (due σ.tick))).length =
        (σ.tasks.filter (due σ.tick)).length := by
      simpa using congrArg List.length (map_addr_copyList σ.fresh (σ.tasks.filter (due σ.tick)))
    simp [handleReadyQueue, Sim.board, Board.release, hpending, copyList_copyList,
      copyList_map_core, hlen, bump]

end Simulator
