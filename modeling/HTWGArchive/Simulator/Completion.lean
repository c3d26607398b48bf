import HTWGArchive.Simulator.Moves

namespace Simulator

def work (cfg : Config) (tick : UInt32) (t : TaskStruct) : TaskStruct :=
  if cfg.tStart ≤ tick then spendTick (removeTaskIfFinishedExecution t)
  else removeTaskIfFinishedExecution t

theorem removeTaskIfFinishedExecution_core (t : TaskStruct) :
    (removeTaskIfFinishedExecution t).core = removeTaskIfFinishedExecution t.core := by
  rw [removeTaskIfFinishedExecution, removeTaskIfFinishedExecution]
  split <;> rename_i h
  · exact (if_pos h).symm
  · exact (if_neg h).symm

theorem spendTick_core (t : TaskStruct) : (spendTick t).core = spendTick t.core := rfl

theorem handleReactionTime_board (σ : Sim) : (handleReactionTime σ).board = σ.board := by
  simp only [handleReactionTime, Sim.board, List.map_map]
  rfl

theorem removeTaskIfFinishedExecution_addr (t : TaskStruct) :
    (removeTaskIfFinishedExecution t).addr = t.addr := by
  rw [removeTaskIfFinishedExecution]
  split <;> rfl

theorem update_update {f g : TaskStruct → TaskStruct} (hf : ∀ t, (f t).addr = t.addr)
    (b : Board) (a : ℕ) : (b.update a f).update a g = b.update a (fun t => g (f t)) := by
  have hcomp : updateAt a g ∘ updateAt a f = updateAt a (fun t => g (f t)) := by
    funext t
    simp only [Function.comp_apply, updateAt]
    split
    · rename_i h
      rw [hf, if_pos h]
    · rfl
  simp [Board.update, hcomp]

theorem execute_board (cfg : Config) {σ : Sim} {a : ℕ} (hnext : σ.next = some a) :
    (execute cfg σ).board = σ.board.update a (work cfg σ.tick) := by
  have hfinish : (handleReactionTime (σ.updateNext removeTaskIfFinishedExecution)).board =
      σ.board.update a removeTaskIfFinishedExecution := by
    rw [handleReactionTime_board, Sim.updateNext, hnext]
    exact modify_board removeTaskIfFinishedExecution_core σ a
  have htick : (handleReactionTime (σ.updateNext removeTaskIfFinishedExecution)).tick = σ.tick := by
    rw [Sim.updateNext, hnext]
    rfl
  have hsame : (handleReactionTime (σ.updateNext removeTaskIfFinishedExecution)).next = some a := by
    rw [Sim.updateNext, hnext]
    exact hnext
  rw [execute]
  simp only [htick]
  rcases Decidable.em (cfg.tStart ≤ σ.tick) with hopen | hclosed
  · have hwork : work cfg σ.tick = fun t => spendTick (removeTaskIfFinishedExecution t) := by
      funext t
      exact if_pos hopen
    rw [if_pos hopen, Sim.updateNext, hsame, hwork,
      ← update_update removeTaskIfFinishedExecution_addr, ← hfinish]
    exact modify_board spendTick_core _ a
  · rw [if_neg hclosed, hfinish]
    have hwork : work cfg σ.tick = removeTaskIfFinishedExecution := by
      funext t
      exact if_neg hclosed
    rw [hwork]

theorem execute_board_idle (cfg : Config) {σ : Sim} (hnext : σ.next = none) :
    (execute cfg σ).board = σ.board := by
  have hfinish : (handleReactionTime (σ.updateNext removeTaskIfFinishedExecution)).board =
      σ.board := by
    rw [handleReactionTime_board, Sim.updateNext, hnext]
  have hsame : (handleReactionTime (σ.updateNext removeTaskIfFinishedExecution)).next = none := by
    rw [Sim.updateNext, hnext]
    exact hnext
  rw [execute]
  split
  · rw [Sim.updateNext, hsame]
    exact hfinish
  · exact hfinish

theorem updateNext_next (σ : Sim) (f : TaskStruct → TaskStruct) : (σ.updateNext f).next = σ.next := by
  rw [Sim.updateNext]
  split <;> rfl

theorem updateNext_still (σ : Sim) (f : TaskStruct → TaskStruct) :
    (σ.updateNext f).still = σ.still := by
  rw [Sim.updateNext]
  split <;> rfl

theorem execute_next (cfg : Config) (σ : Sim) : (execute cfg σ).next = σ.next := by
  rw [execute]
  split
  · rw [updateNext_next]
    exact updateNext_next σ removeTaskIfFinishedExecution
  · exact updateNext_next σ removeTaskIfFinishedExecution

theorem execute_still (cfg : Config) (σ : Sim) : (execute cfg σ).still = σ.still := by
  rw [execute]
  split
  · rw [updateNext_still]
    exact updateNext_still σ removeTaskIfFinishedExecution
  · exact updateNext_still σ removeTaskIfFinishedExecution

theorem deref_ready {σ : Sim} {a : ℕ} (h : a ∈ σ.readyQueue.map TaskStruct.addr) :
    ∃ n ∈ σ.readyQueue, n.addr = a ∧ σ.deref a = some n := by
  obtain ⟨x, hx, hxa⟩ := List.mem_map.mp h
  cases hfind : σ.readyQueue.find? (fun t => decide (t.addr = a)) with
  | none => simpa [hxa] using List.find?_eq_none.mp hfind x hx
  | some n =>
    refine ⟨n, List.mem_of_find?_eq_some hfind, by simpa using List.find?_some hfind, ?_⟩
    simp [Sim.deref, Sim.structs, List.find?_append, hfind]

structure Releases (n n' : TaskStruct) (b b' : Board) : Prop where
  mem : n ∈ b.ready
  job : { n' with resources := [] } = { n with resources := [] }
  entries : n'.resources.Sublist n.resources
  tasks : b'.tasks = b.tasks
  ready : b'.ready = b.ready.map (updateAt n.addr (fun _ => n'))
  blocked : b'.blocked = b.blocked.map (updateAt n.addr (fun _ => n'))
  rows : RowsFreed (· = n.addr) b.resources b'.resources
  fresh : b'.fresh = b.fresh
  gone : ∀ r ∈ b.resources,
    r ∈ b'.resources ∨ ∃ e ∈ n.resources, sectionOver e = true ∧ e.name = r.name

theorem unlockIfFinished_gone {r : GlobalTaskResource} {e : LocalTaskResource}
    {st : Sim × TaskStruct} (hr : r ∈ st.1.resources) :
    r ∈ (unlockIfFinished st e).1.resources ∨ sectionOver e = true ∧ e.name = r.name := by
  rw [unlockIfFinished]
  split
  · rename_i hover
    rw [unlockResource]
    split
    · rcases Decidable.em (holds st.2 e.name r = true) with hheld | hnot
      · have hname : r.name = e.name := by simpa using (Bool.and_eq_true_iff.mp hheld).1
        exact Or.inr ⟨hover, hname.symm⟩
      · exact Or.inl (List.mem_map.mpr ⟨r, hr, if_neg hnot⟩)
    · exact Or.inl hr
  · exact Or.inl hr

theorem foldl_unlockIfFinished_gone {r : GlobalTaskResource} {es : List LocalTaskResource}
    {st : Sim × TaskStruct} (hr : r ∈ st.1.resources) :
    r ∈ (es.foldl unlockIfFinished st).1.resources ∨
      ∃ e ∈ es, sectionOver e = true ∧ e.name = r.name := by
  induction es generalizing st with
  | nil => exact Or.inl hr
  | cons e es ih =>
    rw [List.foldl_cons]
    rcases unlockIfFinished_gone (e := e) hr with hkept | hgone
    · rcases ih hkept with hrest | ⟨x, hx, hover⟩
      · exact Or.inl hrest
      · exact Or.inr ⟨x, List.mem_cons_of_mem e hx, hover⟩
    · exact Or.inr ⟨e, List.mem_cons_self, hgone⟩

theorem releaseSections_releases {σ : Sim} {a : ℕ} (hnext : σ.next = some a)
    (ha : a ∈ σ.readyQueue.map TaskStruct.addr) :
    ∃ n n', n.addr = a ∧ Releases n n' σ.board (releaseSections σ).board := by
  obtain ⟨n, hn, hna, hderef⟩ := deref_ready ha
  have h := unlockResourcesIfFinished_unlocking σ n
  obtain ⟨head, es, hjob⟩ := h.job
  have hboard : (unlockResourcesIfFinished σ n).1.board =
      { σ.board with resources := (unlockResourcesIfFinished σ n).1.resources } := by
    have hready := congrArg Sim.readyQueue h.frame
    have hblocked := congrArg Sim.blockedQueue h.frame
    have hfresh := congrArg Sim.fresh h.frame
    simp only [Sim.queues] at hready hblocked hfresh
    simp only [Sim.board, hready, hblocked, hfresh, h.tasks]
  refine ⟨n.core, (unlockResourcesIfFinished σ n).2.core, hna, ?_⟩
  rw [releaseSections, hnext, Option.bind_some, hderef]
  simp only
  rw [modify_board (g := fun _ => (unlockResourcesIfFinished σ n).2.core) (fun _ => rfl), hboard,
    h.addr]
  refine ⟨mem_board_ready hn, ?_, h.entries, rfl, rfl, rfl, h.rows, rfl, ?_⟩
  · rw [hjob]
    rfl
  · exact fun r hr => foldl_unlockIfFinished_gone hr

theorem handlePreemption_board (σ : Sim) (prev : Option ℕ) :
    (handlePreemption σ prev).board = σ.board := by
  rw [handlePreemption]
  split
  · split <;> rfl
  · rfl

theorem releaseSections_still (σ : Sim) : (releaseSections σ).still = σ.still := by
  rw [releaseSections]
  split
  · rfl
  · rename_i n _
    exact (congrArg Sim.still (unlockResourcesIfFinished_unlocking σ n).frame :)

theorem handlePreemption_still (σ : Sim) (prev : Option ℕ) :
    (handlePreemption σ prev).still = σ.still := by
  rw [handlePreemption]
  split
  · split <;> rfl
  · rfl

def Board.resume (b : Board) (picked : TaskStruct) : Board :=
  { b with
    fresh := b.fresh + 1
    ready := b.ready ++ [{ copyNode b.fresh picked with taskState := .ready }]
    resources :=
      resetUsedByReferences b.resources { copyNode b.fresh picked with taskState := .ready }
    blocked := b.blocked.map (markRemoved picked.id) }

theorem resetRow_cases (t : TaskStruct) (r : GlobalTaskResource) :
    (resetRow t r = r ∧ ∀ o, r.usedBy = some o → o.id ≠ t.id) ∨
      (∃ o, r.usedBy = some o ∧ o.id = t.id) ∧ resetRow t r = { r with usedBy := some t.ref } := by
  cases hused : r.usedBy with
  | none =>
    left
    simp [resetRow, hused]
  | some o =>
    rcases Decidable.em (o.id = t.id) with heq | hne
    · right
      refine ⟨⟨o, rfl, heq⟩, ?_⟩
      simp only [JobRef.id, TaskStruct.id, Prod.mk.injEq] at heq
      simp [resetRow, hused, heq]
    · left
      refine ⟨?_, ?_⟩
      · simp only [JobRef.id, TaskStruct.id, Prod.mk.injEq] at hne
        simp [resetRow, hused, hne]
      · intro o' ho' heq
        obtain rfl := Option.some_inj.mp ho'
        exact hne heq

def Resumes (name : String) (b b' : Board) : Prop :=
  ∃ picked ∈ b.blocked, picked.blockedByResc = some name ∧ b' = b.resume picked

theorem markRemoved_core (id : String × ℕ) (t : TaskStruct) :
    (markRemoved id t).core = markRemoved id t.core := by
  rw [markRemoved, markRemoved]
  split <;> rename_i h
  · exact (if_pos h).symm
  · exact (if_neg h).symm

theorem markRemoved_of_ne {id : String × ℕ} {t : TaskStruct} (h : t.id ≠ id) :
    markRemoved id t = t :=
  if_neg h

theorem resume_board (σ : Sim) (picked : TaskStruct) :
    (resume σ picked).board = σ.board.resume picked.core := by
  simp only [resume, Sim.board, Board.resume, List.map_append, List.map_map]
  congr 1
  apply List.map_congr_left
  intro t _
  exact markRemoved_core picked.id t

theorem pickWaiting_mem {cfg : Config} {σ : Sim} {name : String} {picked : TaskStruct}
    (h : pickWaiting cfg σ name = some picked) :
    picked.core ∈ σ.board.blocked ∧ picked.core.blockedByResc = some name := by
  have hcore := List.mem_map_of_mem (f := TaskStruct.core) (pickNextTask_mem h)
  rw [prioritizeTasks_map_core] at hcore
  obtain ⟨t, ht, htcore⟩ := List.mem_map.mp hcore
  obtain ⟨hmem, hwaits⟩ := List.mem_filter.mp ht
  rw [← htcore]
  have hname : t.blockedByResc = some name := by simpa [waitsFor] using hwaits
  exact ⟨List.mem_map_of_mem hmem, hname⟩

theorem addTaskFromBlockedQueue_board (cfg : Config) (σ : Sim) (name : String) :
    (addTaskFromBlockedQueue cfg σ name).board = σ.board ∨
      Resumes name σ.board (addTaskFromBlockedQueue cfg σ name).board := by
  rw [addTaskFromBlockedQueue]
  split
  · cases hpick : pickWaiting cfg σ name with
    | none => exact Or.inl rfl
    | some picked =>
      obtain ⟨hmem, hname⟩ := pickWaiting_mem hpick
      exact Or.inr ⟨picked.core, hmem, hname, resume_board σ picked⟩
  · exact Or.inl rfl

-- The resources are visited in order, each once.
inductive Resuming : List String → Board → Board → Prop where
  | nil (b : Board) : Resuming [] b b
  | skip {name : String} {names : List String} {b b' : Board} :
      Resuming names b b' → Resuming (name :: names) b b'
  | cons {name : String} {names : List String} {b b' b'' : Board} :
      Resumes name b b' → Resuming names b' b'' → Resuming (name :: names) b b''

theorem foldl_addTask_resuming (cfg : Config) (names : List String) (σ : Sim) :
    Resuming names σ.board (names.foldl (addTaskFromBlockedQueue cfg) σ).board := by
  induction names generalizing σ with
  | nil => exact Resuming.nil σ.board
  | cons name names ih =>
    have hrest := ih (addTaskFromBlockedQueue cfg σ name)
    rw [List.foldl_cons]
    rcases addTaskFromBlockedQueue_board cfg σ name with hsame | hresume
    · rw [hsame] at hrest
      exact Resuming.skip hrest
    · exact Resuming.cons hresume hrest

theorem addTask_still (cfg : Config) (σ : Sim) (name : String) :
    (addTaskFromBlockedQueue cfg σ name).still = σ.still := by
  rw [addTaskFromBlockedQueue]
  split
  · split <;> rfl
  · rfl

theorem addTasks_still (cfg : Config) (σ : Sim) :
    (addTasksFromBlockedQueueToReadyQueue cfg σ).still = σ.still := by
  have hfold : ∀ (names : List String) (σ : Sim),
      (names.foldl (addTaskFromBlockedQueue cfg) σ).still = σ.still := by
    intro names
    induction names with
    | nil => exact fun _ => rfl
    | cons name names ih => exact fun σ => (ih _).trans (addTask_still cfg σ name)
  exact hfold _ σ

theorem addTasks_resuming (cfg : Config) (σ : Sim) :
    Resuming (σ.board.resources.map GlobalTaskResource.name) σ.board
      (addTasksFromBlockedQueueToReadyQueue cfg σ).board :=
  foldl_addTask_resuming cfg (σ.resources.map GlobalTaskResource.name) σ

end Simulator
