import HTWGArchive.Simulator.Sections

namespace Simulator

structure Waits (t t' : TaskStruct) (b b' : Board) : Prop where
  mem : t ∈ b.ready
  job : t'.fixed = t.fixed
  state : t'.taskState = .blocked
  entries : (Nodes t.resources).Nodup → List.Forall₂ Later t.resources t'.resources
  tasks : b'.tasks = b.tasks
  ready : b'.ready = removeNodes (fun x => x.addr = t.addr) b.ready
  blocked : b'.blocked = b.blocked ++ [copyNode b.fresh t']
  rows : RowsTaken t.ref b.resources b'.resources
  fresh : b'.fresh = b.fresh + 1

def Waiting (b b' : Board) : Prop :=
  ∃ t t', Waits t t' b b'

structure Runs (t t' : TaskStruct) (b b' : Board) : Prop where
  mem : t ∈ b.ready
  job : t'.fixed = t.fixed
  state : t'.taskState = t.taskState
  entries : (Nodes t.resources).Nodup → List.Forall₂ Later t.resources t'.resources
  tasks : b'.tasks = b.tasks
  ready : b'.ready = b.ready.map (updateAt t.addr (fun _ => t'))
  blocked : b'.blocked = b.blocked.map (updateAt t.addr (fun _ => t'))
  rows : RowsTaken t.ref b.resources b'.resources
  fresh : b'.fresh = b.fresh
  held : (b.resources.map GlobalTaskResource.name).Nodup →
    ∀ e ∈ t.resources, InSection e → HeldByTask t.name e.name b'.resources

inductive Dispatched (d : Dispatch) : Prop where
  | idle : d.job = none → d.next = none → d.picked = d.chosen → d.chosen.readyQueue = [] →
      Dispatched d
  | running (t t' : TaskStruct) : d.job = some t → d.next = some t' →
      Runs t.core t'.core d.chosen.board d.picked.board → Dispatched d

theorem prioritizeQueues_readyQueue_nil {cfg : Config} {σ : Sim} (h : σ.readyQueue = []) :
    (prioritizeQueues cfg σ).readyQueue = [] := by
  simp [prioritizeQueues, prioritizeTasks, h]

theorem prioritizeQueues_readyQueue_length (cfg : Config) (σ : Sim) :
    (prioritizeQueues cfg σ).readyQueue.length = σ.readyQueue.length := by
  simp [prioritizeQueues, prioritizeTasks]

def NoneBlocked (q : List TaskStruct) : Prop :=
  ∀ x ∈ q, x.taskState ≠ .blocked

theorem removeNodes_length_lt {α : Type} {remove : α → Bool} {x : α} {xs : List α} (hx : x ∈ xs)
    (hremove : remove x = true) : (removeNodes remove xs).length < xs.length := by
  have hafter : ∀ (xs : List α), x ∈ xs →
      (removeNodesAfter remove true xs).length < xs.length := by
    intro xs
    induction xs with
    | nil => exact fun hx => absurd hx List.not_mem_nil
    | cons y ys ih =>
      intro hx
      rw [removeNodesAfter, Bool.and_true]
      have hle := (removeNodesAfter_sublist remove false ys).length_le
      split
      · simpa using Nat.lt_succ_of_le hle
      · rename_i hy
        rcases List.mem_cons.mp hx with rfl | hx
        · exact absurd hremove hy
        · simpa using ih hx
  induction xs with
  | nil => exact absurd hx List.not_mem_nil
  | cons y ys ih =>
    rw [removeNodes]
    split
    · simpa using Nat.lt_succ_of_le (removeNodes_sublist remove ys).length_le
    · rename_i hy
      rcases List.mem_cons.mp hx with rfl | hx
      · exact absurd hremove hy
      · simpa using hafter ys hx

theorem mem_board_ready {σ : Sim} {t : TaskStruct} (h : t ∈ σ.readyQueue) :
    t.core ∈ σ.board.ready :=
  List.mem_map_of_mem h

theorem lockResources_waits {cfg : Config} {σ : Sim} {t : TaskStruct} (ht : t ∈ σ.readyQueue)
    (hstart : t.taskState ≠ .blocked) (hblocked : (lockResources cfg σ t).2.taskState = .blocked) :
    Waits t.core (lockResources cfg σ t).2.core σ.board (lockResources cfg σ t).1.board := by
  have h := lockResources_attempt cfg σ t
  have hlater := lockResources_later cfg σ (t := t)
  rcases h.outcome with ⟨hsame, _⟩ | ⟨_, hready, hblockedq, hfresh⟩
  · exact absurd (hsame.symm.trans hblocked) hstart
  · exact ⟨mem_board_ready ht, h.job, hblocked, hlater, h.tasks,
      hready, hblockedq, h.rows, hfresh⟩

theorem lockResources_runs {cfg : Config} {σ : Sim} {t : TaskStruct} (ht : t ∈ σ.readyQueue)
    (hfree : (lockResources cfg σ t).2.taskState ≠ .blocked) :
    Runs t.core (lockResources cfg σ t).2.core σ.board
      ((lockResources cfg σ t).1.modify (lockResources cfg σ t).2.addr
        (fun _ => (lockResources cfg σ t).2)).board := by
  have h := lockResources_attempt cfg σ t
  have hlater := lockResources_later cfg σ (t := t)
  rw [modify_board (g := fun _ => (lockResources cfg σ t).2.core) (fun _ => rfl), h.addr]
  rcases h.outcome with ⟨hsame, hready, hblocked, hfresh⟩ | ⟨hblocked, _⟩
  · refine ⟨mem_board_ready ht, h.job, hsame, hlater, h.tasks, ?_, ?_,
      h.rows, hfresh, fun hnames => lockResources_held hnames hfree⟩
    · simp only [Board.update]
      rw [hready]
      rfl
    · simp only [Board.update]
      rw [hblocked]
      rfl
  · exact absurd hblocked hfree

theorem Waits.noneBlocked {t t' : TaskStruct} {b b' : Board} (h : Waits t t' b b')
    (hready : NoneBlocked b.ready) : NoneBlocked b'.ready := by
  intro x hx
  rw [h.ready] at hx
  exact hready x ((removeNodes_sublist _ _).subset hx)

theorem noneBlocked_core {q : List TaskStruct} :
    NoneBlocked (q.map TaskStruct.core) ↔ NoneBlocked q := by
  simp [NoneBlocked]

theorem Waits.length_lt {t t' : TaskStruct} {b b' : Board} (h : Waits t t' b b') :
    b'.ready.length < b.ready.length := by
  rw [h.ready]
  exact removeNodes_length_lt h.mem (by simp)

-- Every round that blocks shortens the ready queue, so its length is fuel enough.
theorem dispatchLoop_spec {cfg : Config} (fuel : ℕ) {σ : Sim} (hfuel : σ.readyQueue.length ≤ fuel)
    (hready : NoneBlocked σ.readyQueue) :
    Relation.ReflTransGen Waiting σ.board (dispatchLoop cfg fuel σ).chosen.board ∧
      Dispatched (dispatchLoop cfg fuel σ) := by
  induction fuel generalizing σ with
  | zero =>
    have hnil : σ.readyQueue = [] := List.length_eq_zero_iff.mp (Nat.le_zero.mp hfuel)
    rw [dispatchLoop, prioritizeQueues_board]
    exact ⟨Relation.ReflTransGen.refl, Dispatched.idle rfl rfl rfl
      (prioritizeQueues_readyQueue_nil hnil)⟩
  | succ fuel ih =>
    rw [dispatchLoop]
    cases hpick : pickNextTask (prioritizeQueues cfg σ).readyQueue with
    | none =>
      simp only [prioritizeQueues_board]
      exact ⟨Relation.ReflTransGen.refl, Dispatched.idle rfl rfl rfl (pickNextTask_none hpick)⟩
    | some t =>
      dsimp only
      have ht := pickNextTask_mem hpick
      have hboard := prioritizeQueues_board cfg σ
      have hnone : NoneBlocked (prioritizeQueues cfg σ).readyQueue := by
        have h := noneBlocked_core.mpr hready
        rw [show σ.readyQueue.map TaskStruct.core = _ from (congrArg Board.ready hboard).symm] at h
        exact noneBlocked_core.mp h
      split
      · rename_i hblocked
        have hwaits := lockResources_waits ht (hnone t ht) hblocked
        have hlt := hwaits.length_lt
        simp only [Sim.board, List.length_map] at hlt
        rw [prioritizeQueues_readyQueue_length] at hlt
        have hnext := noneBlocked_core.mp (hwaits.noneBlocked (noneBlocked_core.mpr hnone))
        have hrest := ih (by omega) hnext
        refine ⟨Relation.ReflTransGen.head ?_ hrest.1, hrest.2⟩
        rw [← hboard]
        exact ⟨_, _, hwaits⟩
      · rename_i hfree
        refine ⟨?_, Dispatched.running t _ rfl rfl (lockResources_runs ht hfree)⟩
        rw [hboard]

theorem dispatchLoop_still (cfg : Config) (fuel : ℕ) (σ : Sim) :
    (dispatchLoop cfg fuel σ).chosen.still = σ.still ∧
      (dispatchLoop cfg fuel σ).picked.still = σ.still := by
  induction fuel generalizing σ with
  | zero => exact ⟨rfl, rfl⟩
  | succ fuel ih =>
    rw [dispatchLoop]
    cases hpick : pickNextTask (prioritizeQueues cfg σ).readyQueue with
    | none => exact ⟨rfl, rfl⟩
    | some t =>
      have hlock := (lockResources_attempt cfg (prioritizeQueues cfg σ) t).still
      dsimp only
      split
      · rw [(ih _).1, (ih _).2]
        exact ⟨hlock, hlock⟩
      · exact ⟨rfl, hlock⟩

theorem dispatch_spec (cfg : Config) {σ : Sim} (hready : NoneBlocked σ.readyQueue) :
    Relation.ReflTransGen Waiting σ.board (dispatch cfg σ).chosen.board ∧
      Dispatched (dispatch cfg σ) :=
  dispatchLoop_spec σ.readyQueue.length le_rfl hready

end Simulator
