import HTWGArchive.Simulator.Unlocking

namespace Simulator

structure Swept (q q' : List TaskStruct) : Prop where
  addrs : (q'.map TaskStruct.addr).Sublist (q.map TaskStruct.addr)
  kept : ∀ x ∈ q, x.flagged = false → x ∈ q'
  origin : ∀ x ∈ q', ∃ y ∈ q, Visited y x
  clean : SweepsClean TaskStruct.flagged q → q' = q.filter (fun x => !x.flagged)

theorem forall₂_visited_map {queue visited : List TaskStruct} {β : Type} {f : TaskStruct → β}
    (hf : ∀ t v, Visited t v → f v = f t) (h : List.Forall₂ Visited queue visited) :
    visited.map f = queue.map f := by
  induction h with
  | nil => rfl
  | cons hv _ ih => rw [List.map_cons, List.map_cons, ih, hf _ _ hv]

theorem forall₂_visited_mem {queue visited : List TaskStruct}
    (h : List.Forall₂ Visited queue visited) {t : TaskStruct} (ht : t ∈ queue) :
    ∃ v ∈ visited, Visited t v := by
  induction h with
  | nil => exact absurd ht List.not_mem_nil
  | cons hv _ ih =>
    rcases List.mem_cons.mp ht with rfl | ht
    · exact ⟨_, List.mem_cons_self, hv⟩
    · obtain ⟨v, hv', hvis⟩ := ih ht
      exact ⟨v, List.mem_cons_of_mem _ hv', hvis⟩

theorem forall₂_visited_origin {queue visited : List TaskStruct}
    (h : List.Forall₂ Visited queue visited) {v : TaskStruct} (hv : v ∈ visited) :
    ∃ t ∈ queue, Visited t v := by
  induction h with
  | nil => exact absurd hv List.not_mem_nil
  | cons hvis _ ih =>
    rcases List.mem_cons.mp hv with rfl | hv
    · exact ⟨_, List.mem_cons_self, hvis⟩
    · obtain ⟨t, ht, htv⟩ := ih hv
      exact ⟨t, List.mem_cons_of_mem _ ht, htv⟩

theorem forall₂_visited_filter {queue visited : List TaskStruct}
    (h : List.Forall₂ Visited queue visited) :
    visited.filter (fun x => !x.flagged) = queue.filter (fun x => !x.flagged) := by
  induction h with
  | nil => rfl
  | @cons t v _ _ hv _ ih =>
    rw [List.filter_cons, List.filter_cons, ih, hv.flagged]
    cases hflag : t.flagged with
    | true => rfl
    | false => rw [hv.unflagged hflag]

theorem sweepsClean_visited {queue visited : List TaskStruct}
    (h : List.Forall₂ Visited queue visited) :
    SweepsClean TaskStruct.flagged visited ↔ SweepsClean TaskStruct.flagged queue := by
  have hv : SweepsClean (fun b : Bool => b) (visited.map TaskStruct.flagged) ↔
      SweepsClean TaskStruct.flagged visited := sweepsClean_map
  have hq : SweepsClean (fun b : Bool => b) (queue.map TaskStruct.flagged) ↔
      SweepsClean TaskStruct.flagged queue := sweepsClean_map
  rw [forall₂_visited_map (fun _ _ => Visited.flagged) h] at hv
  exact hv.symm.trans hq

theorem Visited.core {t v : TaskStruct} (h : Visited t v) : Visited t.core v.core :=
  ⟨h.addr, h.id, h.taskState, h.entries, fun hflag => congrArg TaskStruct.core (h.unflagged hflag)⟩

theorem swept_of_visited {queue visited : List TaskStruct}
    (h : List.Forall₂ Visited queue visited) :
    Swept (queue.map TaskStruct.core)
      ((removeNodes TaskStruct.flagged visited).map TaskStruct.core) := by
  refine ⟨?_, ?_, ?_, ?_⟩
  · have haddr := forall₂_visited_map (f := TaskStruct.addr) (fun _ _ => Visited.addr) h
    have hsub := (removeNodes_sublist TaskStruct.flagged visited).map TaskStruct.addr
    rw [haddr] at hsub
    simpa [Function.comp_def] using hsub
  · intro x hx hflag
    obtain ⟨t, ht, rfl⟩ := List.mem_map.mp hx
    obtain ⟨v, hv, hvis⟩ := forall₂_visited_mem h ht
    obtain rfl := hvis.unflagged hflag
    exact List.mem_map_of_mem (mem_removeNodes hflag hv)
  · intro x hx
    obtain ⟨v, hv, rfl⟩ := List.mem_map.mp hx
    obtain ⟨t, ht, hvis⟩ := forall₂_visited_origin h ((removeNodes_sublist _ _).subset hv)
    exact ⟨t.core, List.mem_map_of_mem ht, hvis.core⟩
  · intro hclean
    have hqueue : SweepsClean TaskStruct.flagged queue := sweepsClean_map.mp hclean
    rw [((sweepsClean_visited h).mpr hqueue).removeNodes_eq, forall₂_visited_filter h,
      List.filter_map]
    rfl

structure Deleted (b b' : Board) : Prop where
  fresh : b'.fresh = b.fresh
  tasks : b'.tasks.Sublist b.tasks
  ready : Swept b.ready b'.ready
  blocked : Swept b.blocked b'.blocked
  rows : RowsFreed (SweptAddr b.tasks b.jobs) b.resources b'.resources
  freed : ∀ x ∈ b.jobs, x.flagged = true →
    FreedOf x.addr (x.resources.map LocalTaskResource.name) b'.resources
  killed : (b.tasks.map TaskStruct.name).Nodup →
    ∀ x ∈ b.jobs, x.taskState = .killed → ∀ y ∈ b'.tasks, y.name ≠ x.name

theorem SweptAddr.mono {tasks tasks' queue queue' : List TaskStruct} {a : ℕ}
    (htasks : tasks ⊆ tasks') (hqueue : queue ⊆ queue') (h : SweptAddr tasks queue a) :
    SweptAddr tasks' queue' a := by
  rcases h with ⟨x, hx, hxa⟩ | ⟨x, hx, hxa⟩
  · exact Or.inl ⟨x, htasks hx, hxa⟩
  · exact Or.inr ⟨x, hqueue hx, hxa⟩

theorem SweptAddr.core {tasks queue : List TaskStruct} {a : ℕ} (h : SweptAddr tasks queue a) :
    SweptAddr tasks (queue.map TaskStruct.core) a := by
  rcases h with hx | ⟨x, hx, hxa⟩
  · exact Or.inl hx
  · exact Or.inr ⟨x.core, List.mem_map_of_mem hx, hxa⟩

structure QueueSwept (queue : List TaskStruct) (σ σ' : Sim) (kept : List TaskStruct) : Prop where
  ready : σ'.readyQueue = σ.readyQueue
  blocked : σ'.blockedQueue = σ.blockedQueue
  fresh : σ'.fresh = σ.fresh
  tick : σ'.tick = σ.tick
  tasks : σ'.tasks.Sublist σ.tasks
  swept : Swept (queue.map TaskStruct.core) (kept.map TaskStruct.core)
  rows : RowsFreed (SweptAddr σ.tasks (queue.map TaskStruct.core)) σ.resources σ'.resources
  freed : ∀ x ∈ queue.map TaskStruct.core, x.flagged = true →
    FreedOf x.addr (x.resources.map LocalTaskResource.name) σ'.resources
  killed : (σ.tasks.map TaskStruct.name).Nodup →
    ∀ x ∈ queue.map TaskStruct.core, x.taskState = .killed → ∀ y ∈ σ'.tasks, y.name ≠ x.name

theorem handleTasksToDelete_swept (σ : Sim) (queue : List TaskStruct) :
    QueueSwept queue σ (handleTasksToDelete σ queue).1 (handleTasksToDelete σ queue).2 := by
  obtain ⟨visited, hvisited, h⟩ := foldl_deleteFlagged queue (σ, [])
  have hready := congrArg Sim.readyQueue h.deleting.frame
  have hblocked := congrArg Sim.blockedQueue h.deleting.frame
  have hfresh := congrArg Sim.fresh h.deleting.frame
  have htick := congrArg Sim.tick h.deleting.frame
  have hkept : (handleTasksToDelete σ queue).2 = removeNodes TaskStruct.flagged visited :=
    congrArg (removeNodes TaskStruct.flagged) hvisited
  refine ⟨hready, hblocked, hfresh, htick, h.deleting.tasks, ?_, h.deleting.rows.mono ?_, ?_, ?_⟩
  · rw [hkept]
    exact swept_of_visited h.visits
  · exact fun a ha => ha.core
  · intro x hx hflag
    obtain ⟨t, ht, rfl⟩ := List.mem_map.mp hx
    exact h.freed t ht hflag
  · intro hnames x hx hkilled
    obtain ⟨t, ht, rfl⟩ := List.mem_map.mp hx
    exact h.killed hnames t ht hkilled

theorem deleteFromQueues_still (σ : Sim) : (deleteFromQueues σ).still = (σ.tick, []) := by
  let mid : Sim :=
    { (handleTasksToDelete σ σ.readyQueue).1 with
      readyQueue := (handleTasksToDelete σ σ.readyQueue).2 }
  have htick := (handleTasksToDelete_swept mid mid.blockedQueue).tick.trans
    (handleTasksToDelete_swept σ σ.readyQueue).tick
  exact congrArg (fun tick => (tick, ([] : List TaskStruct))) htick

theorem deleteFromQueues_deleted (σ : Sim) : Deleted σ.board (deleteFromQueues σ).board := by
  have hr := handleTasksToDelete_swept σ σ.readyQueue
  let mid : Sim :=
    { (handleTasksToDelete σ σ.readyQueue).1 with
      readyQueue := (handleTasksToDelete σ σ.readyQueue).2 }
  have hb : QueueSwept σ.blockedQueue mid (handleTasksToDelete mid mid.blockedQueue).1
      (handleTasksToDelete mid mid.blockedQueue).2 := by
    have h := handleTasksToDelete_swept mid mid.blockedQueue
    rwa [show mid.blockedQueue = σ.blockedQueue from hr.blocked] at h ⊢
  have hready : (deleteFromQueues σ).readyQueue = (handleTasksToDelete σ σ.readyQueue).2 := hb.ready
  refine ⟨hb.fresh.trans hr.fresh, hb.tasks.trans hr.tasks, ?_, hb.swept, ?_, ?_, ?_⟩
  · have h := hr.swept
    rwa [← hready] at h
  · refine RowsFreed.trans (hr.rows.mono ?_) (hb.rows.mono ?_)
    · exact fun a ha => ha.mono (List.Subset.refl _) (List.subset_append_left _ _)
    · exact fun a ha => ha.mono hr.tasks.subset (List.subset_append_right _ _)
  · intro x hx hflag
    rcases List.mem_append.mp hx with hx | hx
    · exact (hr.freed x hx hflag).mono hb.rows
    · exact hb.freed x hx hflag
  · intro hnames x hx hkilled y hy
    rcases List.mem_append.mp hx with hx | hx
    · exact hr.killed hnames x hx hkilled y (hb.tasks.subset hy)
    · exact hb.killed (hnames.sublist (hr.tasks.map _)) x hx hkilled y hy

end Simulator
