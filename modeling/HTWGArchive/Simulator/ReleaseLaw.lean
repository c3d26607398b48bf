import HTWGArchive.Simulator.DeletionExact
import HTWGArchive.Simulator.Realtime

namespace Simulator

open PeriodicDemand

-- The jobs that `handle_ready_queue` appends in the tick.
def Tick.entering (t : Tick) : List TaskStruct :=
  t.released.readyQueue.drop t.start.readyQueue.length

structure FullJob (row : TaskRow) (k : ℕ) (x : TaskStruct) : Prop where
  id : x.id = (row.name, k)
  execution : x.tE = row.tE ∧ x.tRemainingE = row.tE
  deadline : x.tD = row.tD ∧ x.localStats = ⟨none, row.tD, row.tD⟩
  resources : x.resources = localResources row.resources
  fresh : x.taskState = .created ∧ x.tElapsed = 0 ∧ x.blockedByResc = none

def killedBefore (before : List Tick) : List String :=
  before.flatMap Tick.kills

structure ReleasesOnTime (rows : List TaskRow) (before : List Tick) (t : Tick) : Prop where
  full : ∀ x ∈ t.entering, ∃ row ∈ rows, ∃ k, FullJob row k x
  once : ∀ row ∈ rows, ∀ k, (t.entering.map TaskStruct.id).count (row.name, k) =
    if before.length = row.tPh.toNat + k * row.tPer.toNat ∧ row.name ∉ killedBefore before then 1
    else 0

def ReleaseLaw (rows : List TaskRow) (ts : List Tick) : Prop :=
  LabelledRun.Along (ReleasesOnTime rows) ts

def numbered (n : ℕ) (e : TaskRow × ℕ) : TaskStruct :=
  { template e.1 e.2 with taskNum := e.1.stream.releasesIn 0 n }

-- The templates that are left after the ticks `before`.
def templatesLeft (rows : List TaskRow) (before : List Tick) : List TaskStruct :=
  (rows.zipIdx.filter (fun e => e.1.name ∉ killedBefore before)).map (numbered before.length)

theorem deleteFromQueues_tasks {σ : Sim} (hnames : (σ.tasks.map TaskStruct.name).Nodup) :
    (deleteFromQueues σ).tasks =
      σ.tasks.filter (fun task => !killedNamed (σ.readyQueue ++ σ.blockedQueue) task) := by
  let mid : Sim :=
    { (handleTasksToDelete σ σ.readyQueue).1 with
      readyQueue := (handleTasksToDelete σ σ.readyQueue).2 }
  have hmid : mid.tasks = σ.tasks.filter (fun task => !killedNamed σ.readyQueue task) :=
    foldl_deleteFlagged_tasks σ.readyQueue (σ, []) hnames
  have hblocked : mid.blockedQueue = σ.blockedQueue :=
    (handleTasksToDelete_swept σ σ.readyQueue).blocked
  have hmidnames : (mid.tasks.map TaskStruct.name).Nodup := by
    rw [hmid]
    exact hnames.sublist (List.filter_sublist.map _)
  have hfinal : (deleteFromQueues σ).tasks =
      mid.tasks.filter (fun task => !killedNamed mid.blockedQueue task) :=
    foldl_deleteFlagged_tasks mid.blockedQueue (mid, []) hmidnames
  rw [hfinal, hmid, hblocked, List.filter_filter]
  apply List.filter_congr
  intro task _
  rw [killedNamed, killedNamed, killedNamed, List.any_append, Bool.not_or, Bool.and_comm]

theorem killedNamed_kills (t : Tick) (task : TaskStruct) :
    killedNamed (t.checked.readyQueue ++ t.checked.blockedQueue) task =
      decide (task.name ∈ t.kills) := by
  rw [Bool.eq_iff_iff, decide_eq_true_eq, Tick.kills, killedNamed, List.any_eq_true]
  simp only [List.mem_map, List.mem_filter, Bool.and_eq_true, decide_eq_true_eq, and_assoc]

section Templates

variable {rows : List TaskRow} {before : List Tick}

theorem templatesLeft_names (hnames : (rows.map TaskRow.name).Nodup) :
    ((templatesLeft rows before).map TaskStruct.name).Nodup := by
  have hall : (rows.zipIdx.map (fun e => e.1.name)).Nodup := by
    have hmap : rows.zipIdx.map (fun e => e.1.name) = rows.map TaskRow.name := by
      rw [show (fun e : TaskRow × ℕ => e.1.name) = TaskRow.name ∘ Prod.fst from rfl,
        ← List.map_map, List.zipIdx_map_fst]
    rw [hmap]
    exact hnames
  rw [templatesLeft, List.map_map]
  exact hall.sublist (List.filter_sublist.map _)

theorem due_numbered {tick : UInt32} {row : TaskRow} {i n : ℕ}
    (hrange : row.tPh.toNat + row.tPer.toNat < 2 ^ 32) (hper : 1 ≤ row.tPer) :
    due tick (numbered n (row, i)) = row.stream.releasesAt tick.toNat :=
  due_iff hrange (UInt32.le_iff_toNat_le.mp hper)

theorem bump_numbered {tick : UInt32} {row : TaskRow} {i n : ℕ}
    (hrange : row.tPh.toNat + row.tPer.toNat < 2 ^ 32) (hper : 1 ≤ row.tPer)
    (htick : tick.toNat = n) : bump tick (numbered n (row, i)) = numbered (n + 1) (row, i) := by
  rw [bump, due_numbered hrange hper, htick]
  simp only [numbered, releasesIn_succ (Nat.zero_le n)]
  split
  · rfl
  · rfl

theorem map_bump_templatesLeft {tick : UInt32}
    (hrange : ∀ row ∈ rows, row.tPh.toNat + row.tPer.toNat < 2 ^ 32)
    (hper : ∀ row ∈ rows, 1 ≤ row.tPer) (htick : tick.toNat = before.length) :
    (templatesLeft rows before).map (bump tick) =
      (rows.zipIdx.filter (fun e => e.1.name ∉ killedBefore before)).map
        (numbered (before.length + 1)) := by
  rw [templatesLeft, List.map_map]
  apply List.map_congr_left
  intro e he
  have hrow : e.1 ∈ rows := List.fst_mem_of_mem_zipIdx (List.mem_of_mem_filter he)
  exact bump_numbered (hrange e.1 hrow) (hper e.1 hrow) htick

theorem templatesLeft_snoc (t : Tick) :
    templatesLeft rows (before ++ [t]) =
      ((rows.zipIdx.filter (fun e => e.1.name ∉ killedBefore before)).map
        (numbered (before.length + 1))).filter (fun task => !decide (task.name ∈ t.kills)) := by
  rw [templatesLeft, List.filter_map, List.filter_filter, List.length_append, List.length_singleton]
  congr 1
  apply List.filter_congr
  intro e _
  have hname : ((fun task => !decide (task.name ∈ t.kills)) ∘ numbered (before.length + 1)) e =
      !decide (e.1.name ∈ t.kills) := rfl
  have hkills : killedBefore (before ++ [t]) = killedBefore before ++ t.kills := by
    simp [killedBefore]
  rw [hname, Bool.eq_iff_iff]
  simp only [hkills, List.mem_append, not_or, decide_eq_true_eq, Bool.and_eq_true,
    Bool.not_eq_true', decide_eq_false_iff_not, and_comm]

end Templates

theorem handlePendingQueue_entering {σ pending : Sim} (hpending : σ.pendingQueue = [])
    (h : handlePendingQueue σ = some pending) :
    ∃ fresh, (handleReadyQueue pending).readyQueue =
      σ.readyQueue ++ copyList fresh (σ.tasks.filter (due σ.tick)) := by
  rw [handlePendingQueue] at h
  split at h
  · cases h
  · obtain rfl := Option.some_inj.mp h
    refine ⟨σ.fresh + (σ.tasks.filter (due σ.tick)).length, ?_⟩
    simp only [handleReadyQueue, hpending, List.nil_append, copyList_copyList]

theorem simTick_entering {cfg : Config} {σ : Sim} {t : Tick} (hpending : σ.pendingQueue = [])
    (h : simTick cfg σ = some t) :
    ∃ fresh, t.entering = copyList fresh (σ.tasks.filter (due σ.tick)) := by
  obtain ⟨pending, hpend, rfl⟩ := Option.map_eq_some_iff.mp h
  obtain ⟨fresh, hready⟩ := handlePendingQueue_entering hpending hpend
  refine ⟨fresh, ?_⟩
  have hdrop : (tickAfterRelease cfg σ pending).entering =
      (handleReadyQueue pending).readyQueue.drop σ.readyQueue.length := rfl
  rw [hdrop, hready, List.drop_left]

theorem TickPhases.tasks_final {cfg : Config} {t : Tick} (h : TickPhases cfg t) :
    t.final.tasks = t.deleted.tasks := by
  have hboard : t.final.board.tasks = t.deleted.board.tasks := by
    rw [resuming_tasks h.resumed, h.ran.tasks, waiting_tasks h.rounds]
  exact hboard

theorem TickPhases.tasks_checked {cfg : Config} {t : Tick} (h : TickPhases cfg t) :
    t.checked.tasks = t.start.tasks.map (bump t.start.tick) := by
  obtain ⟨fresh, _, hboard⟩ := h.released
  have hchecked : t.checked.board.tasks = t.start.board.tasks.map (bump t.start.tick) := by
    rw [h.checked, Board.check, hboard]
    rfl
  exact hchecked

structure Releasing (rows : List TaskRow) (before : List Tick) (σ : Sim) : Prop where
  sound : Sound σ
  tick : σ.tick = UInt32.ofNat before.length
  tasks : σ.tasks = templatesLeft rows before

section Law

variable {cfg : Config} {rows : List TaskRow} {before : List Tick} {σ : Sim} {t : Tick}

theorem Releasing.toNat_tick (h : Releasing rows before σ) (hlen : before.length < 2 ^ 32) :
    σ.tick.toNat = before.length := by
  rw [h.tick, UInt32.toNat_ofNat']
  exact Nat.mod_eq_of_lt hlen

theorem Releasing.step {σ' : Sim} (h : Releasing rows before σ) (hlen : before.length < 2 ^ 32)
    (hnames : (rows.map TaskRow.name).Nodup)
    (hrange : ∀ row ∈ rows, row.tPh.toNat + row.tPer.toNat < 2 ^ 32)
    (hper : ∀ row ∈ rows, 1 ≤ row.tPer) (hstep : Step cfg σ t σ') :
    Releasing rows (before ++ [t]) σ' := by
  have hsound := hstep.sound h.sound
  obtain ⟨_, htick, rfl⟩ := hstep
  obtain ⟨hstart, hphases⟩ := simTick_phases h.sound htick
  refine ⟨hsound, ?_, ?_⟩
  · rw [simTick_tick htick, h.tick, List.length_append, List.length_singleton, UInt32.ofNat_add]
    rfl
  · have hchecked : t.checked.tasks =
        (rows.zipIdx.filter (fun e => e.1.name ∉ killedBefore before)).map
          (numbered (before.length + 1)) := by
      rw [hphases.tasks_checked, hstart, h.tasks,
        map_bump_templatesLeft hrange hper (h.toNat_tick hlen)]
    have hchecknames : (t.checked.tasks.map TaskStruct.name).Nodup := by
      rw [hchecked, List.map_map]
      have hleft : ((templatesLeft rows before).map TaskStruct.name).Nodup :=
        templatesLeft_names hnames
      rw [templatesLeft, List.map_map] at hleft
      exact hleft
    have hdeleted : t.deleted = deleteFromQueues t.checked := by
      obtain ⟨pending, _, rfl⟩ := Option.map_eq_some_iff.mp htick
      rfl
    rw [hphases.tasks_final, hdeleted, deleteFromQueues_tasks hchecknames, templatesLeft_snoc,
      hchecked]
    exact List.filter_congr (fun task _ => congrArg Bool.not (killedNamed_kills t task))

theorem mem_due_templatesLeft (hnames : (rows.map TaskRow.name).Nodup)
    (hrange : ∀ row ∈ rows, row.tPh.toNat + row.tPer.toNat < 2 ^ 32)
    (hper : ∀ row ∈ rows, 1 ≤ row.tPer) {tick : UInt32} (htick : tick.toNat = before.length)
    {row : TaskRow} (hrow : row ∈ rows) (k : ℕ) :
    (row.name, k) ∈ ((templatesLeft rows before).filter (due tick)).map TaskStruct.id ↔
      before.length = row.tPh.toNat + k * row.tPer.toNat ∧ row.name ∉ killedBefore before := by
  have hpos : ∀ r ∈ rows, 0 < r.stream.period := fun r hr => UInt32.le_iff_toNat_le.mp (hper r hr)
  simp only [templatesLeft, List.mem_map, List.mem_filter, decide_eq_true_eq]
  constructor
  · rintro ⟨x, ⟨⟨⟨r, i⟩, ⟨hr, halive⟩, rfl⟩, hdue⟩, hid⟩
    have hr : r ∈ rows := List.fst_mem_of_mem_zipIdx hr
    have hname : r.name = row.name := congrArg Prod.fst hid
    obtain rfl := List.inj_on_of_nodup_map hnames hr hrow hname
    have hnum : r.stream.releasesIn 0 before.length = k := congrArg Prod.snd hid
    rw [due_numbered (hrange r hr) (hper r hr), htick, releasesAt_iff] at hdue
    obtain ⟨k', hk'⟩ := hdue
    rw [hk', releasesIn_progression (hpos r hr)] at hnum
    rw [hnum] at hk'
    exact ⟨hk', halive⟩
  · rintro ⟨hlast, halive⟩
    obtain ⟨i, hi⟩ : ∃ i, (row, i) ∈ rows.zipIdx := by
      rw [← List.zipIdx_map_fst 0 rows] at hrow
      obtain ⟨⟨r, i⟩, hmem, rfl⟩ := List.mem_map.mp hrow
      exact ⟨i, hmem⟩
    refine ⟨numbered before.length (row, i), ⟨⟨(row, i), ⟨hi, halive⟩, rfl⟩, ?_⟩, ?_⟩
    · rw [due_numbered (hrange row hrow) (hper row hrow), htick, releasesAt_iff]
      exact ⟨k, hlast⟩
    · have hnum : row.stream.releasesIn 0 before.length = k := by
        rw [hlast]
        exact releasesIn_progression (hpos row hrow) k
      exact congrArg (Prod.mk row.name) hnum

theorem numbered_full {row : TaskRow} {i n a : ℕ} :
    FullJob row (row.stream.releasesIn 0 n) (copyNode a (numbered n (row, i))) :=
  ⟨rfl, ⟨rfl, rfl⟩, ⟨rfl, rfl⟩, rfl, ⟨rfl, rfl, rfl⟩⟩

theorem Releasing.releasesOnTime (h : Releasing rows before σ) (hlen : before.length < 2 ^ 32)
    (hnames : (rows.map TaskRow.name).Nodup)
    (hrange : ∀ row ∈ rows, row.tPh.toNat + row.tPer.toNat < 2 ^ 32)
    (hper : ∀ row ∈ rows, 1 ≤ row.tPer) (htick : simTick cfg σ = some t) :
    ReleasesOnTime rows before t := by
  obtain ⟨fresh, hentering⟩ := simTick_entering h.sound.pending htick
  rw [h.tasks] at hentering
  refine ⟨?_, ?_⟩
  · intro x hx
    rw [hentering] at hx
    obtain ⟨y, hy, hxy⟩ := mem_copyList hx
    obtain ⟨⟨row, i⟩, hrow, rfl⟩ := List.mem_map.mp (List.mem_of_mem_filter hy)
    rw [hxy]
    exact ⟨row, List.fst_mem_of_mem_zipIdx (List.mem_of_mem_filter hrow), _, numbered_full⟩
  · intro row hrow k
    have hids : ((templatesLeft rows before).filter (due σ.tick)).map TaskStruct.id |>.Nodup := by
      apply List.Nodup.of_map Prod.fst
      rw [List.map_map]
      exact (templatesLeft_names hnames).sublist (List.filter_sublist.map _)
    have hmem := mem_due_templatesLeft hnames hrange hper (h.toNat_tick hlen) hrow k
    rw [hentering, map_id_copyList]
    split
    · rename_i hdue
      exact List.count_eq_one_of_mem hids (hmem.mpr hdue)
    · rename_i hdue
      exact List.count_eq_zero_of_not_mem (fun hin => hdue (hmem.mp hin))

end Law

theorem initial_releasing (rows : List TaskRow) : Releasing rows [] (initial rows) := by
  refine ⟨initial_sound rows, rfl, ?_⟩
  have hall : rows.zipIdx.filter (fun e => e.1.name ∉ killedBefore []) = rows.zipIdx := by
    rw [List.filter_eq_self]
    intro e _
    simp [killedBefore]
  rw [templatesLeft, hall]
  apply List.map_congr_left
  intro e _
  simp only [numbered, List.length_nil, releasesIn_self]
  rfl

def killedEarly : List TaskRow :=
  [⟨"A", 1, 4, 2, 4, [("R", 0, 1)]⟩, ⟨"B", 0, 3, 3, 2, []⟩]

end Simulator
