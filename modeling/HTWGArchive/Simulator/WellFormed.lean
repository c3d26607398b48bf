import HTWGArchive.Simulator.Completion

namespace Simulator

def Board.structs (b : Board) : List TaskStruct :=
  b.tasks ++ b.ready ++ b.blocked

def Board.addrs (b : Board) : List ℕ :=
  b.structs.map TaskStruct.addr

-- `o` points at the struct it names while that struct is in the ready queue, and at no struct of
-- the blocked queue: a job that waits is represented there by a copy.
structure PointsInto (b : Board) (o : JobRef) : Prop where
  below : o.addr < b.fresh
  notTask : ∀ x ∈ b.tasks, x.addr ≠ o.addr
  notBlocked : ∀ x ∈ b.blocked, x.addr ≠ o.addr
  ready : ∀ x ∈ b.ready, x.addr = o.addr → x.ref = o

structure WellFormed (b : Board) : Prop where
  nodup : b.addrs.Nodup
  below : ∀ a ∈ b.addrs, a < b.fresh
  owners : ∀ r ∈ b.resources, ∀ o, r.usedBy = some o → PointsInto b o
  rowNames : (b.resources.map GlobalTaskResource.name).Nodup
  tasks : NoneBlocked b.tasks
  ready : NoneBlocked b.ready

namespace WellFormed

variable {b b' : Board}

theorem addr_mem {x : TaskStruct} (hx : x ∈ b.structs) : x.addr ∈ b.addrs :=
  List.mem_map_of_mem hx

theorem mem_ready {x : TaskStruct} (hx : x ∈ b.ready) : x ∈ b.structs :=
  List.mem_append_left _ (List.mem_append_right _ hx)

theorem mem_blocked {x : TaskStruct} (hx : x ∈ b.blocked) : x ∈ b.structs :=
  List.mem_append_right _ hx

theorem mem_tasks {x : TaskStruct} (hx : x ∈ b.tasks) : x ∈ b.structs :=
  List.mem_append_left _ (List.mem_append_left _ hx)

theorem ready_nodup (h : WellFormed b) : (b.ready.map TaskStruct.addr).Nodup := by
  have hsub : b.ready.Sublist b.structs :=
    (List.sublist_append_right b.tasks b.ready).trans (List.sublist_append_left _ _)
  exact h.nodup.sublist (hsub.map _)

theorem ready_inj (h : WellFormed b) {x y : TaskStruct} (hx : x ∈ b.ready) (hy : y ∈ b.ready)
    (haddr : x.addr = y.addr) : x = y :=
  List.inj_on_of_nodup_map h.ready_nodup hx hy haddr

theorem blocked_ne (h : WellFormed b) {x y : TaskStruct} (hx : x ∈ b.ready) (hy : y ∈ b.blocked) :
    y.addr ≠ x.addr := by
  have hnodup := h.nodup
  rw [Board.addrs, Board.structs, List.map_append] at hnodup
  have hdisj := (List.nodup_append.mp hnodup).2.2
  have hxmem : x.addr ∈ (b.tasks ++ b.ready).map TaskStruct.addr :=
    List.mem_map_of_mem (List.mem_append_right _ hx)
  exact (hdisj _ hxmem _ (List.mem_map_of_mem hy)).symm

theorem task_ne (h : WellFormed b) {x y : TaskStruct} (hx : x ∈ b.ready) (hy : y ∈ b.tasks) :
    y.addr ≠ x.addr := by
  have hnodup := h.nodup
  rw [Board.addrs, Board.structs, List.append_assoc, List.map_append] at hnodup
  have hdisj := (List.nodup_append.mp hnodup).2.2
  have hxmem : x.addr ∈ (b.ready ++ b.blocked).map TaskStruct.addr :=
    List.mem_map_of_mem (List.mem_append_left _ hx)
  exact hdisj _ (List.mem_map_of_mem hy) _ hxmem

theorem pointsInto_ref (h : WellFormed b) {x : TaskStruct} (hx : x ∈ b.ready) :
    PointsInto b x.ref := by
  refine ⟨h.below _ (addr_mem (mem_ready hx)), fun y hy => h.task_ne hx hy,
    fun y hy => h.blocked_ne hx hy, ?_⟩
  intro y hy haddr
  rw [h.ready_inj hy hx haddr]

theorem blocked_update (h : WellFormed b) {x : TaskStruct} (hx : x ∈ b.ready)
    (f : TaskStruct → TaskStruct) : b.blocked.map (updateAt x.addr f) = b.blocked := by
  apply map_updateAt_of_notMem
  intro hmem
  obtain ⟨y, hy, heq⟩ := List.mem_map.mp hmem
  exact h.blocked_ne hx hy heq

end WellFormed

-- Addresses are kept, dropped, or taken from above `fresh`.
def Grows (b b' : Board) : Prop :=
  b.fresh ≤ b'.fresh ∧ ∃ old new, old.Sublist b.addrs ∧ b'.addrs.Perm (old ++ new) ∧
    new.Nodup ∧ ∀ a ∈ new, b.fresh ≤ a ∧ a < b'.fresh

theorem Grows.nodup {b b' : Board} (h : WellFormed b) (hgrows : Grows b b') : b'.addrs.Nodup := by
  obtain ⟨_, old, new, hold, hperm, hnew, hrange⟩ := hgrows
  rw [hperm.nodup_iff, List.nodup_append]
  refine ⟨h.nodup.sublist hold, hnew, ?_⟩
  intro x hx y hy hxy
  have hlt := h.below x (hold.subset hx)
  have hge := (hrange y hy).1
  omega

theorem Grows.below {b b' : Board} (h : WellFormed b) (hgrows : Grows b b') :
    ∀ a ∈ b'.addrs, a < b'.fresh := by
  obtain ⟨hle, old, new, hold, hperm, _, hrange⟩ := hgrows
  intro a ha
  rcases List.mem_append.mp (hperm.mem_iff.mp ha) with hmem | hmem
  · exact lt_of_lt_of_le (h.below a (hold.subset hmem)) hle
  · exact (hrange a hmem).2

theorem grows_of_sublist {b b' : Board} (hfresh : b'.fresh = b.fresh)
    (haddrs : b'.addrs.Sublist b.addrs) : Grows b b' :=
  ⟨hfresh.ge, b'.addrs, [], haddrs, by simp, List.nodup_nil, by simp⟩

-- Every owner is an owner from before or a job of the ready queue.
structure RowsFrom (b : Board) (rows' : List GlobalTaskResource) : Prop where
  names : rows'.map GlobalTaskResource.name = b.resources.map GlobalTaskResource.name
  owners : ∀ r ∈ rows', ∀ o, r.usedBy = some o →
    r ∈ b.resources ∨ ∃ t ∈ b.ready, o = t.ref

theorem RowsFreed.rowsFrom {P : ℕ → Prop} {b : Board} {rows' : List GlobalTaskResource}
    (h : RowsFreed P b.resources rows') : RowsFrom b rows' :=
  ⟨h.names, fun r hr o ho => Or.inl (h.held r hr o ho)⟩

theorem RowsTaken.rowsFrom {t : TaskStruct} {b : Board} {rows' : List GlobalTaskResource}
    (h : RowsTaken t.ref b.resources rows') (ht : t ∈ b.ready) : RowsFrom b rows' := by
  refine ⟨h.names, ?_⟩
  intro r hr o ho
  rcases h.held r hr with hr | ⟨htaken, _⟩
  · exact Or.inl hr
  · right
    exact ⟨t, ht, Option.some_inj.mp (ho.symm.trans htaken)⟩

theorem RowsFrom.pointsInto {b : Board} {rows' : List GlobalTaskResource} (hb : WellFormed b)
    (h : RowsFrom b rows') {r : GlobalTaskResource} (hr : r ∈ rows') {o : JobRef}
    (ho : r.usedBy = some o) : PointsInto b o := by
  rcases h.owners r hr o ho with hr | ⟨t, ht, rfl⟩
  · exact hb.owners r hr o ho
  · exact hb.pointsInto_ref ht

-- Both queues are rewritten job by job.
structure Mapped (b b' : Board) : Prop where
  tasks : b'.tasks = b.tasks
  fresh : b'.fresh = b.fresh
  ready : ∃ f, b'.ready = b.ready.map f ∧ ∀ x ∈ b.ready,
    (f x).ref = x.ref ∧ (x.taskState ≠ .blocked → (f x).taskState ≠ .blocked)
  blocked : ∃ g, b'.blocked = b.blocked.map g ∧ ∀ x ∈ b.blocked, (g x).ref = x.ref
  rows : RowsFrom b b'.resources

theorem map_addr_of_ref {f : TaskStruct → TaskStruct} {q : List TaskStruct}
    (hf : ∀ x ∈ q, (f x).ref = x.ref) : (q.map f).map TaskStruct.addr = q.map TaskStruct.addr := by
  rw [List.map_map]
  apply List.map_congr_left
  intro x hx
  exact congrArg JobRef.addr (hf x hx)

theorem WellFormed.mapped {b b' : Board} (h : WellFormed b) (hmap : Mapped b b') :
    WellFormed b' := by
  obtain ⟨f, hready, hf⟩ := hmap.ready
  obtain ⟨g, hblocked, hg⟩ := hmap.blocked
  have haddrs : b'.addrs = b.addrs := by
    simp only [Board.addrs, Board.structs, List.map_append, hmap.tasks, hready, hblocked]
    rw [map_addr_of_ref (fun x hx => (hf x hx).1), map_addr_of_ref hg]
  refine ⟨by rw [haddrs]; exact h.nodup, ?_, ?_, ?_, ?_, ?_⟩
  · intro a ha
    rw [haddrs] at ha
    rw [hmap.fresh]
    exact h.below a ha
  · intro r hr o ho
    have hp := hmap.rows.pointsInto h hr ho
    refine ⟨by rw [hmap.fresh]; exact hp.below, by rw [hmap.tasks]; exact hp.notTask, ?_, ?_⟩
    · intro x hx
      rw [hblocked] at hx
      obtain ⟨y, hy, rfl⟩ := List.mem_map.mp hx
      rw [show (g y).addr = y.addr from congrArg JobRef.addr (hg y hy)]
      exact hp.notBlocked y hy
    · intro x hx haddr
      rw [hready] at hx
      obtain ⟨y, hy, rfl⟩ := List.mem_map.mp hx
      have href := (hf y hy).1
      rw [href]
      exact hp.ready y hy ((congrArg JobRef.addr href).symm.trans haddr)
  · rw [hmap.rows.names]
    exact h.rowNames
  · rw [hmap.tasks]
    exact h.tasks
  · intro x hx
    rw [hready] at hx
    obtain ⟨y, hy, rfl⟩ := List.mem_map.mp hx
    exact (hf y hy).2 (h.ready y hy)

theorem handleDeadline_ref (cfg : Config) (q : List TaskStruct) (t : TaskStruct) :
    (decrementDeadline (handleDeadline cfg q t)).ref = t.ref := by
  rw [handleDeadline]
  split <;> rfl

theorem deadlineFlag_ne_blocked {cfg : Config} {q : List TaskStruct} {t : TaskStruct}
    {s : TaskState} (h : deadlineFlag cfg q t = some s) : s = .killed ∨ s = .removed := by
  rw [deadlineFlag] at h
  split at h
  · split at h
    · exact Or.inl (Option.some_inj.mp h).symm
    · cases h
  · split at h
    · exact Or.inr (Option.some_inj.mp h).symm
    · cases h

theorem handleDeadline_ne_blocked (cfg : Config) (q : List TaskStruct) {t : TaskStruct}
    (h : t.taskState ≠ .blocked) :
    (decrementDeadline (handleDeadline cfg q t)).taskState ≠ .blocked := by
  rw [decrementDeadline, handleDeadline]
  split
  · rename_i s hs
    rcases deadlineFlag_ne_blocked hs with rfl | rfl
    · exact TaskState.noConfusion
    · exact TaskState.noConfusion
  · exact h

theorem rowsFrom_refl (b : Board) : RowsFrom b b.resources :=
  ⟨rfl, fun _ hr _ _ => Or.inl hr⟩

theorem check_mapped (cfg : Config) (b : Board) : Mapped b (b.check cfg) :=
  ⟨rfl, rfl,
    ⟨_, rfl, fun x _ => ⟨handleDeadline_ref cfg b.ready x, handleDeadline_ne_blocked cfg b.ready⟩⟩,
    ⟨_, rfl, fun x _ => handleDeadline_ref cfg b.blocked x⟩, rowsFrom_refl b⟩

theorem work_ref (cfg : Config) (tick : UInt32) (t : TaskStruct) : (work cfg tick t).ref = t.ref := by
  rw [work, spendTick, removeTaskIfFinishedExecution]
  split <;> split <;> rfl

theorem work_ne_blocked (cfg : Config) (tick : UInt32) {t : TaskStruct}
    (h : t.taskState ≠ .blocked) : (work cfg tick t).taskState ≠ .blocked := by
  rw [work, spendTick, removeTaskIfFinishedExecution]
  split <;> split
  · exact TaskState.noConfusion
  · exact h
  · exact TaskState.noConfusion
  · exact h

theorem updateAt_ref {a : ℕ} {f : TaskStruct → TaskStruct} {x : TaskStruct}
    (hf : x.addr = a → (f x).ref = x.ref) : (updateAt a f x).ref = x.ref := by
  rw [updateAt]
  split
  · exact hf ‹_›
  · rfl

theorem updateAt_ne_blocked {a : ℕ} {f : TaskStruct → TaskStruct} {x : TaskStruct}
    (hf : x.addr = a → (f x).taskState ≠ .blocked) (hx : x.taskState ≠ .blocked) :
    (updateAt a f x).taskState ≠ .blocked := by
  rw [updateAt]
  split
  · exact hf ‹_›
  · exact hx

theorem update_mapped {b b' : Board} {f : TaskStruct → TaskStruct} {a : ℕ}
    (htasks : b'.tasks = b.tasks) (hfresh : b'.fresh = b.fresh)
    (hready : b'.ready = b.ready.map (updateAt a f))
    (hblocked : b'.blocked = b.blocked.map (updateAt a f))
    (href : ∀ x ∈ b.ready ++ b.blocked, x.addr = a → (f x).ref = x.ref)
    (hstate : ∀ x ∈ b.ready, x.addr = a → x.taskState ≠ .blocked → (f x).taskState ≠ .blocked)
    (hrows : RowsFrom b b'.resources) : Mapped b b' := by
  refine ⟨htasks, hfresh, ⟨_, hready, ?_⟩, ⟨_, hblocked, ?_⟩, hrows⟩
  · intro x hx
    refine ⟨updateAt_ref (href x (List.mem_append_left _ hx)), ?_⟩
    exact fun hne => updateAt_ne_blocked (fun haddr => hstate x hx haddr hne) hne
  · intro x hx
    exact updateAt_ref (href x (List.mem_append_right _ hx))

theorem work_mapped (cfg : Config) (tick : UInt32) (b : Board) (a : ℕ) :
    Mapped b (b.update a (work cfg tick)) :=
  update_mapped rfl rfl rfl rfl (fun x _ _ => work_ref cfg tick x)
    (fun _ _ _ hne => work_ne_blocked cfg tick hne) (rowsFrom_refl b)

theorem replace_mapped {b b' : Board} {t t' : TaskStruct} (h : WellFormed b) (ht : t ∈ b.ready)
    (href : t'.ref = t.ref) (hstate : t'.taskState = t.taskState)
    (htasks : b'.tasks = b.tasks) (hfresh : b'.fresh = b.fresh)
    (hready : b'.ready = b.ready.map (updateAt t.addr (fun _ => t')))
    (hblocked : b'.blocked = b.blocked.map (updateAt t.addr (fun _ => t')))
    (hrows : RowsFrom b b'.resources) : Mapped b b' := by
  refine update_mapped htasks hfresh hready hblocked ?_ ?_ hrows
  · intro x hx haddr
    rcases List.mem_append.mp hx with hx | hx
    · rw [h.ready_inj hx ht haddr, href]
    · exact absurd haddr (h.blocked_ne ht hx)
  · intro x hx haddr hne
    rw [h.ready_inj hx ht haddr] at hne
    rwa [hstate]

theorem Runs.mapped {t t' : TaskStruct} {b b' : Board} (h : WellFormed b) (hruns : Runs t t' b b') :
    Mapped b b' := by
  have href : t'.ref = t.ref := (congrArg TaskStruct.ref hruns.job :)
  exact replace_mapped h hruns.mem href hruns.state hruns.tasks hruns.fresh hruns.ready
    hruns.blocked (hruns.rows.rowsFrom hruns.mem)

theorem Releases.mapped {n n' : TaskStruct} {b b' : Board} (h : WellFormed b)
    (hrel : Releases n n' b b') : Mapped b b' := by
  have href : n'.ref = n.ref := (congrArg TaskStruct.ref hrel.job :)
  have hstate : n'.taskState = n.taskState := (congrArg TaskStruct.taskState hrel.job :)
  exact replace_mapped h hrel.mem href hstate hrel.tasks hrel.fresh hrel.ready hrel.blocked
    hrel.rows.rowsFrom

theorem Visited.ref {t v : TaskStruct} (h : Visited t v) : v.ref = t.ref := by
  have hid := h.id
  simp only [TaskStruct.id, Prod.mk.injEq] at hid
  simp [TaskStruct.ref, h.addr, hid]

theorem WellFormed.deleted {b b' : Board} (h : WellFormed b) (hdel : Deleted b b') :
    WellFormed b' := by
  have haddrs : b'.addrs.Sublist b.addrs := by
    simp only [Board.addrs, Board.structs, List.map_append]
    exact ((hdel.tasks.map _).append hdel.ready.addrs).append hdel.blocked.addrs
  have hgrows := grows_of_sublist hdel.fresh haddrs
  refine ⟨hgrows.nodup h, hgrows.below h, ?_, ?_, ?_, ?_⟩
  · intro r hr o ho
    have hp := h.owners r (hdel.rows.held r hr o ho) o ho
    refine ⟨by rw [hdel.fresh]; exact hp.below, ?_, ?_, ?_⟩
    · exact fun x hx => hp.notTask x (hdel.tasks.subset hx)
    · intro x hx
      obtain ⟨y, hy, hvis⟩ := hdel.blocked.origin x hx
      rw [hvis.addr]
      exact hp.notBlocked y hy
    · intro x hx haddr
      obtain ⟨y, hy, hvis⟩ := hdel.ready.origin x hx
      rw [hvis.ref]
      exact hp.ready y hy (hvis.addr.symm.trans haddr)
  · rw [hdel.rows.names]
    exact h.rowNames
  · exact fun x hx => h.tasks x (hdel.tasks.subset hx)
  · intro x hx
    obtain ⟨y, hy, hvis⟩ := hdel.ready.origin x hx
    rw [hvis.taskState]
    exact h.ready y hy

theorem WellFormed.waits {b b' : Board} {t t' : TaskStruct} (h : WellFormed b)
    (hwaits : Waits t t' b b') : WellFormed b' := by
  have hgrows : Grows b b' := by
    refine ⟨by rw [hwaits.fresh]; exact Nat.le_succ _,
      (b.tasks ++ b'.ready ++ b.blocked).map TaskStruct.addr, [b.fresh], ?_, ?_, ?_, ?_⟩
    · rw [hwaits.ready, Board.addrs, Board.structs]
      exact (((removeNodes_sublist _ _).append_left _).append_right _).map _
    · rw [Board.addrs, Board.structs, hwaits.tasks, hwaits.blocked]
      simp
    · exact List.nodup_singleton _
    · intro a ha
      rw [List.mem_singleton.mp ha, hwaits.fresh]
      exact ⟨le_rfl, Nat.lt_succ_self _⟩
  have hrows := hwaits.rows.rowsFrom hwaits.mem
  refine ⟨hgrows.nodup h, hgrows.below h, ?_, ?_, by rw [hwaits.tasks]; exact h.tasks,
    hwaits.noneBlocked h.ready⟩
  · intro r hr o ho
    have hp := hrows.pointsInto h hr ho
    refine ⟨?_, by rw [hwaits.tasks]; exact hp.notTask, ?_, ?_⟩
    · rw [hwaits.fresh]
      exact Nat.lt_succ_of_lt hp.below
    · intro x hx
      rw [hwaits.blocked] at hx
      rcases List.mem_append.mp hx with hx | hx
      · exact hp.notBlocked x hx
      · rw [List.mem_singleton.mp hx]
        exact hp.below.ne'
    · intro x hx haddr
      rw [hwaits.ready] at hx
      exact hp.ready x ((removeNodes_sublist _ _).subset hx) haddr
  · rw [hrows.names]
    exact h.rowNames

theorem WellFormed.waiting {b b' : Board} (h : WellFormed b)
    (hrounds : Relation.ReflTransGen Waiting b b') : WellFormed b' := by
  induction hrounds with
  | refl => exact h
  | tail _ hstep ih =>
    obtain ⟨t, t', hwaits⟩ := hstep
    exact ih.waits hwaits

theorem bump_ref_addr (tick : UInt32) (t : TaskStruct) : (bump tick t).addr = t.addr := by
  rw [bump]
  split <;> rfl

theorem bump_taskState (tick : UInt32) (t : TaskStruct) : (bump tick t).taskState = t.taskState := by
  rw [bump]
  split <;> rfl

theorem WellFormed.release {b : Board} (h : WellFormed b) (tick : UInt32) {fresh : ℕ}
    (hfresh : b.fresh ≤ fresh) : WellFormed (b.release tick fresh) := by
  have htasks : (b.tasks.map (bump tick)).map TaskStruct.addr = b.tasks.map TaskStruct.addr := by
    rw [List.map_map]
    exact List.map_congr_left (fun x _ => bump_ref_addr tick x)
  have hgrows : Grows b (b.release tick fresh) := by
    refine ⟨hfresh.trans (Nat.le_add_right _ _), b.addrs,
      List.range' fresh (b.tasks.filter (due tick)).length, List.Sublist.refl _, ?_,
      List.nodup_range', ?_⟩
    · simp only [Board.addrs, Board.structs, Board.release, List.map_append, htasks,
        map_addr_copyList, List.length_map, List.append_assoc]
      apply List.Perm.append_left
      apply List.Perm.append_left
      exact List.perm_append_comm
    · intro a ha
      have hrange := List.mem_range'_1.mp ha
      exact ⟨hfresh.trans hrange.1, hrange.2⟩
  refine ⟨hgrows.nodup h, hgrows.below h, ?_, h.rowNames, ?_, ?_⟩
  · intro r hr o ho
    have hp := h.owners r hr o ho
    refine ⟨lt_of_lt_of_le hp.below hgrows.1, ?_, hp.notBlocked, ?_⟩
    · intro x hx
      obtain ⟨y, hy, rfl⟩ := List.mem_map.mp hx
      rw [bump_ref_addr]
      exact hp.notTask y hy
    · intro x hx haddr
      rcases List.mem_append.mp hx with hx | hx
      · exact hp.ready x hx haddr
      · have hmem := List.mem_map_of_mem (f := TaskStruct.addr) hx
        rw [map_addr_copyList, haddr] at hmem
        have hge := (List.mem_range'_1.mp hmem).1
        have hlt := hp.below
        omega
  · intro x hx
    obtain ⟨y, hy, rfl⟩ := List.mem_map.mp hx
    rw [bump_taskState]
    exact h.tasks y hy
  · intro x hx
    rcases List.mem_append.mp hx with hx | hx
    · exact h.ready x hx
    · obtain ⟨y, hy, hxy⟩ := mem_copyList hx
      obtain ⟨z, hz, rfl⟩ := List.mem_map.mp hy
      rw [hxy]
      exact h.tasks z (List.mem_of_mem_filter hz)

theorem WellFormed.resume {b : Board} (h : WellFormed b) (picked : TaskStruct) :
    WellFormed (b.resume picked) := by
  have hblocked : (b.blocked.map (markRemoved picked.id)).map TaskStruct.addr =
      b.blocked.map TaskStruct.addr := by
    apply map_addr_of_ref
    intro x _
    rw [markRemoved]
    split <;> rfl
  have hgrows : Grows b (b.resume picked) := by
    refine ⟨Nat.le_succ _, b.addrs, [b.fresh], List.Sublist.refl _, ?_, List.nodup_singleton _, ?_⟩
    · simp only [Board.addrs, Board.structs, Board.resume, List.map_append, hblocked,
        List.append_assoc, List.map_cons, List.map_nil]
      apply List.Perm.append_left
      apply List.Perm.append_left
      exact List.perm_append_comm
    · intro a ha
      rw [List.mem_singleton.mp ha]
      exact ⟨le_rfl, Nat.lt_succ_self _⟩
  refine ⟨hgrows.nodup h, hgrows.below h, ?_, ?_, h.tasks, ?_⟩
  · intro r hr o ho
    obtain ⟨s, hs, rfl⟩ := List.mem_map.mp hr
    rw [resetRow] at ho
    split at ho
    · obtain rfl := Option.some_inj.mp ho
      refine ⟨Nat.lt_succ_self _, ?_, ?_, ?_⟩
      · exact fun x hx => (h.below _ (WellFormed.addr_mem (WellFormed.mem_tasks hx))).ne
      · intro x hx
        have hmem := List.mem_map_of_mem (f := TaskStruct.addr) hx
        simp only [Board.resume, hblocked] at hmem
        obtain ⟨y, hy, heq⟩ := List.mem_map.mp hmem
        rw [← heq]
        exact (h.below _ (WellFormed.addr_mem (WellFormed.mem_blocked hy))).ne
      · intro x hx haddr
        rcases List.mem_append.mp hx with hx | hx
        · exact absurd haddr (h.below _ (WellFormed.addr_mem (WellFormed.mem_ready hx))).ne
        · rw [List.mem_singleton.mp hx]
    · have hp := h.owners s hs o ho
      refine ⟨Nat.lt_succ_of_lt hp.below, hp.notTask, ?_, ?_⟩
      · intro x hx
        have hmem := List.mem_map_of_mem (f := TaskStruct.addr) hx
        simp only [Board.resume, hblocked] at hmem
        obtain ⟨y, hy, heq⟩ := List.mem_map.mp hmem
        rw [← heq]
        exact hp.notBlocked y hy
      · intro x hx haddr
        rcases List.mem_append.mp hx with hx | hx
        · exact hp.ready x hx haddr
        · rw [List.mem_singleton.mp hx] at haddr
          exact absurd haddr hp.below.ne'
  · have hnames : (b.resume picked).resources.map GlobalTaskResource.name =
        b.resources.map GlobalTaskResource.name := by
      simp only [Board.resume, resetUsedByReferences, List.map_map]
      apply List.map_congr_left
      intro r _
      simp only [Function.comp_apply, resetRow]
      split <;> rfl
    rw [hnames]
    exact h.rowNames
  · intro x hx
    rcases List.mem_append.mp hx with hx | hx
    · exact h.ready x hx
    · rw [List.mem_singleton.mp hx]
      exact TaskState.noConfusion

theorem WellFormed.resuming {names : List String} {b b' : Board} (h : WellFormed b)
    (hres : Resuming names b b') : WellFormed b' := by
  induction hres with
  | nil _ => exact h
  | skip _ ih => exact ih h
  | cons hstep _ ih =>
    obtain ⟨picked, _, _, rfl⟩ := hstep
    exact ih (h.resume picked)

end Simulator
