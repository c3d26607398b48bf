import HTWGArchive.Simulator.Identity

namespace Simulator

def AllLive (b : Board) : Prop :=
  ∀ x ∈ b.ready ++ b.blocked, x.flagged = false

theorem AllLive.ready {b : Board} (h : AllLive b) : ∀ x ∈ b.ready, x.flagged = false :=
  fun x hx => h x (List.mem_append_left _ hx)

theorem AllLive.blocked {b : Board} (h : AllLive b) : ∀ x ∈ b.blocked, x.flagged = false :=
  fun x hx => h x (List.mem_append_right _ hx)

theorem AllLive.live_eq {b : Board} (h : AllLive b) : b.live = b.ids := by
  rw [Board.live, Board.ids, liveIds_append, liveIds_eq h.ready]

theorem liveIds_filter (q : List TaskStruct) :
    liveIds (q.filter (fun x => !x.flagged)) = liveIds q := by
  rw [liveIds, liveIds, List.filter_filter]
  congr 1
  apply List.filter_congr
  intro x _
  rw [unflagged, Bool.and_self]

section Deleted

variable {b b' : Board}

theorem Deleted.live_ids (h : Deleted b b') (hready : SweepsClean TaskStruct.flagged b.ready)
    (hblocked : SweepsClean TaskStruct.flagged b.blocked) :
    AllLive b' ∧ b'.ids = b.live := by
  have hr := h.ready.clean hready
  have hb := h.blocked.clean hblocked
  have hlive : ∀ (q : List TaskStruct), ∀ x ∈ q.filter (fun x => !x.flagged), x.flagged = false := by
    intro q x hx
    simpa using (List.mem_filter.mp hx).2
  refine ⟨?_, ?_⟩
  · intro x hx
    rw [hr, hb] at hx
    rcases List.mem_append.mp hx with hx | hx
    · exact hlive _ x hx
    · exact hlive _ x hx
  · rw [Board.ids, Board.live, liveIds_append, hr, hb, ← liveIds_eq (hlive b.ready), liveIds_filter,
      liveIds_filter]

theorem Roster.deleted (h : Roster b) (hdel : Deleted b b') (hids : b'.ids = b.live) :
    Roster b' := by
  refine ⟨?_, h.names.sublist (hdel.tasks.map _), fun x hx => h.tasks x (hdel.tasks.subset hx)⟩
  rw [hids]
  exact h.live_nodup

theorem Fate.deleted {released ended : List (String × ℕ)} (h : Fate released ended b)
    (hdel : Deleted b b') (hlive : AllLive b') (hids : b'.ids = b.live) :
    Fate released ended b' := by
  refine h.keep ?_ hdel.tasks.subset ?_
  · intro j hj
    rw [hids] at hj
    exact b.live_sublist.subset hj
  · intro j
    rw [hlive.live_eq, hids]

end Deleted

section Waits

variable {b b' : Board} {t t' : TaskStruct}

theorem Waits.ready_eq (h : Waits t t' b b') (hwf : WellFormed b) :
    b'.ready = b.ready.filter (fun x => !decide (x.addr = t.addr)) := by
  have hclean : SweepsClean (fun x : TaskStruct => decide (x.addr = t.addr)) b.ready := by
    apply sweepsClean_of_pairwise
    refine (List.pairwise_map.mp hwf.ready_nodup).imp ?_
    intro x y hne hxy
    simp only [decide_eq_true_eq] at hxy
    exact hne (hxy.1.trans hxy.2.symm)
  rw [h.ready, hclean.removeNodes_eq]

theorem ready_perm (hwf : WellFormed b) (ht : t ∈ b.ready) :
    b.ready.Perm (t :: b.ready.filter (fun x => !decide (x.addr = t.addr))) := by
  have hnodup : b.ready.Nodup := List.Nodup.of_map _ hwf.ready_nodup
  have herase : b.ready.erase t = b.ready.filter (fun x => !decide (x.addr = t.addr)) := by
    rw [hnodup.erase_eq_filter]
    apply List.filter_congr
    intro x hx
    rcases eq_or_ne x t with rfl | hne
    · simp
    · have haddr : x.addr ≠ t.addr := fun heq => hne (hwf.ready_inj hx ht heq)
      simp [hne, haddr]
  rw [← herase]
  exact List.perm_cons_erase ht

theorem Waits.ids_perm (h : Waits t t' b b') (hwf : WellFormed b) : b'.ids.Perm b.ids := by
  have hid : t'.id = t.id := (congrArg TaskStruct.id h.job :)
  have hflag : t'.flagged = false := by
    rw [TaskStruct.flagged, h.state]
    rfl
  have hcopy : liveIds [copyNode b.fresh t'] = [t.id] := by
    rw [liveIds_eq (by simpa using hflag)]
    simp [hid]
  rw [Board.ids, Board.ids, h.ready_eq hwf, h.blocked, liveIds_append, hcopy, ← List.append_assoc]
  refine List.perm_append_comm.trans ?_
  rw [List.singleton_append, ← List.cons_append, ← List.map_cons]
  exact ((ready_perm hwf h.mem).symm.map _).append_right _

theorem AllLive.waits (h : AllLive b) (hwaits : Waits t t' b b') : AllLive b' := by
  have hflag : t'.flagged = false := by
    rw [TaskStruct.flagged, hwaits.state]
    rfl
  intro x hx
  rcases List.mem_append.mp hx with hx | hx
  · rw [hwaits.ready] at hx
    exact h.ready x ((removeNodes_sublist _ _).subset hx)
  · rw [hwaits.blocked] at hx
    rcases List.mem_append.mp hx with hx | hx
    · exact h.blocked x hx
    · rw [List.mem_singleton.mp hx]
      exact hflag

end Waits

theorem Roster.of_perm {b b' : Board} (h : Roster b) (hids : b'.ids.Perm b.ids)
    (htasks : b'.tasks = b.tasks) : Roster b' :=
  ⟨hids.nodup_iff.mpr h.ids, by rw [htasks]; exact h.names, by rw [htasks]; exact h.tasks⟩

theorem Fate.of_perm {released ended : List (String × ℕ)} {b b' : Board}
    (h : Fate released ended b) (hids : b'.ids.Perm b.ids) (htasks : b'.tasks = b.tasks)
    (hlive : ∀ j, j ∈ b'.live ↔ j ∈ b.live) : Fate released ended b' :=
  h.keep (fun _ hj => hids.mem_iff.mp hj) (by rw [htasks]; exact List.Subset.refl _) hlive

structure Census (released ended : List (String × ℕ)) (b : Board) : Prop where
  wf : WellFormed b
  roster : Roster b
  fate : Fate released ended b

structure LiveCensus (released ended : List (String × ℕ)) (b : Board) : Prop
    extends Census released ended b where
  live : AllLive b

theorem LiveCensus.waiting {released ended : List (String × ℕ)} {b b' : Board}
    (h : LiveCensus released ended b) (hrounds : Relation.ReflTransGen Waiting b b') :
    LiveCensus released ended b' := by
  induction hrounds with
  | refl => exact h
  | tail _ hstep ih =>
    obtain ⟨t, t', hwaits⟩ := hstep
    have hids := hwaits.ids_perm ih.wf
    have hlive := ih.live.waits hwaits
    refine ⟨⟨ih.wf.waits hwaits, ih.roster.of_perm hids hwaits.tasks,
      ih.fate.of_perm hids hwaits.tasks ?_⟩, hlive⟩
    intro j
    rw [hlive.live_eq, ih.live.live_eq, hids.mem_iff]

-- A rewrite of the ready queue that keeps numbers and flags of the jobs.
theorem Census.mapped {released ended : List (String × ℕ)} {b b' : Board}
    (h : Census released ended b) (hmap : Mapped b b') (hblocked : b'.blocked = b.blocked)
    {f : TaskStruct → TaskStruct} (hready : b'.ready = b.ready.map f)
    (hid : ∀ x ∈ b.ready, (f x).id = x.id)
    (hflag : ∀ x ∈ b.ready, (f x).flagged = x.flagged) : Census released ended b' := by
  have hreadyIds : b'.ready.map TaskStruct.id = b.ready.map TaskStruct.id := by
    rw [hready, List.map_map]
    exact List.map_congr_left hid
  have hids : b'.ids = b.ids := by rw [Board.ids, Board.ids, hreadyIds, hblocked]
  have hlive : ∀ j, j ∈ b'.live ↔ j ∈ b.live := by
    intro j
    simp only [Board.live, liveIds_append, List.mem_append, hready, hblocked, mem_liveIds,
      List.mem_map]
    apply or_congr_left
    constructor
    · rintro ⟨_, ⟨x, hx, rfl⟩, hxf, rfl⟩
      exact ⟨x, hx, (hflag x hx).symm.trans hxf, (hid x hx).symm⟩
    · rintro ⟨x, hx, hxf, rfl⟩
      exact ⟨f x, ⟨x, hx, rfl⟩, (hflag x hx).trans hxf, hid x hx⟩
  have hperm : b'.ids.Perm b.ids := by rw [hids]
  exact ⟨h.wf.mapped hmap, h.roster.of_perm hperm hmap.tasks, h.fate.of_perm hperm hmap.tasks hlive⟩

theorem replace_spec {b : Board} {t t' : TaskStruct} (hwf : WellFormed b) (ht : t ∈ b.ready)
    {β : Type} {f : TaskStruct → β} (hf : f t' = f t) :
    ∀ x ∈ b.ready, f (updateAt t.addr (fun _ => t') x) = f x := by
  intro x hx
  rw [updateAt]
  split
  · rw [hwf.ready_inj hx ht ‹_›, hf]
  · rfl

theorem flagged_of_state {t t' : TaskStruct} (h : t'.taskState = t.taskState) :
    t'.flagged = t.flagged := by
  rw [TaskStruct.flagged, TaskStruct.flagged, h]

theorem LiveCensus.runs {released ended : List (String × ℕ)} {b b' : Board} {t t' : TaskStruct}
    (h : LiveCensus released ended b) (hruns : Runs t t' b b') : LiveCensus released ended b' := by
  have hid : t'.id = t.id := (congrArg TaskStruct.id hruns.job :)
  have hblocked := hruns.blocked.trans (h.wf.blocked_update hruns.mem _)
  have hflags := replace_spec h.wf hruns.mem (f := TaskStruct.flagged) (flagged_of_state hruns.state)
  refine ⟨h.toCensus.mapped (hruns.mapped h.wf) hblocked hruns.ready
    (replace_spec h.wf hruns.mem hid) hflags, ?_⟩
  intro x hx
  rw [hruns.ready, hblocked] at hx
  rcases List.mem_append.mp hx with hx | hx
  · obtain ⟨y, hy, rfl⟩ := List.mem_map.mp hx
    rw [hflags y hy]
    exact h.live.ready y hy
  · exact h.live.blocked x hx

theorem Census.releases {released ended : List (String × ℕ)} {b b' : Board} {n n' : TaskStruct}
    (h : Census released ended b) (hrel : Releases n n' b b') :
    Census released ended b' ∧ b'.blocked = b.blocked := by
  have hid : n'.id = n.id := (congrArg TaskStruct.id hrel.job :)
  have hstate : n'.taskState = n.taskState := (congrArg TaskStruct.taskState hrel.job :)
  have hblocked := hrel.blocked.trans (h.wf.blocked_update hrel.mem _)
  exact ⟨h.mapped (hrel.mapped h.wf) hblocked hrel.ready (replace_spec h.wf hrel.mem hid)
    (replace_spec h.wf hrel.mem (flagged_of_state hstate)), hblocked⟩

theorem removeTaskIfFinishedExecution_flagged (t : TaskStruct) :
    (removeTaskIfFinishedExecution t).flagged = (t.flagged || finishing t) := by
  rw [removeTaskIfFinishedExecution, finishing]
  split
  · rename_i hfin
    rw [hfin, Bool.or_true]
    rfl
  · rename_i hfin
    rw [Bool.eq_false_iff.mpr hfin, Bool.or_false]

theorem work_flagged (cfg : Config) (tick : UInt32) (t : TaskStruct) :
    (work cfg tick t).flagged = (t.flagged || finishing t) := by
  rw [work]
  split
  · exact removeTaskIfFinishedExecution_flagged t
  · exact removeTaskIfFinishedExecution_flagged t

theorem LiveCensus.work {released ended : List (String × ℕ)} {b : Board} {t : TaskStruct}
    (h : LiveCensus released ended b) (cfg : Config) (tick : UInt32) (ht : t ∈ b.ready) :
    Census released (ended ++ if finishing t then [t.id] else [])
      (b.update t.addr (Simulator.work cfg tick)) := by
  have hmap := work_mapped cfg tick b t.addr
  have hblocked : (b.update t.addr (Simulator.work cfg tick)).blocked = b.blocked :=
    h.wf.blocked_update ht _
  have hid : ∀ x ∈ b.ready, (updateAt t.addr (Simulator.work cfg tick) x).id = x.id := by
    intro x _
    exact congrArg JobRef.id (updateAt_ref (fun _ => work_ref cfg tick x))
  have hready : (b.update t.addr (Simulator.work cfg tick)).ready.map TaskStruct.id =
      b.ready.map TaskStruct.id := by
    simp only [Board.update, List.map_map]
    exact List.map_congr_left hid
  have hids : (b.update t.addr (Simulator.work cfg tick)).ids = b.ids := by
    rw [Board.ids, Board.ids, hready, hblocked]
  have hflag : ∀ x ∈ b.ready, (updateAt t.addr (Simulator.work cfg tick) x).flagged =
      decide (x = t ∧ finishing t = true) := by
    intro x hx
    rcases eq_or_ne x t with rfl | hne
    · rw [updateAt, if_pos rfl, work_flagged, h.live.ready x hx, Bool.false_or]
      simp
    · have haddr : x.addr ≠ t.addr := fun heq => hne (h.wf.ready_inj hx ht heq)
      rw [updateAt, if_neg haddr, h.live.ready x hx]
      simp [hne]
  have hperm : (b.update t.addr (Simulator.work cfg tick)).ids.Perm b.ids := by rw [hids]
  refine ⟨h.wf.mapped hmap, h.roster.of_perm hperm rfl, h.fate.lose ?_ (List.Subset.refl _) ?_ ?_⟩
  · intro j hj
    rwa [hids] at hj
  · intro j
    rw [h.live.live_eq]
    simp only [Board.live, liveIds_append, hblocked, List.mem_append, Board.ids]
    simp only [mem_liveIds, Board.update, List.mem_map]
    constructor
    · rintro (⟨_, ⟨x, hx, rfl⟩, hxf, rfl⟩ | ⟨y, hy, hyf, rfl⟩)
      · rw [hid x hx]
        refine ⟨Or.inl ⟨x, hx, rfl⟩, ?_⟩
        intro hmem
        split at hmem
        · rename_i hfin
          rw [List.mem_singleton] at hmem
          have hxt := h.roster.ready_unique hx ht hmem
          rw [hflag x hx] at hxf
          simp [hxt, hfin] at hxf
        · exact List.not_mem_nil hmem
      · refine ⟨Or.inr ⟨y, hy, hyf, rfl⟩, ?_⟩
        intro hmem
        split at hmem
        · exact h.roster.separate ht hy hyf (List.mem_singleton.mp hmem).symm
        · exact List.not_mem_nil hmem
    · rintro ⟨⟨x, hx, rfl⟩ | ⟨y, hy, hyf, rfl⟩, hnot⟩
      · left
        refine ⟨_, ⟨x, hx, rfl⟩, ?_, hid x hx⟩
        rw [hflag x hx]
        simp only [decide_eq_false_iff_not, not_and]
        rintro rfl hfin
        simp [hfin] at hnot
      · exact Or.inr ⟨y, hy, hyf, rfl⟩
  · intro j hj
    split at hj
    · rw [List.mem_singleton.mp hj, h.live.live_eq]
      exact List.mem_append_left _ (List.mem_map_of_mem ht)
    · exact absurd hj List.not_mem_nil

section Resume

variable {b : Board} {picked : TaskStruct}

theorem liveIds_markRemoved (id : String × ℕ) (q : List TaskStruct) :
    liveIds (q.map (markRemoved id)) = (liveIds q).filter (fun j => decide (j ≠ id)) := by
  induction q with
  | nil => rfl
  | cons x q ih =>
    simp only [liveIds, List.map_cons, List.filter_cons] at ih ⊢
    rcases eq_or_ne x.id id with heq | hne
    · have hflag : unflagged (markRemoved id x) = false := by
        rw [markRemoved, if_pos heq]
        rfl
      rw [hflag, if_neg Bool.false_ne_true, ih]
      split
      · rw [List.map_cons, List.filter_cons, if_neg (by simp [heq])]
      · rfl
    · rw [markRemoved, if_neg hne]
      split
      · rw [List.map_cons, List.map_cons, List.filter_cons, if_pos (by simp [hne]), ih]
      · exact ih

theorem liveIds_resume (h : Roster b) (hp : picked ∈ b.blocked) (hlive : picked.flagged = false) :
    (liveIds b.blocked).Perm (picked.id :: liveIds (b.blocked.map (markRemoved picked.id))) := by
  have hnodup : (liveIds b.blocked).Nodup := h.ids.sublist (List.sublist_append_right _ _)
  have hmem : picked.id ∈ liveIds b.blocked := mem_liveIds.mpr ⟨picked, hp, hlive, rfl⟩
  have herase : (liveIds b.blocked).erase picked.id =
      (liveIds b.blocked).filter (fun j => decide (j ≠ picked.id)) := by
    rw [hnodup.erase_eq_filter]
    apply List.filter_congr
    intro j _
    rcases eq_or_ne j picked.id with rfl | hne <;> simp_all
  rw [liveIds_markRemoved, ← herase]
  exact List.perm_cons_erase hmem

theorem resume_ids_perm (h : Roster b) (hp : picked ∈ b.blocked) (hlive : picked.flagged = false) :
    (b.resume picked).ids.Perm b.ids := by
  rw [Board.ids, Board.ids]
  simp only [Board.resume, List.map_append, List.map_cons, List.map_nil, List.append_assoc,
    List.singleton_append]
  exact (liveIds_resume h hp hlive).symm.append_left _

theorem resume_live_perm (h : Roster b) (hp : picked ∈ b.blocked) (hlive : picked.flagged = false) :
    (b.resume picked).live.Perm b.live := by
  rw [Board.live, Board.live]
  simp only [Board.resume, liveIds_append, List.append_assoc]
  exact (liveIds_resume h hp hlive).symm.append_left _

theorem Census.resume {released ended : List (String × ℕ)} (h : Census released ended b)
    (hp : picked ∈ b.blocked) (hlive : picked.flagged = false) :
    Census released ended (b.resume picked) := by
  have hids := resume_ids_perm h.roster hp hlive
  refine ⟨h.wf.resume picked, h.roster.of_perm hids rfl, h.fate.of_perm hids rfl ?_⟩
  exact fun j => (resume_live_perm h.roster hp hlive).mem_iff

end Resume

-- A struct flagged by an earlier resumption waits for a resource that is not visited again.
def Stale (names : List String) (b : Board) : Prop :=
  ∀ y ∈ b.blocked, y.flagged = true → ∀ name ∈ names, y.blockedByResc ≠ some name

theorem markRemoved_blockedByResc (id : String × ℕ) (t : TaskStruct) :
    (markRemoved id t).blockedByResc = t.blockedByResc := by
  rw [markRemoved]
  split <;> rfl

theorem markRemoved_live {id : String × ℕ} {t : TaskStruct} (h : (markRemoved id t).flagged = false) :
    markRemoved id t = t ∧ t.id ≠ id := by
  rw [markRemoved] at h ⊢
  split
  · rename_i heq
    rw [if_pos heq] at h
    cases h
  · exact ⟨rfl, ‹_›⟩

theorem Stale.resume {name : String} {names : List String} {b : Board} {picked : TaskStruct}
    (h : Stale (name :: names) b) (hroster : Roster b) (hname : name ∉ names)
    (hp : picked ∈ b.blocked) (hwait : picked.blockedByResc = some name) :
    picked.flagged = false ∧ Stale names (b.resume picked) := by
  have hlive : picked.flagged = false := by
    rw [Bool.eq_false_iff]
    exact fun hflag => h picked hp hflag name List.mem_cons_self hwait
  refine ⟨hlive, ?_⟩
  intro y hy hflag other hother
  obtain ⟨z, hz, rfl⟩ := List.mem_map.mp hy
  rw [markRemoved_blockedByResc]
  cases hzf : z.flagged with
  | true => exact h z hz hzf other (List.mem_cons_of_mem name hother)
  | false =>
    rcases eq_or_ne z.id picked.id with heq | hne
    · rw [hroster.blocked_unique hz hp hzf hlive heq, hwait]
      intro hsome
      exact hname (Option.some_inj.mp hsome ▸ hother)
    · rw [markRemoved_of_ne hne, hzf] at hflag
      cases hflag

-- What becomes ready at the end of a tick comes from an unflagged struct of the blocked queue.
def FromLive (b b' : Board) : Prop :=
  ∀ x ∈ b'.ready, x ∈ b.ready ∨ ∃ y ∈ b.blocked, y.flagged = false ∧ y.id = x.id

theorem Census.resuming {released ended : List (String × ℕ)} {names : List String} {b b' : Board}
    (h : Census released ended b) (hstale : Stale names b) (hnames : names.Nodup)
    (hres : Resuming names b b') : Census released ended b' ∧ FromLive b b' := by
  induction hres with
  | nil b => exact ⟨h, fun x hx => Or.inl hx⟩
  | skip _ ih =>
    refine ih h ?_ (List.nodup_cons.mp hnames).2
    exact fun y hy hflag name hname => hstale y hy hflag name (List.mem_cons_of_mem _ hname)
  | @cons name names b b' b'' hstep _ ih =>
    obtain ⟨picked, hp, hwait, rfl⟩ := hstep
    obtain ⟨hname, hnames'⟩ := List.nodup_cons.mp hnames
    obtain ⟨hlive, hstale'⟩ := hstale.resume h.roster hname hp hwait
    obtain ⟨hcensus, hfrom⟩ := ih (h.resume hp hlive) hstale' hnames'
    refine ⟨hcensus, ?_⟩
    intro x hx
    rcases hfrom x hx with hx | ⟨y, hy, hflag, hid⟩
    · rcases List.mem_append.mp hx with hx | hx
      · exact Or.inl hx
      · rw [List.mem_singleton.mp hx]
        exact Or.inr ⟨picked, hp, hlive, rfl⟩
    · obtain ⟨z, hz, rfl⟩ := List.mem_map.mp hy
      have hsame := (markRemoved_live hflag).1
      rw [hsame] at hflag hid
      exact Or.inr ⟨z, hz, hflag, hid⟩

end Simulator
