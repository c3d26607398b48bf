import HTWGArchive.Simulator.Lifecycle

namespace Simulator

theorem abandoned_core (cfg : Config) (q : List TaskStruct) :
    abandoned cfg (q.map TaskStruct.core) = abandoned cfg q := by
  simp only [abandoned, liveIds, List.filter_map, List.map_map, Function.comp_def,
    deadlineFlag_core]
  rfl

def Tick.missed (cfg : Config) (t : Tick) : List (String × ℕ) :=
  abandoned cfg t.released.readyQueue ++ abandoned cfg t.released.blockedQueue

structure TickCensus (cfg : Config) (issued ended : List (String × ℕ)) (t : Tick) : Prop where
  released : Census (issued ++ t.releases) ended t.released.board
  deleted : LiveCensus (issued ++ t.releases) (ended ++ t.missed cfg) t.deleted.board
  chosen : LiveCensus (issued ++ t.releases) (ended ++ t.missed cfg) t.dispatched.chosen.board
  picked : LiveCensus (issued ++ t.releases) (ended ++ t.missed cfg) t.dispatched.picked.board
  executed : Census (issued ++ t.releases) (ended ++ t.ends cfg) t.executed.board
  finished : Census (issued ++ t.releases) (ended ++ t.ends cfg) t.finished.board
  waiting : ∀ y ∈ t.finished.board.blocked, y.flagged = false
  final : Census (issued ++ t.releases) (ended ++ t.ends cfg) t.final.board
  fromLive : FromLive t.finished.board t.final.board

theorem Census.release {released ended : List (String × ℕ)} {b : Board}
    (h : Census released ended b) (tick : UInt32) {fresh : ℕ} (hfresh : b.fresh ≤ fresh) :
    Census (released ++ (b.tasks.filter (due tick)).map TaskStruct.id) ended
      (b.release tick fresh) :=
  ⟨h.wf.release tick hfresh, h.roster.release tick fresh h.fate,
    h.fate.release tick fresh h.roster⟩

theorem Census.deleted {released ended : List (String × ℕ)} {σ : Sim} {b' : Board}
    (h : Census released ended σ.board) (hdel : Deleted σ.board b') (hclean : CleanSweep σ) :
    LiveCensus released ended b' := by
  obtain ⟨hlive, hids⟩ := hdel.live_ids (sweepsClean_map.mpr hclean.ready)
    (sweepsClean_map.mpr hclean.blocked)
  exact ⟨⟨h.wf.deleted hdel, h.roster.deleted hdel hids, h.fate.deleted hdel hlive hids⟩, hlive⟩

theorem TickPhases.census {cfg : Config} {released ended : List (String × ℕ)} {t : Tick}
    (hphases : TickPhases cfg t) (h : Census released ended t.start.board)
    (hclean : CleanSweep t.checked) : TickCensus cfg released ended t := by
  obtain ⟨fresh, hfresh, hboard⟩ := hphases.released
  have hreleased := h.release t.start.tick hfresh
  have hnew : (t.start.board.tasks.filter (due t.start.tick)).map TaskStruct.id = t.releases :=
    hphases.pending.symm
  rw [← hboard, hnew] at hreleased
  have hmissed : abandoned cfg t.released.board.ready ++ abandoned cfg t.released.board.blocked =
      t.missed cfg := by
    rw [Tick.missed, ← abandoned_core cfg t.released.readyQueue,
      ← abandoned_core cfg t.released.blockedQueue]
    rfl
  have hfate := hreleased.fate.check cfg hreleased.roster
  rw [hmissed] at hfate
  have hchecked : Census (released ++ t.releases) (ended ++ t.missed cfg) t.checked.board := by
    rw [hphases.checked]
    exact ⟨hreleased.wf.mapped (check_mapped cfg _), hreleased.roster.check, hfate⟩
  have hdeleted := hchecked.deleted hphases.deleted hclean
  have hchosen := hdeleted.waiting hphases.rounds
  have hran : LiveCensus (released ++ t.releases) (ended ++ t.missed cfg)
        t.dispatched.picked.board ∧
      Census (released ++ t.releases) (ended ++ t.ends cfg) t.executed.board ∧
      Census (released ++ t.releases) (ended ++ t.ends cfg) t.finished.board ∧
      ∀ y ∈ t.finished.board.blocked, y.flagged = false := by
    cases hphases.ran with
    | idle _ hnext _ hpicked hexecuted hfinished =>
      have hends : t.ends cfg = t.missed cfg := by
        rw [Tick.ends, Tick.finishes, hnext, List.append_nil, Tick.missed]
      rw [hexecuted, hfinished, hpicked, hends]
      exact ⟨hchosen, hchosen.toCensus, hchosen.toCensus, hchosen.live.blocked⟩
    | running j j' n' _ hnext hruns hexecuted hreleases =>
      have hpicked := hchosen.runs hruns
      have haddr : j'.core.addr = j.addr := hruns.addr
      have hends : ended ++ t.missed cfg ++ (if finishing j'.core then [j'.core.id] else []) =
          ended ++ t.ends cfg := by
        rw [List.append_assoc, Tick.ends, Tick.finishes, hnext]
        rfl
      have hexec := hpicked.work cfg t.start.tick hruns.mem_picked
      rw [haddr, hends, ← hexecuted] at hexec
      obtain ⟨hfinished, hblocked⟩ := hexec.releases hreleases
      refine ⟨hpicked, hexec, hfinished, ?_⟩
      have hsame : t.executed.board.blocked = t.dispatched.picked.board.blocked := by
        have hupdate := hpicked.wf.blocked_update hruns.mem_picked (work cfg t.start.tick)
        rw [haddr] at hupdate
        rw [hexecuted]
        exact hupdate
      rw [hblocked, hsame]
      exact hpicked.live.blocked
  obtain ⟨hpicked, hexecuted, hfinished, hwaiting⟩ := hran
  have hstale : Stale (t.finished.resources.map GlobalTaskResource.name) t.finished.board := by
    intro y hy hflag
    rw [hwaiting y hy] at hflag
    cases hflag
  obtain ⟨hfinal, hfrom⟩ := hfinished.resuming hstale hfinished.wf.rowNames hphases.resumed
  exact ⟨hreleased, hdeleted, hchosen, hpicked, hexecuted, hfinished, hwaiting, hfinal, hfrom⟩

theorem releasedJobs_snoc (ts : List Tick) (t : Tick) :
    releasedJobs (ts ++ [t]) = releasedJobs ts ++ t.releases := by
  simp [releasedJobs]

theorem endedJobs_snoc (cfg : Config) (ts : List Tick) (t : Tick) :
    endedJobs cfg (ts ++ [t]) = endedJobs cfg ts ++ t.ends cfg := by
  simp [endedJobs]

theorem initial_names (rows : List TaskRow) :
    (initial rows).tasks.map TaskStruct.name = rows.map TaskRow.name := by
  have h : (initial rows).tasks.map TaskStruct.name =
      (rows.zipIdx.map Prod.fst).map TaskRow.name := by
    simp only [initial, List.map_map]
    rfl
  rw [h, List.zipIdx_map_fst]

theorem initial_census {rows : List TaskRow} (hnames : (rows.map TaskRow.name).Nodup) :
    Census [] [] (initial rows).board := by
  refine ⟨(initial_sound rows).board, ⟨List.nodup_nil, ?_, ?_⟩, ⟨?_, ?_, ?_, ?_⟩⟩
  · rw [← initial_names] at hnames
    exact hnames
  · intro x hx
    obtain ⟨e, _, rfl⟩ := List.mem_map.mp hx
    rfl
  · exact fun j hj => hj
  · exact fun j hj => absurd hj List.not_mem_nil
  · exact fun j hj => absurd hj List.not_mem_nil
  · exact fun j hj => hj

-- The state before a tick of a run whose sweeps are clean.
structure Tracked (cfg : Config) (ts : List Tick) (σ : Sim) : Prop where
  sound : Sound σ
  census : Census (releasedJobs ts) (endedJobs cfg ts) σ.board

theorem Tracked.step {cfg : Config} {ts : List Tick} {σ σ' : Sim} {t : Tick}
    (h : Tracked cfg ts σ) (hclean : CleanSweep t.checked) (hstep : Step cfg σ t σ') :
    t.start = σ ∧ t.final = σ' ∧ TickPhases cfg t ∧
      TickCensus cfg (releasedJobs ts) (endedJobs cfg ts) t ∧ Tracked cfg (ts ++ [t]) σ' := by
  have hsound := hstep.sound h.sound
  obtain ⟨_, htick, hfinal⟩ := hstep
  obtain ⟨hstart, hphases⟩ := simTick_phases h.sound htick
  have hcensus := h.census
  rw [← hstart] at hcensus
  have ht := hphases.census hcensus hclean
  refine ⟨hstart, hfinal, hphases, ht, hsound, ?_⟩
  rw [releasedJobs_snoc, endedJobs_snoc, ← hfinal]
  exact ht.final

theorem run_tracked {cfg : Config} {rows : List TaskRow} {ts : List Tick} {σ : Sim}
    (hnames : (rows.map TaskRow.name).Nodup) (hrun : Run cfg (initial rows) ts σ)
    (hclean : ∀ t ∈ ts, CleanSweep t.checked) : Tracked cfg ts σ := by
  refine hrun.history (I := fun ts σ => Tracked cfg ts σ)
    ⟨initial_sound rows, initial_census hnames⟩ ?_ hclean
  exact fun ts σ t σ' _ h hc hstep => (h.step hc hstep).2.2.2.2

def ResumedFromLive (t : Tick) : Prop :=
  ∀ x ∈ t.final.readyQueue, x.id ∈ t.finished.readyQueue.map TaskStruct.id ∨
    ∃ y ∈ t.finished.blockedQueue, y.flagged = false ∧ y.id = x.id

instance (t : Tick) : Decidable (ResumedFromLive t) :=
  inferInstanceAs (Decidable (∀ x ∈ t.final.readyQueue,
    x.id ∈ t.finished.readyQueue.map TaskStruct.id ∨
      ∃ y ∈ t.finished.blockedQueue, y.flagged = false ∧ y.id = x.id))

theorem resumedFromLive_of_board {t : Tick} (h : FromLive t.finished.board t.final.board) :
    ResumedFromLive t := by
  intro x hx
  rcases h x.core (mem_board_ready hx) with hmem | ⟨y, hy, hflag, hid⟩
  · left
    obtain ⟨z, hz, hzx⟩ := List.mem_map.mp hmem
    have hid : z.id = x.id := (congrArg TaskStruct.id hzx :)
    rw [← hid]
    exact List.mem_map_of_mem hz
  · right
    obtain ⟨z, hz, rfl⟩ := List.mem_map.mp hy
    exact ⟨z, hz, hflag, hid⟩

def JobsAccounted (cfg : Config) (ts : List Tick) (σ : Sim) : Prop :=
  (∀ j ∈ releasedJobs ts, σ.live.count j = 1 ∧ j ∉ endedJobs cfg ts ∨
    σ.live.count j = 0 ∧ j ∈ endedJobs cfg ts) ∧
  (∀ j ∈ σ.live, j ∈ releasedJobs ts) ∧ ∀ t ∈ ts, ResumedFromLive t

instance (cfg : Config) (ts : List Tick) (σ : Sim) : Decidable (JobsAccounted cfg ts σ) :=
  inferInstanceAs (Decidable (_ ∧ _ ∧ _))

theorem jobs_accounted (cfg : Config) (rows : List TaskRow) (ts : List Tick) (σ : Sim)
    (hnames : (rows.map TaskRow.name).Nodup) (hrun : Run cfg (initial rows) ts σ)
    (hclean : ∀ t ∈ ts, CleanSweep t.checked) : JobsAccounted cfg ts σ := by
  have htracked := run_tracked hnames hrun hclean
  have hnodup := htracked.census.roster.live_nodup
  rw [live_board] at hnodup
  refine ⟨?_, ?_, ?_⟩
  · intro j hj
    have hfate := htracked.census.fate.fate j hj
    rw [live_board] at hfate
    rcases hfate with ⟨hlive, hnot⟩ | ⟨hlive, hmem⟩
    · exact Or.inl ⟨List.count_eq_one_of_mem hnodup hlive, hnot⟩
    · exact Or.inr ⟨List.count_eq_zero_of_not_mem hlive, hmem⟩
  · intro j hj
    rw [← live_board] at hj
    exact htracked.census.fate.known j (σ.board.live_sublist.subset hj)
  · have hresumed : Tracked cfg ts σ ∧ ∀ t ∈ ts, ResumedFromLive t := by
      refine hrun.history (I := fun ts σ => Tracked cfg ts σ ∧ ∀ t ∈ ts, ResumedFromLive t)
        ⟨⟨initial_sound rows, initial_census hnames⟩, by simp⟩ ?_ hclean
      intro ts σ t σ' _ ⟨h, hall⟩ hc hstep
      obtain ⟨_, _, _, ht, hnext⟩ := h.step hc hstep
      refine ⟨hnext, ?_⟩
      rw [List.forall_mem_append, List.forall_mem_singleton]
      exact ⟨hall, resumedFromLive_of_board ht.fromLive⟩
    exact hresumed.2

def waitersApart : List TaskRow :=
  [⟨"L", 0, 9, 5, 9, [("X", 0, 1), ("Y", 0, 1)]⟩, ⟨"P", 1, 9, 2, 7, [("X", 0, 1)]⟩]

theorem jobs_accounted_waiters_apart :
    ∃ σ, Run (nokillDm 45) (initial waitersApart) (ticksOf (nokillDm 45) waitersApart 4) σ ∧
      JobsAccounted (nokillDm 45) (ticksOf (nokillDm 45) waitersApart 4) σ := by
  obtain ⟨σ, hrun⟩ := ticksOf_run (nokillDm 45) waitersApart 4
    (by decide +kernel)
  exact ⟨σ, hrun, jobs_accounted _ _ _ σ (by decide) hrun (by decide +kernel)⟩

def waitersTogether : List TaskRow :=
  [⟨"L", 0, 9, 5, 9, [("X", 0, 1), ("Y", 0, 1), ("W", 0, 3)]⟩, ⟨"Z", 1, 9, 1, 6, [("W", 0, 1)]⟩,
    ⟨"P", 1, 9, 2, 7, [("X", 0, 1)]⟩, ⟨"Q", 1, 9, 2, 8, [("Y", 0, 1)]⟩]

theorem job_duplicated : ¬∀ (cfg : Config) (rows : List TaskRow) (ts : List Tick) (σ : Sim),
    (rows.map TaskRow.name).Nodup → Run cfg (initial rows) ts σ → JobsAccounted cfg ts σ := by
  intro h
  have hbad : ∃ r ∈ simScheduler (nokillDm 45) 3 (initial waitersTogether),
      ¬JobsAccounted (nokillDm 45) r.1 r.2 := by
    decide +kernel
  obtain ⟨⟨ts, σ⟩, hsim, hbad⟩ := hbad
  exact hbad (h _ waitersTogether ts σ (by decide) (simScheduler_run hsim))

end Simulator
