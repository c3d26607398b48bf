import HTWGArchive.Simulator.Deletion

namespace Simulator

-- Free rows may have been taken by the owner `o`; rows that were held stay as they were.
structure RowsTaken (o : JobRef) (rows rows' : List GlobalTaskResource) : Prop where
  names : rows'.map GlobalTaskResource.name = rows.map GlobalTaskResource.name
  held : ∀ r ∈ rows', r ∈ rows ∨ (r.usedBy = some o ∧ ⟨r.name, none⟩ ∈ rows)
  kept : ∀ r ∈ rows, ∀ p, r.usedBy = some p → r ∈ rows'

namespace RowsTaken

variable {o : JobRef} {rows rows' rows'' : List GlobalTaskResource}

theorem refl (o : JobRef) (rows : List GlobalTaskResource) : RowsTaken o rows rows :=
  ⟨rfl, fun _ hr => Or.inl hr, fun _ hr _ _ => hr⟩

theorem trans (h : RowsTaken o rows rows') (h' : RowsTaken o rows' rows'') :
    RowsTaken o rows rows'' := by
  refine ⟨h'.names.trans h.names, ?_, ?_⟩
  · intro r hr
    rcases h'.held r hr with hr | ⟨ho, hr⟩
    · exact h.held r hr
    · rcases h.held _ hr with hr | ⟨hnone, _⟩
      · exact Or.inr ⟨ho, hr⟩
      · cases hnone
  · intro r hr p hp
    exact h'.kept r (h.kept r hr p hp) p hp

end RowsTaken

theorem map_takeRow_taken (t : TaskStruct) (name : String) (rows : List GlobalTaskResource) :
    RowsTaken t.ref rows (rows.map (takeRow t name)) := by
  refine ⟨?_, ?_, ?_⟩
  · rw [List.map_map]
    apply List.map_congr_left
    intro r _
    simp only [Function.comp_apply, takeRow]
    split <;> rfl
  · intro r hr
    obtain ⟨s, hs, rfl⟩ := List.mem_map.mp hr
    rw [takeRow]
    split
    · rename_i hfree
      have hnone : s.usedBy = none := by simpa using (Bool.and_eq_true_iff.mp hfree).2
      refine Or.inr ⟨rfl, ?_⟩
      rw [← hnone]
      exact hs
    · exact Or.inl hs
  · intro r hr p hp
    refine List.mem_map.mpr ⟨r, hr, ?_⟩
    simp [takeRow, hp]

-- What an attempt to lock leaves alone.
def TaskStruct.fixed (t : TaskStruct) : TaskStruct :=
  { t.core with taskState := .created, blockedByResc := none, resources := [] }

-- The result of `lock_resources`: the job keeps running or waits in the blocked queue.
structure Attempt (st st' : Sim × TaskStruct) : Prop where
  tasks : st'.1.tasks = st.1.tasks
  still : st'.1.still = st.1.still
  job : st'.2.fixed = st.2.fixed
  rows : RowsTaken st.2.ref st.1.resources st'.1.resources
  outcome :
    (st'.2.taskState = st.2.taskState ∧ st'.1.board.ready = st.1.board.ready ∧
      st'.1.board.blocked = st.1.board.blocked ∧ st'.1.fresh = st.1.fresh) ∨
    (st'.2.taskState = .blocked ∧
      st'.1.board.ready = removeNodes (fun t => t.addr = st.2.addr) st.1.board.ready ∧
      st'.1.board.blocked = st.1.board.blocked ++ [copyNode st.1.fresh st'.2.core] ∧
      st'.1.fresh = st.1.fresh + 1)

namespace Attempt

variable {st st' st'' : Sim × TaskStruct}

theorem refl (st : Sim × TaskStruct) : Attempt st st :=
  ⟨rfl, rfl, rfl, RowsTaken.refl _ _, Or.inl ⟨rfl, rfl, rfl, rfl⟩⟩

theorem addr (h : Attempt st st') : st'.2.addr = st.2.addr :=
  (congrArg TaskStruct.addr h.job :)

theorem ref (h : Attempt st st') : st'.2.ref = st.2.ref :=
  (congrArg TaskStruct.ref h.job :)

theorem trans (h : Attempt st st') (hstate : st'.2.taskState ≠ .blocked)
    (h' : Attempt st' st'') : Attempt st st'' := by
  have hrows := h'.rows
  rw [h.ref] at hrows
  rcases h.outcome with ⟨hsame, hready, hblocked, hfresh⟩ | ⟨habs, _⟩
  · refine ⟨h'.tasks.trans h.tasks, h'.still.trans h.still, h'.job.trans h.job,
      h.rows.trans hrows, ?_⟩
    have hout := h'.outcome
    rwa [hsame, hready, hblocked, hfresh, h.addr] at hout
  · exact absurd habs hstate

end Attempt

theorem inheritPriority_board (cfg : Config) (σ : Sim) (t : TaskStruct) (owner : JobRef)
    (name : String) : (inheritPriority cfg σ t owner name).1.board = σ.board := by
  rw [inheritPriority]
  split
  · exact modify_board_same (f := setPriorities _) (fun _ => rfl) _ _
  · rfl

theorem inheritPriority_still (cfg : Config) (σ : Sim) (t : TaskStruct) (owner : JobRef)
    (name : String) : (inheritPriority cfg σ t owner name).1.still = σ.still := by
  rw [inheritPriority]
  split <;> rfl

theorem inheritPriority_core (cfg : Config) (σ : Sim) (t : TaskStruct) (owner : JobRef)
    (name : String) : (inheritPriority cfg σ t owner name).2.core = t.core := by
  rw [inheritPriority]
  split <;> rfl

theorem inheritPriority_taskState (cfg : Config) (σ : Sim) (t : TaskStruct) (owner : JobRef)
    (name : String) : (inheritPriority cfg σ t owner name).2.taskState = t.taskState := by
  rw [inheritPriority]
  split <;> rfl

theorem removeNodes_map_core (a : ℕ) (q : List TaskStruct) :
    (removeNodes (fun t => t.addr = a) q).map TaskStruct.core =
      removeNodes (fun t => t.addr = a) (q.map TaskStruct.core) := by
  have hafter : ∀ (linked : Bool) (q : List TaskStruct),
      (removeNodesAfter (fun t => t.addr = a) linked q).map TaskStruct.core =
        removeNodesAfter (fun t => t.addr = a) linked (q.map TaskStruct.core) := by
    intro linked q
    induction q generalizing linked with
    | nil => rfl
    | cons t q ih =>
      rw [List.map_cons, removeNodesAfter, removeNodesAfter, TaskStruct.core_addr]
      split
      · exact ih false
      · rw [List.map_cons, ih]
  induction q with
  | nil => rfl
  | cons t q ih =>
    rw [List.map_cons, removeNodes, removeNodes, TaskStruct.core_addr]
    split
    · exact ih
    · rw [List.map_cons, hafter]

theorem block_attempt (cfg : Config) (σ : Sim) (t : TaskStruct) (owner : JobRef) (name : String) :
    Attempt (σ, t) (block cfg σ t owner name) := by
  let waiting : TaskStruct := { t with blockedByResc := some name, taskState := .blocked }
  have hboard := inheritPriority_board cfg σ waiting owner name
  have hready := congrArg Board.ready hboard
  have hblocked := congrArg Board.blocked hboard
  have hfresh := congrArg Board.fresh hboard
  have htasks := congrArg Board.tasks hboard
  have hrows := congrArg Board.resources hboard
  have hcore := inheritPriority_core cfg σ waiting owner name
  have hstate := inheritPriority_taskState cfg σ waiting owner name
  simp only [Sim.board] at hready hblocked hfresh htasks hrows
  have hjob : (block cfg σ t owner name).2.fixed = waiting.fixed :=
    (congrArg TaskStruct.fixed hcore :)
  refine ⟨htasks, inheritPriority_still cfg σ waiting owner name, hjob, ?_,
    Or.inr ⟨hstate, ?_, ?_, ?_⟩⟩
  · simp only [block]
    rw [hrows]
    exact RowsTaken.refl _ _
  · simp only [block, Sim.board]
    rw [removeNodes_map_core, hready]
  · simp only [block, Sim.board, List.map_append, List.map_cons, List.map_nil]
    rw [hblocked, hfresh, TaskStruct.core_copyNode]
  · simp only [block]
    rw [hfresh]

theorem elapseFrom_attempt (σ : Sim) (t : TaskStruct) (node : ℕ) :
    Attempt (σ, t) (σ, elapseFrom node t) :=
  ⟨rfl, rfl, rfl, RowsTaken.refl _ _, Or.inl ⟨rfl, rfl, rfl, rfl⟩⟩

theorem elapseFor_attempt (σ : Sim) (t : TaskStruct) (node : ℕ) :
    Attempt (σ, t) (σ, elapseFor node t) :=
  ⟨rfl, rfl, rfl, RowsTaken.refl _ _, Or.inl ⟨rfl, rfl, rfl, rfl⟩⟩

theorem acquire_attempt (σ : Sim) (t : TaskStruct) (name : String) :
    Attempt (σ, t) (acquire σ t name) :=
  ⟨rfl, rfl, rfl, map_takeRow_taken t name σ.resources, Or.inl ⟨rfl, rfl, rfl, rfl⟩⟩

theorem lockResource_attempt (cfg : Config) (st : Sim × TaskStruct) (e : LocalTaskResource) :
    Attempt st (lockResource cfg st e) := by
  rw [lockResource]
  split
  · exact Attempt.refl st
  · rename_i hstate
    have hfrom := elapseFrom_attempt st.1 st.2 e.node
    split
    · exact hfrom
    · split
      · exact hfrom
      · split
        · exact hfrom.trans hstate (acquire_attempt st.1 (elapseFrom e.node st.2) e.name)
        · dsimp only
          split
          · exact hfrom.trans hstate (block_attempt cfg st.1 (elapseFrom e.node st.2) _ e.name)
          · exact hfrom.trans hstate (elapseFor_attempt st.1 (elapseFrom e.node st.2) e.node)

theorem lockResource_blocked {cfg : Config} {st : Sim × TaskStruct} {e : LocalTaskResource}
    (h : st.2.taskState = .blocked) : lockResource cfg st e = st := by
  rw [lockResource, if_pos h]

theorem foldl_lockResource_blocked {cfg : Config} {st : Sim × TaskStruct}
    {es : List LocalTaskResource} (h : st.2.taskState = .blocked) :
    es.foldl (lockResource cfg) st = st := by
  induction es with
  | nil => rfl
  | cons e es ih => rw [List.foldl_cons, lockResource_blocked h, ih]

theorem foldl_lockResource_attempt (cfg : Config) (es : List LocalTaskResource)
    (st : Sim × TaskStruct) : Attempt st (es.foldl (lockResource cfg) st) := by
  induction es generalizing st with
  | nil => exact Attempt.refl st
  | cons e es ih =>
    have hstep := lockResource_attempt cfg st e
    rw [List.foldl_cons]
    rcases eq_or_ne (lockResource cfg st e).2.taskState .blocked with hblocked | hfree
    · rwa [foldl_lockResource_blocked hblocked]
    · exact hstep.trans hfree (ih (lockResource cfg st e))

theorem lockResources_attempt (cfg : Config) (σ : Sim) (t : TaskStruct) :
    Attempt (σ, t) (lockResources cfg σ t) :=
  foldl_lockResource_attempt cfg t.resources (σ, t)

def InSection (e : LocalTaskResource) : Prop :=
  e.tFrom ≤ e.tFromElapsed ∧ e.tForElapsed < e.tFor

def HeldByTask (name resource : String) (rows : List GlobalTaskResource) : Prop :=
  ∀ r ∈ rows, r.name = resource → ∃ o, r.usedBy = some o ∧ o.name = name

theorem HeldByTask.mono {o : JobRef} {resource : String} {rows rows' : List GlobalTaskResource}
    (h : HeldByTask o.name resource rows) (htaken : RowsTaken o rows rows') :
    HeldByTask o.name resource rows' := by
  intro r hr hname
  rcases htaken.held r hr with hr | ⟨ho, _⟩
  · exact h r hr hname
  · exact ⟨o, ho, rfl⟩

theorem find?_name {rows : List GlobalTaskResource} {name : String} {r s : GlobalTaskResource}
    (hnames : (rows.map GlobalTaskResource.name).Nodup)
    (hfind : rows.find? (fun r => decide (r.name = name)) = some s) (hr : r ∈ rows)
    (hname : r.name = name) : r = s := by
  have hs : s.name = name := by simpa using List.find?_some hfind
  exact List.inj_on_of_nodup_map hnames hr (List.mem_of_find?_eq_some hfind) (hname.trans hs.symm)

theorem lockResource_held {cfg : Config} {st : Sim × TaskStruct} {e : LocalTaskResource}
    (hnames : (st.1.resources.map GlobalTaskResource.name).Nodup) (hin : InSection e)
    (hfree : (lockResource cfg st e).2.taskState ≠ .blocked) :
    HeldByTask st.2.name e.name (lockResource cfg st e).1.resources := by
  have hstart : st.2.taskState ≠ .blocked := by
    intro hblocked
    rw [lockResource_blocked hblocked] at hfree
    exact hfree hblocked
  have hsection : (decide (e.tFromElapsed < e.tFrom) || decide (e.tForElapsed ≥ e.tFor)) = false := by
    simp only [Bool.or_eq_false_iff, decide_eq_false_iff_not, ge_iff_le, UInt32.not_lt,
      UInt32.not_le]
    exact hin
  rw [lockResource, if_neg hstart] at hfree ⊢
  simp only [hsection, Bool.false_eq_true, if_false] at hfree ⊢
  cases hfind : st.1.resources.find? (fun r => decide (r.name = e.name)) with
  | none =>
    intro r hr hname
    have hnone := List.find?_eq_none.mp hfind r hr
    simp [hname] at hnone
  | some s =>
    simp only [hfind] at hfree ⊢
    cases hused : s.usedBy with
    | none =>
      intro r hr hname
      obtain ⟨r', hr', rfl⟩ := List.mem_map.mp hr
      have hname' : r'.name = e.name := by
        rw [takeRow] at hname
        split at hname
        · exact hname
        · exact hname
      obtain rfl := find?_name hnames hfind hr' hname'
      exact ⟨(elapseFrom e.node st.2).ref, by simp [takeRow, hname', hused], rfl⟩
    | some owner =>
      simp only [hused] at hfree ⊢
      rcases eq_or_ne owner.name st.2.name with heq | hne
      · rw [if_neg (by simpa [elapseFrom] using heq)]
        intro r hr hname
        obtain rfl := find?_name hnames hfind hr hname
        exact ⟨owner, hused, heq⟩
      · rw [if_pos (by simpa [elapseFrom] using hne)] at hfree
        exact absurd (inheritPriority_taskState cfg _ _ _ _) hfree

theorem foldl_lockResource_held {cfg : Config} {es : List LocalTaskResource}
    {st : Sim × TaskStruct} (hnames : (st.1.resources.map GlobalTaskResource.name).Nodup)
    (hfree : (es.foldl (lockResource cfg) st).2.taskState ≠ .blocked) :
    ∀ e ∈ es, InSection e →
      HeldByTask st.2.name e.name (es.foldl (lockResource cfg) st).1.resources := by
  induction es generalizing st with
  | nil => exact fun e he => absurd he List.not_mem_nil
  | cons e es ih =>
    intro x hx hin
    rw [List.foldl_cons] at hfree ⊢
    have hstep := lockResource_attempt cfg st e
    have hrest := foldl_lockResource_attempt cfg es (lockResource cfg st e)
    have hstate : (lockResource cfg st e).2.taskState ≠ .blocked := by
      intro hblocked
      rw [foldl_lockResource_blocked hblocked] at hfree
      exact hfree hblocked
    have hname : (lockResource cfg st e).2.ref.name = st.2.name := congrArg JobRef.name hstep.ref
    rcases List.mem_cons.mp hx with rfl | hx
    · have hheld := lockResource_held hnames hin hstate
      rw [← hname] at hheld ⊢
      exact hheld.mono hrest.rows
    · have hnames' : ((lockResource cfg st e).1.resources.map GlobalTaskResource.name).Nodup := by
        rw [hstep.rows.names]
        exact hnames
      have hheld := ih hnames' hfree x hx hin
      rwa [show (lockResource cfg st e).2.name = st.2.name from hname] at hheld

theorem lockResources_held {cfg : Config} {σ : Sim} {t : TaskStruct}
    (hnames : (σ.resources.map GlobalTaskResource.name).Nodup)
    (hfree : (lockResources cfg σ t).2.taskState ≠ .blocked) :
    ∀ e ∈ t.resources, InSection e →
      HeldByTask t.name e.name (lockResources cfg σ t).1.resources :=
  foldl_lockResource_held hnames hfree

end Simulator
