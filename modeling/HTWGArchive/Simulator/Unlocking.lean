import HTWGArchive.Simulator.Board

namespace Simulator

-- Rows whose owner is at one of the addresses `P` may have been freed; no row has a new owner.
structure RowsFreed (P : ℕ → Prop) (rows rows' : List GlobalTaskResource) : Prop where
  names : rows'.map GlobalTaskResource.name = rows.map GlobalTaskResource.name
  held : ∀ r ∈ rows', ∀ o, r.usedBy = some o → r ∈ rows
  kept : ∀ r ∈ rows, (∀ o, r.usedBy = some o → ¬P o.addr) → r ∈ rows'

namespace RowsFreed

variable {P Q : ℕ → Prop} {rows rows' rows'' : List GlobalTaskResource}

theorem refl (P : ℕ → Prop) (rows : List GlobalTaskResource) : RowsFreed P rows rows :=
  ⟨rfl, fun _ hr _ _ => hr, fun _ hr _ => hr⟩

theorem trans (h : RowsFreed P rows rows') (h' : RowsFreed P rows' rows'') :
    RowsFreed P rows rows'' := by
  refine ⟨h'.names.trans h.names, ?_, ?_⟩
  · intro r hr o ho
    exact h.held r (h'.held r hr o ho) o ho
  · intro r hr hfree
    exact h'.kept r (h.kept r hr hfree) hfree

theorem mono (hPQ : ∀ a, P a → Q a) (h : RowsFreed P rows rows') : RowsFreed Q rows rows' :=
  ⟨h.names, h.held, fun r hr hfree => h.kept r hr (fun o ho hP => hfree o ho (hPQ _ hP))⟩

end RowsFreed

def FreedOf (addr : ℕ) (names : List String) (rows : List GlobalTaskResource) : Prop :=
  ∀ r ∈ rows, ∀ o, r.usedBy = some o → o.addr = addr → r.name ∉ names

theorem FreedOf.mono {a : ℕ} {names : List String} {P : ℕ → Prop}
    {rows rows' : List GlobalTaskResource} (h : FreedOf a names rows)
    (hfreed : RowsFreed P rows rows') : FreedOf a names rows' := by
  intro r hr o ho
  exact h r (hfreed.held r hr o ho) o ho

theorem map_freeRow_freed (t : TaskStruct) (name : String) (rows : List GlobalTaskResource) :
    RowsFreed (· = t.addr) rows (rows.map (freeRow t name)) := by
  refine ⟨?_, ?_, ?_⟩
  · rw [List.map_map]
    apply List.map_congr_left
    intro r _
    simp only [Function.comp_apply, freeRow]
    split <;> rfl
  · intro r hr o ho
    obtain ⟨s, hs, rfl⟩ := List.mem_map.mp hr
    rw [freeRow] at ho ⊢
    split at ho
    · cases ho
    · rename_i hnot
      rwa [if_neg hnot]
  · intro r hr hfree
    refine List.mem_map.mpr ⟨r, hr, ?_⟩
    have hnot : holds t name r = false := by
      cases hused : r.usedBy with
      | none => simp [holds, hused]
      | some o => simp [holds, hused, hfree o hused]
    simp [freeRow, hnot]

theorem map_freeRow_freedOf (t : TaskStruct) (name : String) (rows : List GlobalTaskResource) :
    FreedOf t.addr [name] (rows.map (freeRow t name)) := by
  intro r hr o ho haddr
  obtain ⟨s, hs, rfl⟩ := List.mem_map.mp hr
  rw [freeRow] at ho ⊢
  split at ho
  · cases ho
  · rename_i hnot
    rw [if_neg hnot]
    intro hname
    exact hnot (by simp [holds, ho, haddr, List.mem_singleton.mp hname])

theorem removeNodeFromListNoprev_sublist (node : ℕ) (head : Option LocalTaskResource)
    (es : List LocalTaskResource) :
    (removeNodeFromListNoprev node head es).Sublist (head.toList ++ es) := by
  induction es generalizing head with
  | nil => simp [removeNodeFromListNoprev]
  | cons e es ih =>
    rw [removeNodeFromListNoprev]
    split
    · exact (List.sublist_cons_self e es).append_left head.toList
    · exact (ih (some e)).trans (List.sublist_append_right _ _)

def Sim.queues (σ : Sim) : Sim :=
  { σ with
    tasks := [], inherited := [], resources := [], stats := [], killedTasks := []
    resourceStatus := [] }

structure Unlocking (st st' : Sim × TaskStruct) : Prop where
  frame : st'.1.queues = st.1.queues
  tasks : st'.1.tasks = st.1.tasks
  job : ∃ head es, st'.2 = { st.2 with taskPriorities := head, resources := es }
  entries : st'.2.resources.Sublist st.2.resources
  rows : RowsFreed (· = st.2.addr) st.1.resources st'.1.resources

namespace Unlocking

variable {st st' st'' : Sim × TaskStruct}

theorem refl (st : Sim × TaskStruct) : Unlocking st st :=
  ⟨rfl, rfl, ⟨_, _, rfl⟩, List.Sublist.refl _, RowsFreed.refl _ _⟩

theorem addr (h : Unlocking st st') : st'.2.addr = st.2.addr := by
  obtain ⟨head, es, hjob⟩ := h.job
  rw [hjob]

theorem trans (h : Unlocking st st') (h' : Unlocking st' st'') : Unlocking st st'' := by
  have haddr := h.addr
  obtain ⟨head, es, hjob⟩ := h.job
  obtain ⟨head', es', hjob'⟩ := h'.job
  refine ⟨h'.frame.trans h.frame, h'.tasks.trans h.tasks, ⟨head', es', ?_⟩,
    h'.entries.trans h.entries, ?_⟩
  · rw [hjob', hjob]
  · have hrows := h'.rows
    rw [haddr] at hrows
    exact h.rows.trans hrows

end Unlocking

theorem unlockResource_unlocking (st : Sim × TaskStruct) (e : LocalTaskResource) :
    Unlocking st (unlockResource st e) := by
  rw [unlockResource]
  split
  · refine ⟨rfl, rfl, ⟨_, _, rfl⟩, ?_, map_freeRow_freed st.2 e.name st.1.resources⟩
    simpa using removeNodeFromListNoprev_sublist e.node none st.2.resources
  · exact Unlocking.refl st

theorem unlockResource_freedOf (st : Sim × TaskStruct) (e : LocalTaskResource) :
    FreedOf st.2.addr [e.name] (unlockResource st e).1.resources := by
  rw [unlockResource]
  split
  · exact map_freeRow_freedOf st.2 e.name st.1.resources
  · rename_i hnone
    intro r hr o ho haddr hname
    apply hnone
    exact List.any_eq_true.mpr ⟨r, hr, by simp [holds, ho, haddr, List.mem_singleton.mp hname]⟩

theorem foldl_unlocking {f : Sim × TaskStruct → LocalTaskResource → Sim × TaskStruct}
    (hf : ∀ st e, Unlocking st (f st e)) (es : List LocalTaskResource) (st : Sim × TaskStruct) :
    Unlocking st (es.foldl f st) := by
  induction es generalizing st with
  | nil => exact Unlocking.refl st
  | cons e es ih => exact (hf st e).trans (ih (f st e))

theorem unlockResources_unlocking (σ : Sim) (t : TaskStruct) :
    Unlocking (σ, t) (unlockResources σ t) :=
  foldl_unlocking unlockResource_unlocking t.resources (σ, t)

theorem unlockIfFinished_unlocking (st : Sim × TaskStruct) (e : LocalTaskResource) :
    Unlocking st (unlockIfFinished st e) := by
  rw [unlockIfFinished]
  split
  · exact unlockResource_unlocking st e
  · exact Unlocking.refl st

theorem unlockResourcesIfFinished_unlocking (σ : Sim) (t : TaskStruct) :
    Unlocking (σ, t) (unlockResourcesIfFinished σ t) :=
  foldl_unlocking unlockIfFinished_unlocking t.resources (σ, t)

theorem foldl_unlockResource_freedOf (es : List LocalTaskResource) (st : Sim × TaskStruct) :
    FreedOf st.2.addr (es.map LocalTaskResource.name) (es.foldl unlockResource st).1.resources := by
  induction es generalizing st with
  | nil =>
    intro r _ o _ _
    exact List.not_mem_nil
  | cons e es ih =>
    have hfirst := (unlockResource_freedOf st e).mono
      (foldl_unlocking unlockResource_unlocking es (unlockResource st e)).rows
    have hrest := ih (unlockResource st e)
    rw [(unlockResource_unlocking st e).addr] at hrest
    intro r hr o ho haddr hmem
    rcases List.mem_cons.mp hmem with hname | hmem
    · exact hfirst r hr o ho haddr (List.mem_singleton.mpr hname)
    · exact hrest r hr o ho haddr hmem

theorem unlockResources_freedOf (σ : Sim) (t : TaskStruct) :
    FreedOf t.addr (t.resources.map LocalTaskResource.name) (unlockResources σ t).1.resources :=
  foldl_unlockResource_freedOf t.resources (σ, t)

structure Deleting (P : ℕ → Prop) (σ σ' : Sim) : Prop where
  frame : σ'.queues = σ.queues
  tasks : σ'.tasks.Sublist σ.tasks
  rows : RowsFreed P σ.resources σ'.resources

namespace Deleting

variable {P Q : ℕ → Prop} {σ σ' σ'' : Sim}

theorem refl (P : ℕ → Prop) (σ : Sim) : Deleting P σ σ :=
  ⟨rfl, List.Sublist.refl _, RowsFreed.refl _ _⟩

theorem trans (h : Deleting P σ σ') (h' : Deleting P σ' σ'') : Deleting P σ σ'' :=
  ⟨h'.frame.trans h.frame, h'.tasks.trans h.tasks, h.rows.trans h'.rows⟩

theorem mono (hPQ : ∀ a, P a → Q a) (h : Deleting P σ σ') : Deleting Q σ σ' :=
  ⟨h.frame, h.tasks, h.rows.mono hPQ⟩

theorem of_unlocking {t : TaskStruct} {st : Sim × TaskStruct} (h : Unlocking (σ, t) st) :
    Deleting (· = t.addr) σ st.1 :=
  ⟨h.frame, by rw [h.tasks], h.rows⟩

theorem stats (h : Deleting P σ σ') (s : List GlobalTaskStats) (k : List KilledTask) :
    Deleting P σ { σ' with stats := s, killedTasks := k } :=
  ⟨h.frame, h.tasks, h.rows⟩

end Deleting

theorem abortTask_deleting (σ : Sim) (t : TaskStruct) :
    Deleting (fun a => ∃ x ∈ σ.tasks, x.addr = a) σ (abortTask σ t) := by
  have hfold : ∀ (ts : List TaskStruct) (σ' : Sim), (∀ x ∈ ts, x ∈ σ.tasks) →
      Deleting (fun a => ∃ x ∈ σ.tasks, x.addr = a) σ'
        (ts.foldl (fun σ task => (unlockResources σ task).1) σ') := by
    intro ts
    induction ts with
    | nil => exact fun σ' _ => Deleting.refl _ σ'
    | cons x ts ih =>
      intro σ' hts
      refine Deleting.trans ?_ (ih _ (fun y hy => hts y (List.mem_cons_of_mem x hy)))
      refine (Deleting.of_unlocking (unlockResources_unlocking σ' x)).mono ?_
      exact fun a ha => ⟨x, hts x List.mem_cons_self, ha.symm⟩
  have h := hfold (σ.tasks.filter (fun task => task.name = t.name)) σ
    (fun x hx => List.mem_of_mem_filter hx)
  exact ⟨h.frame, removeNodes_sublist _ _, h.rows⟩

theorem deleteTask_deleting (σ : Sim) (t : TaskStruct) :
    Deleting (fun a => (∃ x ∈ σ.tasks, x.addr = a) ∨ t.addr = a) σ (deleteTask σ t).1 := by
  have habort : Deleting (fun a => (∃ x ∈ σ.tasks, x.addr = a) ∨ t.addr = a) σ
      (if t.taskState = .killed then abortTask σ t else σ) := by
    split
    · exact (abortTask_deleting σ t).mono (fun a ha => Or.inl ha)
    · exact Deleting.refl _ σ
  have hunlock := Deleting.of_unlocking (unlockResources_unlocking
    (if t.taskState = .killed then abortTask σ t else σ) t)
  exact (habort.trans (hunlock.mono (fun a ha => Or.inr ha.symm))).stats _ _

theorem deleteTask_freedOf (σ : Sim) (t : TaskStruct) :
    FreedOf t.addr (t.resources.map LocalTaskResource.name) (deleteTask σ t).1.resources :=
  unlockResources_freedOf (if t.taskState = .killed then abortTask σ t else σ) t

theorem deleteTask_killed {σ : Sim} {t : TaskStruct} (hnames : (σ.tasks.map TaskStruct.name).Nodup)
    (hkilled : t.taskState = .killed) : ∀ x ∈ (deleteTask σ t).1.tasks, x.name ≠ t.name := by
  have hclean : SweepsClean (fun task : TaskStruct => decide (task.name = t.name)) σ.tasks := by
    apply sweepsClean_of_pairwise
    refine (List.pairwise_map.mp hnames).imp ?_
    intro x y hne hxy
    simp only [decide_eq_true_eq] at hxy
    exact hne (hxy.1.trans hxy.2.symm)
  have htasks : (deleteTask σ t).1.tasks =
      removeNodes (fun task => task.name = t.name) σ.tasks := by
    rw [deleteTask, if_pos hkilled]
    exact (unlockResources_unlocking (abortTask σ t) t).tasks
  rw [htasks, hclean.removeNodes_eq]
  intro x hx
  simpa using (List.mem_filter.mp hx).2

structure Visited (t v : TaskStruct) : Prop where
  addr : v.addr = t.addr
  id : v.id = t.id
  taskState : v.taskState = t.taskState
  entries : v.resources.Sublist t.resources
  unflagged : t.flagged = false → v = t

theorem Visited.flagged {t v : TaskStruct} (h : Visited t v) : v.flagged = t.flagged := by
  rw [TaskStruct.flagged, TaskStruct.flagged, h.taskState]

theorem deleteTask_visited {σ : Sim} {t : TaskStruct} (hflag : t.flagged = true) :
    Visited t (deleteTask σ t).2 := by
  have hunlock := unlockResources_unlocking (if t.taskState = .killed then abortTask σ t else σ) t
  obtain ⟨head, es, hjob⟩ := hunlock.job
  have htask : (deleteTask σ t).2 = { t with taskPriorities := head, resources := es } := hjob
  have hentries : (deleteTask σ t).2.resources.Sublist t.resources := hunlock.entries
  rw [htask] at hentries ⊢
  exact ⟨rfl, rfl, rfl, hentries, fun h => absurd h (by simp [hflag])⟩

def SweptAddr (tasks queue : List TaskStruct) (a : ℕ) : Prop :=
  (∃ x ∈ tasks, x.addr = a) ∨ ∃ x ∈ queue, x.flagged = true ∧ x.addr = a

structure Sweeping (queue : List TaskStruct) (σ σ' : Sim) (visited : List TaskStruct) : Prop where
  deleting : Deleting (SweptAddr σ.tasks queue) σ σ'
  visits : List.Forall₂ Visited queue visited
  freed : ∀ t ∈ queue, t.flagged = true →
    FreedOf t.addr (t.resources.map LocalTaskResource.name) σ'.resources
  killed : (σ.tasks.map TaskStruct.name).Nodup →
    ∀ t ∈ queue, t.taskState = .killed → ∀ x ∈ σ'.tasks, x.name ≠ t.name

theorem foldl_deleteFlagged (queue : List TaskStruct) (st : Sim × List TaskStruct) :
    ∃ visited, (queue.foldl deleteFlagged st).2 = st.2 ++ visited ∧
      Sweeping queue st.1 (queue.foldl deleteFlagged st).1 visited := by
  induction queue generalizing st with
  | nil =>
    exact ⟨[], by simp, Deleting.refl _ _, List.Forall₂.nil, by simp, by simp⟩
  | cons t queue ih =>
    obtain ⟨visited, hvisited, h⟩ := ih (deleteFlagged st t)
    rw [List.foldl_cons]
    cases hflag : t.flagged with
    | false =>
      have hstep : deleteFlagged st t = (st.1, st.2 ++ [t]) := by simp [deleteFlagged, hflag]
      rw [hstep] at h hvisited ⊢
      refine ⟨t :: visited, by simpa using hvisited, ?_, ?_, ?_, ?_⟩
      · refine h.deleting.mono ?_
        rintro a (htask | ⟨x, hx, hxa⟩)
        · exact Or.inl htask
        · exact Or.inr ⟨x, List.mem_cons_of_mem t hx, hxa⟩
      · exact h.visits.cons ⟨rfl, rfl, rfl, List.Sublist.refl _, fun _ => rfl⟩
      · intro x hx hxf
        rcases List.mem_cons.mp hx with rfl | hx
        · simp [hflag] at hxf
        · exact h.freed x hx hxf
      · intro hnames x hx hxk
        rcases List.mem_cons.mp hx with rfl | hx
        · simp [TaskStruct.flagged, hxk] at hflag
        · exact h.killed hnames x hx hxk
    | true =>
      have hstep : deleteFlagged st t =
          ((deleteTask st.1 t).1, st.2 ++ [(deleteTask st.1 t).2]) := by
        simp [deleteFlagged, hflag]
      rw [hstep] at h hvisited ⊢
      have hdel := deleteTask_deleting st.1 t
      refine ⟨(deleteTask st.1 t).2 :: visited, by simpa using hvisited, ?_, ?_, ?_, ?_⟩
      · refine Deleting.trans (hdel.mono ?_) (h.deleting.mono ?_)
        · rintro a (htask | haddr)
          · exact Or.inl htask
          · exact Or.inr ⟨t, List.mem_cons_self, hflag, haddr⟩
        · rintro a (⟨x, hx, hxa⟩ | ⟨x, hx, hxa⟩)
          · exact Or.inl ⟨x, hdel.tasks.subset hx, hxa⟩
          · exact Or.inr ⟨x, List.mem_cons_of_mem t hx, hxa⟩
      · exact h.visits.cons (deleteTask_visited hflag)
      · intro x hx hxf
        rcases List.mem_cons.mp hx with rfl | hx
        · exact (deleteTask_freedOf st.1 x).mono h.deleting.rows
        · exact h.freed x hx hxf
      · intro hnames x hx hxk
        rcases List.mem_cons.mp hx with rfl | hx
        · intro y hy
          exact deleteTask_killed hnames hxk y (h.deleting.tasks.subset hy)
        · exact h.killed (hnames.sublist (hdel.tasks.map _)) x hx hxk

end Simulator
