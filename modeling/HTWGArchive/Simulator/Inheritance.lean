import HTWGArchive.Simulator.TickPhases

namespace Simulator

def WaitsOn (σ : Sim) (w h : TaskStruct) : Prop :=
  w.flagged = false ∧ ∃ r ∈ σ.resources, w.blockedByResc = some r.name ∧ ∃ o ∈ r.usedBy, o.id = h.id

instance (σ : Sim) (w h : TaskStruct) : Decidable (WaitsOn σ w h) :=
  inferInstanceAs (Decidable (w.flagged = false ∧
    ∃ r ∈ σ.resources, w.blockedByResc = some r.name ∧ ∃ o ∈ r.usedBy, o.id = h.id))

-- The least of the own deadline and the deadlines of the jobs that wait for the job.
def effectiveDeadline (σ : Sim) (x : TaskStruct) : UInt32 :=
  (σ.blockedQueue.filter (fun w => WaitsOn σ w x)).foldl (fun m w => min m w.tD) x.tD

def InversionBounded (d : Dispatch) : Prop :=
  ∀ w ∈ d.chosen.blockedQueue, ∀ h ∈ d.chosen.readyQueue, WaitsOn d.chosen w h → ∀ x ∈ d.job,
    x.id = h.id ∨ effectiveDeadline d.chosen x ≤ effectiveDeadline d.chosen w

instance (d : Dispatch) : Decidable (InversionBounded d) :=
  inferInstanceAs (Decidable (∀ w ∈ d.chosen.blockedQueue, ∀ h ∈ d.chosen.readyQueue,
    WaitsOn d.chosen w h → ∀ x ∈ d.job,
      x.id = h.id ∨ effectiveDeadline d.chosen x ≤ effectiveDeadline d.chosen w))

def minDeadline (cfg : Config) (inherited : List InheritedNode) (task : TaskStruct) : UInt32 :=
  if cfg.flagPip then
    (inheritedStats inherited task.taskPriorities).foldl
      (fun m s => if m > s.tD then s.tD else m) task.tD
  else task.tD

-- `prioritize_task_dm` holds the own deadline of one job against the inherited ones of all others.
def Outranks (cfg : Config) (σ : Sim) (y m : TaskStruct) : Prop :=
  [y, m].Sublist σ.readyQueue ∧ (y.tD ≤ m.tD ∨ ∀ z ∈ σ.readyQueue,
      m.tD < minDeadline cfg σ.inherited z → y.tD < minDeadline cfg σ.inherited z) ∨
    [m, y].Sublist σ.readyQueue ∧ y.tD < m.tD ∧ ∃ z ∈ σ.readyQueue,
      y.tD < minDeadline cfg σ.inherited z ∧ minDeadline cfg σ.inherited z ≤ m.tD

instance (cfg : Config) (σ : Sim) (y m : TaskStruct) : Decidable (Outranks cfg σ y m) :=
  inferInstanceAs (Decidable (_ ∧ (_ ∨ _) ∨ _ ∧ _ ∧ _))

def HolderOutranks (cfg : Config) (σ : Sim) : Prop :=
  ∀ w ∈ σ.blockedQueue, ∀ h ∈ σ.readyQueue, WaitsOn σ w h → ∀ m ∈ σ.readyQueue, m.id ≠ h.id →
    effectiveDeadline σ w < effectiveDeadline σ m →
      ∃ y ∈ σ.readyQueue, (y.id = h.id ∨ effectiveDeadline σ y ≤ effectiveDeadline σ w) ∧
        Outranks cfg σ y m

instance (cfg : Config) (σ : Sim) : Decidable (HolderOutranks cfg σ) :=
  inferInstanceAs (Decidable (∀ w ∈ σ.blockedQueue, ∀ h ∈ σ.readyQueue, WaitsOn σ w h →
    ∀ m ∈ σ.readyQueue, m.id ≠ h.id → effectiveDeadline σ w < effectiveDeadline σ m →
      ∃ y ∈ σ.readyQueue, (y.id = h.id ∨ effectiveDeadline σ y ≤ effectiveDeadline σ w) ∧
        Outranks cfg σ y m))

theorem countP_lt_iff {α : Type} {p q : α → Bool} {xs : List α}
    (hpq : ∀ z ∈ xs, p z = true → q z = true) :
    xs.countP p < xs.countP q ↔ ∃ z ∈ xs, q z = true ∧ p z = false := by
  induction xs with
  | nil => simp
  | cons x xs ih =>
    have hrest := ih (fun z hz => hpq z (List.mem_cons_of_mem x hz))
    have hle := List.countP_mono_left (fun z hz => hpq z (List.mem_cons_of_mem x hz))
    have hx := hpq x List.mem_cons_self
    rw [List.countP_cons, List.countP_cons, List.exists_mem_cons_iff, ← hrest]
    cases hp : p x with
    | true => simp [hx hp]
    | false =>
      cases hq : q x with
      | true =>
        simp only [Bool.false_eq_true, if_false, if_true, and_self, true_or, iff_true]
        omega
      | false => simp

def ranked (cfg : Config) (σ : Sim) (y : TaskStruct) : ℕ :=
  σ.readyQueue.countP (fun z => decide (y.tD < minDeadline cfg σ.inherited z))

theorem ranked_lt_iff {cfg : Config} {σ : Sim} {y m : TaskStruct} :
    ranked cfg σ m < ranked cfg σ y ↔ y.tD < m.tD ∧ ∃ z ∈ σ.readyQueue,
      y.tD < minDeadline cfg σ.inherited z ∧ minDeadline cfg σ.inherited z ≤ m.tD := by
  rcases Decidable.em (y.tD < m.tD) with hlt | hge
  · rw [ranked, ranked, countP_lt_iff]
    · simp only [decide_eq_true_eq, decide_eq_false_iff_not, UInt32.not_lt, hlt, true_and]
    · intro z _ hz
      rw [decide_eq_true_eq] at hz ⊢
      exact UInt32.lt_trans hlt hz
  · have hle : m.tD ≤ y.tD := UInt32.not_lt.mp hge
    have hmono : ranked cfg σ y ≤ ranked cfg σ m := by
      apply List.countP_mono_left
      intro z _ hz
      rw [decide_eq_true_eq] at hz ⊢
      exact UInt32.lt_of_le_of_lt hle hz
    constructor
    · intro hlt
      omega
    · exact fun h => absurd h.1 hge

theorem ranked_le_iff {cfg : Config} {σ : Sim} {y m : TaskStruct} :
    ranked cfg σ m ≤ ranked cfg σ y ↔ y.tD ≤ m.tD ∨ ∀ z ∈ σ.readyQueue,
      m.tD < minDeadline cfg σ.inherited z → y.tD < minDeadline cfg σ.inherited z := by
  rw [← Nat.not_lt, ranked_lt_iff, not_and_or, UInt32.not_lt]
  simp only [not_exists, not_and, UInt32.not_le]

theorem pickNextTask_split {q : List TaskStruct} {x : TaskStruct} (h : pickNextTask q = some x) :
    ∃ front back, q = front ++ x :: back ∧ (∀ y ∈ front, y.taskPriority < x.taskPriority) ∧
      ∀ y ∈ back, y.taskPriority ≤ x.taskPriority := by
  have hfold : ∀ (ts front mid : List TaskStruct) (t : TaskStruct),
      (∀ y ∈ front, y.taskPriority < t.taskPriority) →
      (∀ y ∈ mid, y.taskPriority ≤ t.taskPriority) →
      ts.foldl (fun next x => if next.taskPriority < x.taskPriority then x else next) t = x →
        ∃ front' back', front ++ t :: mid ++ ts = front' ++ x :: back' ∧
          (∀ y ∈ front', y.taskPriority < x.taskPriority) ∧
            ∀ y ∈ back', y.taskPriority ≤ x.taskPriority := by
    intro ts
    induction ts with
    | nil =>
      rintro front mid t hfront hmid rfl
      exact ⟨front, mid, by simp, hfront, hmid⟩
    | cons u ts ih =>
      intro front mid t hfront hmid hlast
      rw [List.foldl_cons] at hlast
      split at hlast
      · rename_i hlt
        have hbefore : ∀ y ∈ front ++ t :: mid, y.taskPriority < u.taskPriority := by
          intro y hy
          rcases List.mem_append.mp hy with hy | hy
          · exact (hfront y hy).trans hlt
          · rcases List.mem_cons.mp hy with rfl | hy
            · exact hlt
            · exact (hmid y hy).trans_lt hlt
        obtain ⟨front', back', hsplit, hrest⟩ := ih (front ++ t :: mid) [] u hbefore (by simp) hlast
        exact ⟨front', back', by simpa using hsplit, hrest⟩
      · rename_i hnot
        have hafter : ∀ y ∈ mid ++ [u], y.taskPriority ≤ t.taskPriority := by
          intro y hy
          rcases List.mem_append.mp hy with hy | hy
          · exact hmid y hy
          · rw [List.mem_singleton.mp hy]
            exact Nat.not_lt.mp hnot
        obtain ⟨front', back', hsplit, hrest⟩ := ih front (mid ++ [u]) t hfront hafter hlast
        exact ⟨front', back', by simpa using hsplit, hrest⟩
  cases q with
  | nil => simp [pickNextTask] at h
  | cons t ts =>
    obtain ⟨front, back, hsplit, hrest⟩ := hfold ts [] [] t (by simp) (by simp) (Option.some_inj.mp h)
    exact ⟨front, back, by simpa using hsplit, hrest⟩

theorem dispatchLoop_pick (cfg : Config) (fuel : ℕ) (σ : Sim) :
    (∃ σ', (dispatchLoop cfg fuel σ).chosen = prioritizeQueues cfg σ') ∧
      ∀ x ∈ (dispatchLoop cfg fuel σ).job,
        pickNextTask (dispatchLoop cfg fuel σ).chosen.readyQueue = some x := by
  induction fuel generalizing σ with
  | zero => exact ⟨⟨σ, rfl⟩, fun x hx => by cases hx⟩
  | succ fuel ih =>
    rw [dispatchLoop]
    cases hpick : pickNextTask (prioritizeQueues cfg σ).readyQueue with
    | none => exact ⟨⟨σ, rfl⟩, fun x hx => by cases hx⟩
    | some t =>
      dsimp only
      split
      · exact ih _
      · refine ⟨⟨σ, rfl⟩, ?_⟩
        intro x hx
        obtain rfl := Option.some_inj.mp hx
        exact hpick

theorem taskPriority_ranked {cfg : Config} (hdm : cfg.scheduler = .dm) (σ : Sim) :
    ∀ y ∈ (prioritizeQueues cfg σ).readyQueue,
      y.taskPriority = ranked cfg (prioritizeQueues cfg σ) y := by
  intro y hy
  obtain ⟨t, _, rfl⟩ := List.mem_map.mp hy
  rw [ranked, prioritizeQueues]
  simp only [prioritizeTasks, prioritizeTask, hdm, List.countP_map, ← List.countP_eq_length_filter]
  rfl

theorem sublist_pair_of_split {q front back : List TaskStruct} {x y : TaskStruct}
    (hq : q = front ++ x :: back) (hy : y ∈ q) (hne : y ≠ x) :
    (y ∈ front ∧ [y, x].Sublist q) ∨ (y ∈ back ∧ [x, y].Sublist q) := by
  subst hq
  rcases List.mem_append.mp hy with hy | hy
  · refine Or.inl ⟨hy, ?_⟩
    exact (List.singleton_sublist.mpr hy).append
      (List.singleton_sublist.mpr List.mem_cons_self)
  · rcases List.mem_cons.mp hy with rfl | hy
    · exact absurd rfl hne
    · refine Or.inr ⟨hy, ?_⟩
      exact ((List.singleton_sublist.mpr hy).cons_cons x).trans (List.sublist_append_right _ _)

theorem mem_back_of_sublist {q front back : List TaskStruct} {x y : TaskStruct} (hnodup : q.Nodup)
    (hq : q = front ++ x :: back) (hxy : [x, y].Sublist q) : y ∈ back := by
  subst hq
  have hfresh : x ∉ front := by
    intro hx
    exact (List.nodup_append.mp hnodup).2.2 x hx x List.mem_cons_self rfl
  rcases List.sublist_append_iff.mp hxy with ⟨pre, post, hsplit, hpre, hpost⟩
  cases pre with
  | nil =>
    simp only [List.nil_append] at hsplit
    rw [← hsplit] at hpost
    exact List.singleton_sublist.mp (List.cons_sublist_cons.mp hpost)
  | cons z pre =>
    simp only [List.cons_append, List.cons.injEq] at hsplit
    rw [← hsplit.1] at hpre
    exact absurd (hpre.subset List.mem_cons_self) hfresh

theorem mem_front_of_sublist {q front back : List TaskStruct} {x y : TaskStruct} (hnodup : q.Nodup)
    (hq : q = front ++ x :: back) (hyx : [y, x].Sublist q) : y ∈ front := by
  have hrev : q.reverse = back.reverse ++ x :: front.reverse := by
    rw [hq, List.reverse_append, List.reverse_cons, List.append_assoc, List.singleton_append]
  rw [← List.mem_reverse]
  exact mem_back_of_sublist (List.nodup_reverse.mpr hnodup) hrev hyx.reverse

section Pick

variable {cfg : Config} {σ : Sim} {front back : List TaskStruct} {x : TaskStruct}

theorem outranks_of_picked (hq : σ.readyQueue = front ++ x :: back)
    (hrank : ∀ y ∈ σ.readyQueue, y.taskPriority = ranked cfg σ y)
    (hfront : ∀ y ∈ front, y.taskPriority < x.taskPriority)
    (hback : ∀ y ∈ back, y.taskPriority ≤ x.taskPriority) {m : TaskStruct}
    (hm : m ∈ σ.readyQueue) (hne : m ≠ x) : Outranks cfg σ x m := by
  have hx : x ∈ σ.readyQueue := by rw [hq]; simp
  rcases sublist_pair_of_split hq hm hne with ⟨hmem, hsub⟩ | ⟨hmem, hsub⟩
  · right
    have hlt := hfront m hmem
    rw [hrank m hm, hrank x hx] at hlt
    exact ⟨hsub, ranked_lt_iff.mp hlt⟩
  · left
    have hle := hback m hmem
    rw [hrank m hm, hrank x hx] at hle
    exact ⟨hsub, ranked_le_iff.mp hle⟩

theorem not_outranks_picked (hnodup : σ.readyQueue.Nodup) (hq : σ.readyQueue = front ++ x :: back)
    (hrank : ∀ y ∈ σ.readyQueue, y.taskPriority = ranked cfg σ y)
    (hfront : ∀ y ∈ front, y.taskPriority < x.taskPriority)
    (hback : ∀ y ∈ back, y.taskPriority ≤ x.taskPriority) {y : TaskStruct}
    (hy : y ∈ σ.readyQueue) : ¬Outranks cfg σ y x := by
  have hx : x ∈ σ.readyQueue := by rw [hq]; simp
  rintro (⟨hsub, hle⟩ | ⟨hsub, hlt⟩)
  · have hrank_lt := hfront y (mem_front_of_sublist hnodup hq hsub)
    have hrank_le := ranked_le_iff.mpr hle
    rw [hrank y hy, hrank x hx] at hrank_lt
    omega
  · have hrank_le := hback y (mem_back_of_sublist hnodup hq hsub)
    have hrank_lt := ranked_lt_iff.mpr hlt
    rw [hrank y hy, hrank x hx] at hrank_le
    omega

end Pick

theorem inversionBounded_iff {cfg : Config} {d : Dispatch} {x : TaskStruct}
    (hnodup : d.chosen.readyQueue.Nodup) (hjob : d.job = some x)
    (hpick : pickNextTask d.chosen.readyQueue = some x)
    (hrank : ∀ y ∈ d.chosen.readyQueue, y.taskPriority = ranked cfg d.chosen y) :
    InversionBounded d ↔ HolderOutranks cfg d.chosen := by
  obtain ⟨front, back, hq, hfront, hback⟩ := pickNextTask_split hpick
  have hx : x ∈ d.chosen.readyQueue := by rw [hq]; simp
  constructor
  · intro hbound w hw h hh hwaits m hm hmh hlt
    have hgood := hbound w hw h hh hwaits x hjob
    refine ⟨x, hx, hgood, outranks_of_picked hq hrank hfront hback hm ?_⟩
    rintro rfl
    rcases hgood with heq | hle
    · exact hmh heq
    · exact UInt32.not_lt.mpr hle hlt
  · intro hholder w hw h hh hwaits y hy
    obtain rfl := Option.some_inj.mp (hjob.symm.trans hy)
    rcases Decidable.em (x.id = h.id) with heq | hne
    · exact Or.inl heq
    · right
      rw [← UInt32.not_lt]
      intro hlt
      obtain ⟨z, hz, _, houtranks⟩ := hholder w hw h hh hwaits x hx hne hlt
      exact not_outranks_picked hnodup hq hrank hfront hback hz houtranks

theorem tick_inversionBounded_iff {cfg : Config} {σ : Sim} {t : Tick} (hdm : cfg.scheduler = .dm)
    (hsound : Sound σ) (htick : simTick cfg σ = some t) :
    InversionBounded t.dispatched ↔ HolderOutranks cfg t.dispatched.chosen := by
  obtain ⟨hstart, hphases⟩ := simTick_phases hsound htick
  rw [← hstart] at hsound
  have haddrs := (hphases.wf_chosen hsound.board).ready_nodup
  have hnodup : t.dispatched.chosen.readyQueue.Nodup :=
    List.Nodup.of_map _ (List.Nodup.of_map _ haddrs)
  obtain ⟨pending, _, rfl⟩ := Option.map_eq_some_iff.mp htick
  obtain ⟨⟨σ', hchosen⟩, hpick⟩ := dispatchLoop_pick cfg
    (deleteFromQueues (handleDeadlineQueues cfg (handleReadyQueue pending))).readyQueue.length
    (deleteFromQueues (handleDeadlineQueues cfg (handleReadyQueue pending)))
  cases hphases.ran with
  | idle hjob _ hready _ _ _ =>
    have hqueue : ∀ h : TaskStruct,
        h ∉ (tickAfterRelease cfg σ pending).dispatched.chosen.readyQueue := by
      intro h
      rw [hready]
      exact List.not_mem_nil
    constructor
    · intro _ w _ h hh
      exact absurd hh (hqueue h)
    · intro _ w _ h hh
      exact absurd hh (hqueue h)
  | running j j' n' hjob _ _ _ _ =>
    apply inversionBounded_iff hnodup hjob (hpick j hjob)
    intro y hy
    have hrank := taskPriority_ranked hdm σ'
    rw [← hchosen] at hrank
    exact hrank y hy

def inheritingHolder : List TaskRow :=
  [⟨"L", 0, 30, 8, 20, [("X", 0, 6)]⟩, ⟨"W", 1, 30, 2, 5, [("X", 0, 1)]⟩, ⟨"M", 2, 30, 3, 8, []⟩]

def outrankedHolder : List TaskRow :=
  [⟨"L", 0, 30, 8, 20, [("X", 0, 6)]⟩, ⟨"W", 1, 30, 2, 5, [("X", 0, 1)]⟩, ⟨"M", 2, 30, 3, 8, []⟩,
    ⟨"K", 2, 30, 3, 12, []⟩]

end Simulator
