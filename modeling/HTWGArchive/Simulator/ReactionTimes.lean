import HTWGArchive.Simulator.PlainTick

namespace Simulator

-- A job that never waits keeps its struct, and its struct points at the statistics of its task.
def TaskStruct.job (t : TaskStruct) : ℕ × ℕ :=
  (t.addr, t.globalStats)

def Tick.enters (j : ℕ × ℕ) (t : Tick) : Bool :=
  t.entering.any (fun x => x.job = j)

def Tick.completes (j : ℕ × ℕ) (t : Tick) : Bool :=
  t.dispatched.next.any (fun x => x.job = j && finishing x)

def Tick.drops (cfg : Config) (j : ℕ × ℕ) (t : Tick) : Bool :=
  t.released.readyQueue.any (fun x =>
    x.job = j && !x.flagged && (deadlineFlag cfg t.released.readyQueue x).isSome)

def atTick (p : Tick → Bool) (ts : List Tick) (k : ℕ) : Prop :=
  ts[k]?.any p = true

instance (p : Tick → Bool) (ts : List Tick) (k : ℕ) : Decidable (atTick p ts k) :=
  inferInstanceAs (Decidable (_ = _))

-- A job of task `i` that runs for the last time in tick `f` and takes `v` ticks.
def FinishedAt (ts : List Tick) (i f v : ℕ) : Prop :=
  ∃ a release, release ≤ f ∧ v = f - release + 1 ∧
    atTick (Tick.enters (a, i)) ts release ∧ atTick (Tick.completes (a, i)) ts f

-- A job of task `i` that the deadline check of tick `k` flags after `v` ticks in the queue.
def DroppedAt (cfg : Config) (ts : List Tick) (i k v : ℕ) : Prop :=
  ∃ a release, release ≤ k ∧ v = k - release ∧
    atTick (Tick.enters (a, i)) ts release ∧ atTick (Tick.drops cfg (a, i)) ts k

def reactionTimes (cfg : Config) (ts : List Tick) (i : ℕ) : Set ℕ :=
  insert 0 {v | ∃ k, FinishedAt ts i k v ∨ DroppedAt cfg ts i k v}

-- A job is unlinked in the tick after its last one.
def unlinkedTimes (cfg : Config) (ts : List Tick) (i : ℕ) : Set ℕ :=
  insert 0 {v | ∃ k, FinishedAt ts i k v ∧ k + 1 < ts.length ∨ DroppedAt cfg ts i k v}

def flaggedTimes (q : List TaskStruct) (i : ℕ) : Set ℕ :=
  {v | ∃ x ∈ q, x.flagged = true ∧ x.globalStats = i ∧ x.tElapsed.toNat = v}

section Maximum

variable {stats : List GlobalTaskStats} {i : ℕ}

structure Raised (times : Set ℕ) (s s' : GlobalTaskStats) : Prop where
  name : s'.name = s.name
  greatest : ∀ A : Set ℕ, IsGreatest A s.tElapsed.toNat →
    IsGreatest (A ∪ times) s'.tElapsed.toNat

theorem Raised.trans {times times' : Set ℕ} {s s' s'' : GlobalTaskStats}
    (h : Raised times s s') (h' : Raised times' s' s'') : Raised (times ∪ times') s s'' := by
  refine ⟨h'.name.trans h.name, ?_⟩
  intro A hA
  rw [← Set.union_assoc]
  exact h'.greatest _ (h.greatest A hA)

theorem raised_empty (s : GlobalTaskStats) : Raised ∅ s s := by
  refine ⟨rfl, ?_⟩
  intro A hA
  rwa [Set.union_empty]

theorem raised_singleton (s : GlobalTaskStats) (t : TaskStruct) :
    Raised {t.tElapsed.toNat} s
      (if t.tElapsed > s.tElapsed then { s with tElapsed := t.tElapsed } else s) := by
  refine ⟨by split <;> rfl, ?_⟩
  intro A hA
  have hmax := hA.insert t.tElapsed.toNat
  rw [← Set.union_singleton] at hmax
  split
  · rename_i hlt
    rwa [max_eq_left (UInt32.lt_iff_toNat_lt.mp hlt).le] at hmax
  · rename_i hle
    rwa [max_eq_right (UInt32.le_iff_toNat_le.mp (UInt32.not_lt.mp hle))] at hmax

theorem flaggedTimes_cons (x : TaskStruct) (q : List TaskStruct) (i : ℕ) :
    flaggedTimes (x :: q) i = flaggedTimes [x] i ∪ flaggedTimes q i := by
  ext v
  simp only [flaggedTimes, List.mem_cons, List.not_mem_nil, or_false, Set.mem_union,
    Set.mem_ofPred_eq, exists_eq_or_imp, exists_eq_left]

theorem recordFlagged_names (stats : List GlobalTaskStats) (x : TaskStruct) :
    (recordFlagged stats x).map GlobalTaskStats.name = stats.map GlobalTaskStats.name := by
  rw [recordFlagged]
  split
  · apply List.ext_getElem?
    intro i
    rw [recordReaction, List.getElem?_map, List.getElem?_map, List.getElem?_modify]
    cases stats[i]? with
    | none => rfl
    | some s =>
      rcases eq_or_ne x.globalStats i with heq | hne
      · simp only [heq, if_true, Option.map_eq_map, Option.map_some]
        split <;> rfl
      · simp only [hne, if_false, Option.map_eq_map, Option.map_some]
  · rfl

theorem recordFlagged_raised {s' : GlobalTaskStats} {x : TaskStruct}
    (h : (recordFlagged stats x)[i]? = some s') :
    ∃ s, stats[i]? = some s ∧ Raised (flaggedTimes [x] i) s s' := by
  have hsame : ∀ {s : GlobalTaskStats}, ¬(x.flagged = true ∧ x.globalStats = i) →
      Raised (flaggedTimes [x] i) s s := by
    intro s hother
    have hempty : flaggedTimes [x] i = ∅ := by
      ext v
      simp only [flaggedTimes, List.mem_singleton, exists_eq_left, Set.mem_ofPred_eq,
        Set.mem_empty_iff_false, iff_false]
      exact fun hv => hother ⟨hv.1, hv.2.1⟩
    rw [hempty]
    exact raised_empty s
  rw [recordFlagged] at h
  split at h
  · rename_i hflag
    rw [recordReaction, List.getElem?_modify] at h
    obtain ⟨s, hs, rfl⟩ := Option.map_eq_some_iff.mp h
    refine ⟨s, hs, ?_⟩
    split
    · rename_i hi
      have htimes : flaggedTimes [x] i = {x.tElapsed.toNat} := by
        ext v
        simp only [flaggedTimes, List.mem_singleton, exists_eq_left, hflag, hi, true_and,
          Set.mem_ofPred_eq, Set.mem_singleton_iff]
        exact eq_comm
      rw [htimes]
      exact raised_singleton s x
    · rename_i hi
      exact hsame (fun hboth => hi hboth.2)
  · rename_i hflag
    exact ⟨s', h, hsame (fun hboth => hflag hboth.1)⟩

theorem foldl_recordFlagged_raised {q : List TaskStruct} {s' : GlobalTaskStats}
    (h : (q.foldl recordFlagged stats)[i]? = some s') :
    ∃ s, stats[i]? = some s ∧ Raised (flaggedTimes q i) s s' := by
  induction q generalizing stats with
  | nil =>
    have hempty : flaggedTimes [] i = ∅ := by
      ext v
      simp [flaggedTimes]
    rw [hempty]
    exact ⟨s', h, raised_empty s'⟩
  | cons x q ih =>
    obtain ⟨s₁, hs₁, hrest⟩ := ih h
    obtain ⟨s, hs, hfirst⟩ := recordFlagged_raised hs₁
    rw [flaggedTimes_cons]
    exact ⟨s, hs, hfirst.trans hrest⟩

end Maximum

section Positions

variable {p : Tick → Bool} {before : List Tick} {t : Tick} {k : ℕ}

theorem atTick_lt (h : atTick p before k) : k < before.length := by
  rw [atTick] at h
  cases hget : before[k]? with
  | none => simp [hget] at h
  | some t => exact (List.getElem?_eq_some_iff.mp hget).1

theorem atTick_snoc_of_lt (h : k < before.length) :
    atTick p (before ++ [t]) k ↔ atTick p before k := by
  rw [atTick, atTick, List.getElem?_append_left h]

theorem atTick_last : atTick p (before ++ [t]) before.length ↔ p t = true := by
  rw [atTick, List.getElem?_concat_length, Option.any_some]

theorem atTick_snoc : atTick p (before ++ [t]) k ↔
    atTick p before k ∨ (k = before.length ∧ p t = true) := by
  constructor
  · intro h
    have hlt := atTick_lt h
    rw [List.length_append, List.length_singleton] at hlt
    rcases Nat.lt_succ_iff_lt_or_eq.mp hlt with hlt | rfl
    · exact Or.inl ((atTick_snoc_of_lt hlt).mp h)
    · exact Or.inr ⟨rfl, atTick_last.mp h⟩
  · rintro (h | ⟨rfl, h⟩)
    · exact (atTick_snoc_of_lt (atTick_lt h)).mpr h
    · exact atTick_last.mpr h

theorem enters_iff {j : ℕ × ℕ} : t.enters j = true ↔ ∃ x ∈ t.entering, x.job = j := by
  simp only [Tick.enters, List.any_eq_true, decide_eq_true_eq]

theorem completes_iff {j : ℕ × ℕ} :
    t.completes j = true ↔ ∃ x, t.dispatched.next = some x ∧ x.job = j ∧ finishing x = true := by
  simp only [Tick.completes, Option.any_eq_true, Bool.and_eq_true, decide_eq_true_eq]

theorem drops_iff {cfg : Config} {j : ℕ × ℕ} : t.drops cfg j = true ↔
    ∃ x ∈ t.released.readyQueue, x.job = j ∧ x.flagged = false ∧
      (deadlineFlag cfg t.released.readyQueue x).isSome = true := by
  simp only [Tick.drops, List.any_eq_true, Bool.and_eq_true, decide_eq_true_eq,
    Bool.not_eq_true', and_assoc]

end Positions

section Jobs

theorem checkedJob (cfg : Config) (q : List TaskStruct) (x : TaskStruct) :
    (decrementDeadline (handleDeadline cfg q x)).job = x.job ∧
      (decrementDeadline (handleDeadline cfg q x)).tElapsed = x.tElapsed := by
  rw [handleDeadline]
  split
  · exact ⟨rfl, rfl⟩
  · exact ⟨rfl, rfl⟩

theorem worked_job (next : Option ℕ) (x : TaskStruct) :
    (worked next x).job = x.job ∧ (worked next x).tElapsed = x.tElapsed + 1 := by
  rw [worked]
  split
  · simp only [spendTick, incrementElapsed, removeTaskIfFinishedExecution, TaskStruct.job]
    split
    · exact ⟨rfl, rfl⟩
    · exact ⟨rfl, rfl⟩
  · exact ⟨rfl, rfl⟩

theorem worked_flagged (next : Option ℕ) (x : TaskStruct) :
    (worked next x).flagged = (x.flagged || (decide (next = some x.addr) && finishing x)) := by
  rw [worked]
  split
  · rename_i hnext
    rw [hnext, decide_eq_true rfl, Bool.true_and, ← removeTaskIfFinishedExecution_flagged]
    rfl
  · rename_i hnext
    rw [decide_eq_false hnext, Bool.false_and, Bool.or_false]
    rfl

end Jobs

namespace PlainTick

variable {cfg : Config} {t : Tick}

theorem next_mem (h : PlainTick cfg t) {z : TaskStruct} (hz : t.dispatched.next = some z) :
    z ∈ prioritizeTasks cfg t.deleted.inherited t.deleted.readyQueue :=
  pickNextTask_mem (h.served.picked.symm.trans hz)

theorem completed (h : PlainTick cfg t) {j : ℕ × ℕ} (hdone : t.completes j = true) :
    ∃ x ∈ t.final.readyQueue, x.job = j ∧ x.flagged = true := by
  obtain ⟨z, hz, rfl, hfin⟩ := completes_iff.mp hdone
  refine ⟨worked (some z.addr) z, ?_, (worked_job _ z).1, ?_⟩
  · rw [h.served.ready, hz]
    exact List.mem_map_of_mem (h.next_mem hz)
  · rw [worked_flagged, hfin, decide_eq_true rfl, Bool.and_self, Bool.or_true]

theorem left_behind (h : PlainTick cfg t) (hclean : SweepsClean TaskStruct.flagged t.checked.readyQueue)
    {x : TaskStruct} (hx : x ∈ t.final.readyQueue) :
    ∃ y ∈ t.released.readyQueue, x.job = y.job ∧ x.tElapsed = y.tElapsed + 1 ∧
      (x.flagged = true → t.completes x.job = true) := by
  rw [h.served.ready] at hx
  obtain ⟨w, hw, rfl⟩ := List.mem_map.mp hx
  obtain ⟨v, hv, hvw⟩ := List.mem_map.mp hw
  rw [h.deleted, hclean.removeNodes_eq, List.mem_filter, h.checked] at hv
  obtain ⟨y, hy, hyv⟩ := List.mem_map.mp hv.1
  have hjob : w.job = y.job := by
    rw [← hvw, ← (checkedJob cfg t.released.readyQueue y).1, hyv]
    rfl
  have helapsed : w.tElapsed = y.tElapsed := by
    rw [← hvw, ← (checkedJob cfg t.released.readyQueue y).2, hyv]
  have hkept : v.flagged = false := by simpa using hv.2
  have hlive : w.flagged = false := by
    rw [← hvw]
    exact hkept
  obtain ⟨hsame, hnext⟩ := worked_job (t.dispatched.next.map TaskStruct.addr) w
  refine ⟨y, hy, hsame.trans hjob, by rw [hnext, helapsed], ?_⟩
  intro hflag
  rw [worked_flagged, hlive, Bool.false_or, Bool.and_eq_true, decide_eq_true_eq] at hflag
  obtain ⟨z, hz, haddr⟩ := Option.map_eq_some_iff.mp hflag.1
  have hnodup : ((prioritizeTasks cfg t.deleted.inherited t.deleted.readyQueue).map
      TaskStruct.addr).Nodup := by
    rw [prioritizeTasks_addrs]
    exact h.nodup
  obtain rfl := List.inj_on_of_nodup_map hnodup (h.next_mem hz) hw haddr
  exact completes_iff.mpr ⟨z, hz, hsame.symm, hflag.2⟩

theorem mem_flaggedTimes_checked (h : PlainTick cfg t) {i v : ℕ} :
    v ∈ flaggedTimes t.checked.readyQueue i ↔ ∃ y ∈ t.released.readyQueue,
      (y.flagged = true ∨ (deadlineFlag cfg t.released.readyQueue y).isSome = true) ∧
        y.globalStats = i ∧ y.tElapsed.toNat = v := by
  have hsame : ∀ y, (decrementDeadline (handleDeadline cfg t.released.readyQueue y)).globalStats =
      y.globalStats := fun y => congrArg Prod.snd (checkedJob cfg t.released.readyQueue y).1
  have helapsed := fun y => (checkedJob cfg t.released.readyQueue y).2
  simp only [flaggedTimes, Set.mem_ofPred_eq, h.checked, handleDeadlineQueue, List.mem_map]
  constructor
  · rintro ⟨x, ⟨y, hy, rfl⟩, hflag, rfl, rfl⟩
    rw [handleDeadline_flagged, Bool.or_eq_true] at hflag
    exact ⟨y, hy, hflag, (hsame y).symm, congrArg UInt32.toNat (helapsed y).symm⟩
  · rintro ⟨y, hy, hflag, rfl, rfl⟩
    refine ⟨_, ⟨y, hy, rfl⟩, ?_, hsame y, congrArg UInt32.toNat (helapsed y)⟩
    rw [handleDeadline_flagged, Bool.or_eq_true]
    exact hflag

end PlainTick

structure Stopwatches (cfg : Config) (rows : List TaskRow) (before : List Tick) (σ : Sim) : Prop where
  quiet : Quiet σ
  sound : Sound σ
  tick : σ.tick.toNat = before.length
  stop : σ.tick.toNat ≤ cfg.tStop.toNat + 1
  templates : ∀ x ∈ σ.tasks, x.flagged = false ∧ x.tElapsed = 0
  below : ∀ a i release, atTick (Tick.enters (a, i)) before release → a < σ.fresh
  once : ∀ a i i' release release', atTick (Tick.enters (a, i)) before release →
    atTick (Tick.enters (a, i')) before release' → release = release'
  aged : ∀ x ∈ σ.readyQueue, ∃ release, atTick (Tick.enters x.job) before release ∧
    x.tElapsed.toNat + release = before.length
  finished : ∀ x ∈ σ.readyQueue, x.flagged = true →
    ∃ f, atTick (Tick.completes x.job) before f ∧ f + 1 = before.length
  flagged : ∀ j f, atTick (Tick.completes j) before f → f + 1 = before.length →
    ∃ x ∈ σ.readyQueue, x.job = j ∧ x.flagged = true
  names : σ.stats.map GlobalTaskStats.name = rows.map TaskRow.name
  stats : ∀ i s, σ.stats[i]? = some s →
    IsGreatest (unlinkedTimes cfg before i) s.tElapsed.toNat

namespace Stopwatches

variable {cfg : Config} {rows : List TaskRow} {before : List Tick} {t : Tick}

theorem entering_new (h : Stopwatches cfg rows before t.start) (hp : PlainTick cfg t)
    {x : TaskStruct} (hx : x ∈ t.entering) : x.flagged = false ∧ x.tElapsed = 0 := by
  obtain ⟨y, hy, hxy⟩ := hp.copies x hx
  rw [hxy]
  exact h.templates y hy

theorem released_aged (h : Stopwatches cfg rows before t.start) (hp : PlainTick cfg t)
    {y : TaskStruct} (hy : y ∈ t.released.readyQueue) :
    ∃ release, atTick (Tick.enters y.job) (before ++ [t]) release ∧
      y.tElapsed.toNat + release = before.length := by
  rw [hp.released] at hy
  rcases List.mem_append.mp hy with hy | hy
  · obtain ⟨release, henters, hage⟩ := h.aged y hy
    exact ⟨release, atTick_snoc.mpr (Or.inl henters), hage⟩
  · refine ⟨before.length, atTick_last.mpr (enters_iff.mpr ⟨y, hy, rfl⟩), ?_⟩
    rw [(h.entering_new hp hy).2]
    exact Nat.zero_add _

theorem below_step (h : Stopwatches cfg rows before t.start) (hp : PlainTick cfg t) :
    ∀ a i release, atTick (Tick.enters (a, i)) (before ++ [t]) release → a < t.final.fresh := by
  intro a i release henters
  rcases atTick_snoc.mp henters with hold | ⟨_, hnew⟩
  · exact (h.below a i release hold).trans_le hp.fresh
  · obtain ⟨x, hx, hjob⟩ := enters_iff.mp hnew
    have haddr : x.addr = a := congrArg Prod.fst hjob
    rw [← haddr]
    exact (hp.addrs x hx).2

theorem once_step (h : Stopwatches cfg rows before t.start) (hp : PlainTick cfg t) :
    ∀ a i i' release release', atTick (Tick.enters (a, i)) (before ++ [t]) release →
      atTick (Tick.enters (a, i')) (before ++ [t]) release' → release = release' := by
  have hapart : ∀ a i i' release, atTick (Tick.enters (a, i)) before release →
      t.enters (a, i') = true → False := by
    intro a i i' release hold hnew
    obtain ⟨x, hx, hjob⟩ := enters_iff.mp hnew
    have haddr : x.addr = a := congrArg Prod.fst hjob
    have hlt := h.below a i release hold
    have hge := (hp.addrs x hx).1
    omega
  intro a i i' release release' henters henters'
  rcases atTick_snoc.mp henters with hold | ⟨rfl, hnew⟩
  · rcases atTick_snoc.mp henters' with hold' | ⟨rfl, hnew'⟩
    · exact h.once a i i' release release' hold hold'
    · exact (hapart a i i' release hold hnew').elim
  · rcases atTick_snoc.mp henters' with hold' | ⟨rfl, _⟩
    · exact (hapart a i' i release' hold' hnew).elim
    · rfl

theorem templates_step (h : Stopwatches cfg rows before t.start) (hp : PlainTick cfg t) :
    ∀ x ∈ t.final.tasks, x.flagged = false ∧ x.tElapsed = 0 := by
  intro x hx
  obtain ⟨y, hy, rfl⟩ := List.mem_map.mp (hp.tasks.subset hx)
  rw [bump]
  split
  · exact h.templates y hy
  · exact h.templates y hy

-- A job counted now was flagged in the queue before: by its last tick or by the check of this one.
theorem unlinked_flagged (h : Stopwatches cfg rows before t.start) (hp : PlainTick cfg t) {i v : ℕ}
    (hv : v ∈ unlinkedTimes cfg (before ++ [t]) i) :
    v ∈ unlinkedTimes cfg before i ∨ v ∈ flaggedTimes t.checked.readyQueue i := by
  rw [hp.mem_flaggedTimes_checked]
  rcases hv with rfl | ⟨k, ⟨⟨a, release, hle, rfl, henters, hdone⟩, hk⟩ |
    ⟨a, release, hle, rfl, henters, hdrop⟩⟩
  · exact Or.inl (Set.mem_insert 0 _)
  · rw [List.length_append, List.length_singleton] at hk
    have henters := (atTick_snoc_of_lt (by omega)).mp henters
    have hdone := (atTick_snoc_of_lt (by omega)).mp hdone
    rcases Nat.lt_or_ge (k + 1) before.length with hearly | hlate
    · left
      exact Or.inr ⟨k, Or.inl ⟨⟨a, release, hle, rfl, henters, hdone⟩, hearly⟩⟩
    · right
      obtain ⟨x, hx, hjob, hflag⟩ := h.flagged (a, i) k hdone (by omega)
      obtain ⟨release', henters', hage⟩ := h.aged x hx
      rw [hjob] at henters'
      obtain rfl := h.once a i i release release' henters henters'
      refine ⟨x, ?_, Or.inl hflag, congrArg Prod.snd hjob, by omega⟩
      rw [hp.released]
      exact List.mem_append_left _ hx
  · rcases atTick_snoc.mp hdrop with hold | ⟨rfl, hnew⟩
    · have hlt := atTick_lt hold
      left
      exact Or.inr ⟨k, Or.inr ⟨a, release, hle, rfl, (atTick_snoc_of_lt (by omega)).mp henters, hold⟩⟩
    · right
      obtain ⟨x, hx, hjob, _, hmissed⟩ := drops_iff.mp hnew
      obtain ⟨release', henters', hage⟩ := h.released_aged hp hx
      rw [hjob] at henters'
      obtain rfl := h.once_step hp a i i release release' henters henters'
      exact ⟨x, hx, Or.inr hmissed, congrArg Prod.snd hjob, by omega⟩

theorem flagged_unlinked (h : Stopwatches cfg rows before t.start) (hp : PlainTick cfg t) {i v : ℕ}
    (hv : v ∈ flaggedTimes t.checked.readyQueue i) : v ∈ unlinkedTimes cfg (before ++ [t]) i := by
  obtain ⟨y, hy, hflag, rfl, rfl⟩ := hp.mem_flaggedTimes_checked.mp hv
  right
  cases hlive : y.flagged with
  | true =>
    have hold : y ∈ t.start.readyQueue := by
      rw [hp.released] at hy
      refine (List.mem_append.mp hy).resolve_right (fun hnew => ?_)
      rw [(h.entering_new hp hnew).1] at hlive
      cases hlive
    obtain ⟨f, hdone, hf⟩ := h.finished y hold hlive
    obtain ⟨release, henters, hage⟩ := h.aged y hold
    have hlt := atTick_lt henters
    refine ⟨f, Or.inl ⟨⟨y.addr, release, by omega, by omega, atTick_snoc.mpr (Or.inl henters),
      atTick_snoc.mpr (Or.inl hdone)⟩, ?_⟩⟩
    rw [List.length_append, List.length_singleton]
    omega
  | false =>
    have hmissed := hflag.resolve_left (by rw [hlive]; exact Bool.false_ne_true)
    obtain ⟨release, henters, hage⟩ := h.released_aged hp hy
    exact ⟨before.length, Or.inr ⟨y.addr, release, by omega, by omega, henters,
      atTick_last.mpr (drops_iff.mpr ⟨y, hy, rfl, hlive, hmissed⟩)⟩⟩

theorem unlinkedTimes_mono {i v : ℕ} (hv : v ∈ unlinkedTimes cfg before i) :
    v ∈ unlinkedTimes cfg (before ++ [t]) i := by
  rcases hv with rfl | ⟨k, ⟨⟨a, release, hle, rfl, henters, hdone⟩, hk⟩ |
    ⟨a, release, hle, rfl, henters, hdrop⟩⟩
  · exact Set.mem_insert 0 _
  · refine Or.inr ⟨k, Or.inl ⟨⟨a, release, hle, rfl, atTick_snoc.mpr (Or.inl henters),
      atTick_snoc.mpr (Or.inl hdone)⟩, ?_⟩⟩
    rw [List.length_append, List.length_singleton]
    omega
  · exact Or.inr ⟨k, Or.inr ⟨a, release, hle, rfl, atTick_snoc.mpr (Or.inl henters),
      atTick_snoc.mpr (Or.inl hdrop)⟩⟩

theorem unlinkedTimes_snoc (h : Stopwatches cfg rows before t.start) (hp : PlainTick cfg t) (i : ℕ) :
    unlinkedTimes cfg (before ++ [t]) i =
      unlinkedTimes cfg before i ∪ flaggedTimes t.checked.readyQueue i := by
  refine Set.Subset.antisymm (fun v hv => h.unlinked_flagged hp hv) ?_
  rintro v (hv | hv)
  · exact unlinkedTimes_mono hv
  · exact h.flagged_unlinked hp hv

theorem names_step (h : Stopwatches cfg rows before t.start) (hp : PlainTick cfg t) :
    t.final.stats.map GlobalTaskStats.name = rows.map TaskRow.name := by
  rw [hp.stats, ← h.names]
  generalize t.start.stats = stats
  induction t.checked.readyQueue generalizing stats with
  | nil => rfl
  | cons x q ih => rw [List.foldl_cons, ih, recordFlagged_names]

theorem step {σ σ' : Sim} (h : Stopwatches cfg rows before σ) (hstart : cfg.tStart = 0)
    (hstop : cfg.tStop.toNat + 1 < 2 ^ 32) (hclean : CleanSweep t.checked)
    (hstep : Step cfg σ t σ') : Stopwatches cfg rows (before ++ [t]) σ' := by
  have hsound := hstep.sound h.sound
  obtain ⟨hgoes, htick, rfl⟩ := hstep
  obtain ⟨rfl, hp⟩ := simTick_plain hstart h.quiet h.sound htick
  have hlen : (before ++ [t]).length = before.length + 1 := List.length_append
  have hgoes := UInt32.le_iff_toNat_le.mp hgoes
  have hnow := h.tick
  have hnext : t.final.tick.toNat = before.length + 1 := by
    rw [simTick_tick htick, UInt32.toNat_add, hnow]
    exact Nat.mod_eq_of_lt (by rw [UInt32.toNat_one]; omega)
  refine ⟨hp.quiet, hsound, hnext.trans hlen.symm, by omega, h.templates_step hp, h.below_step hp,
    h.once_step hp, ?_, ?_, ?_, h.names_step hp, ?_⟩
  · intro x hx
    obtain ⟨y, hy, hjob, helapsed, _⟩ := hp.left_behind hclean.ready hx
    obtain ⟨release, henters, hage⟩ := h.released_aged hp hy
    refine ⟨release, hjob ▸ henters, ?_⟩
    rw [helapsed, hlen, UInt32.toNat_add, UInt32.toNat_one, Nat.mod_eq_of_lt (by omega)]
    omega
  · intro x hx hflag
    obtain ⟨_, _, _, _, hdone⟩ := hp.left_behind hclean.ready hx
    exact ⟨before.length, atTick_last.mpr (hdone hflag), hlen.symm⟩
  · intro j f hdone hf
    obtain rfl : f = before.length := by omega
    exact hp.completed (atTick_last.mp hdone)
  · intro i s hs
    rw [hp.stats] at hs
    obtain ⟨s₀, hs₀, hraised⟩ := foldl_recordFlagged_raised hs
    rw [h.unlinkedTimes_snoc hp]
    exact hraised.greatest _ (h.stats i s₀ hs₀)

end Stopwatches

theorem initial_quiet {rows : List TaskRow} (hplain : ∀ row ∈ rows, row.resources = []) :
    Quiet (initial rows) := by
  refine ⟨?_, rfl, ?_, fun x hx => absurd hx List.not_mem_nil⟩
  · have hnone : rows.flatMap (fun row => row.resources.map Prod.fst) = [] := by
      rw [List.flatMap_eq_nil_iff]
      intro row hrow
      rw [hplain row hrow]
      rfl
    rw [initial, resourceNames, hnone]
    rfl
  · intro x hx
    obtain ⟨e, he, rfl⟩ := List.mem_map.mp hx
    rw [template, hplain e.1 (List.fst_mem_of_mem_zipIdx he)]
    rfl

theorem initial_stopwatches (cfg : Config) {rows : List TaskRow}
    (hplain : ∀ row ∈ rows, row.resources = []) : Stopwatches cfg rows [] (initial rows) := by
  have hnone : ∀ {p : Tick → Bool} {k : ℕ}, ¬atTick p [] k :=
    fun h => absurd (atTick_lt h) (Nat.not_lt_zero _)
  refine ⟨initial_quiet hplain, initial_sound rows, rfl, Nat.zero_le _, ?_,
    fun _ _ _ h => (hnone h).elim, fun _ _ _ _ _ h => (hnone h).elim,
    fun x hx => absurd hx List.not_mem_nil, fun x hx => absurd hx List.not_mem_nil,
    fun _ _ h => (hnone h).elim, ?_, ?_⟩
  · intro x hx
    obtain ⟨e, _, rfl⟩ := List.mem_map.mp hx
    exact ⟨rfl, rfl⟩
  · rw [initial, List.map_map]
    rfl
  · intro i s hs
    obtain ⟨row, _, rfl⟩ := List.mem_map.mp (List.mem_of_getElem? hs)
    refine ⟨Set.mem_insert 0 _, ?_⟩
    rintro v (rfl | ⟨k, ⟨⟨_, _, _, _, henters, _⟩, _⟩ | ⟨_, _, _, _, henters, _⟩⟩)
    · exact Nat.le_refl 0
    · exact (hnone henters).elim
    · exact (hnone henters).elim

theorem run_stopwatches {cfg : Config} {rows : List TaskRow} {ts : List Tick} {σ : Sim}
    (hplain : ∀ row ∈ rows, row.resources = []) (hstart : cfg.tStart = 0)
    (hstop : cfg.tStop.toNat + 1 < 2 ^ 32) (hrun : Run cfg (initial rows) ts σ)
    (hclean : ∀ t ∈ ts, CleanSweep t.checked) : Stopwatches cfg rows ts σ :=
  hrun.history (initial_stopwatches cfg hplain)
    (fun _ _ _ _ _ h hsweep hstep => h.step hstart hstop hsweep hstep) hclean

-- What `print_list(stats)` shows for task `i` is the longest reaction time of its jobs.
def ReactionExact (cfg : Config) (rows : List TaskRow) (ts : List Tick) (σ : Sim) (i : ℕ) : Prop :=
  ∃ row m, rows[i]? = some row ∧ σ.stats[i]? = some ⟨row.name, m⟩ ∧
    IsGreatest (reactionTimes cfg ts i) m.toNat

theorem mem_reactionTimes {cfg : Config} {ts : List Tick} {i v last : ℕ}
    (hlen : ts.length = last + 1) :
    v ∈ reactionTimes cfg ts i ↔ v ∈ unlinkedTimes cfg ts i ∨ FinishedAt ts i last v := by
  constructor
  · rintro (rfl | ⟨k, hdone | hdrop⟩)
    · exact Or.inl (Set.mem_insert 0 _)
    · obtain ⟨a, release, hle, hv, henters, hcomplete⟩ := hdone
      have hlt := atTick_lt hcomplete
      rcases Nat.lt_or_ge (k + 1) ts.length with hearly | hlate
      · left
        exact Or.inr ⟨k, Or.inl ⟨⟨a, release, hle, hv, henters, hcomplete⟩, hearly⟩⟩
      · obtain rfl : k = last := by omega
        exact Or.inr ⟨a, release, hle, hv, henters, hcomplete⟩
    · left
      exact Or.inr ⟨k, Or.inr hdrop⟩
  · rintro ((rfl | ⟨k, ⟨hdone, _⟩ | hdrop⟩) | hdone)
    · exact Set.mem_insert 0 _
    · exact Or.inr ⟨k, Or.inl hdone⟩
    · exact Or.inr ⟨k, Or.inr hdrop⟩
    · exact Or.inr ⟨last, Or.inl hdone⟩

section Exact

variable {cfg : Config} {rows : List TaskRow} {ts : List Tick} {σ : Sim} {i : ℕ}

theorem Stopwatches.printed (h : Stopwatches cfg rows ts σ) (hi : i < rows.length) :
    ∃ row m, rows[i]? = some row ∧ σ.stats[i]? = some ⟨row.name, m⟩ := by
  have hname := congrArg (fun names => names[i]?) h.names
  simp only [List.getElem?_map, List.getElem?_eq_getElem hi, Option.map_some] at hname
  obtain ⟨s, hs, hsname⟩ := Option.map_eq_some_iff.mp hname
  refine ⟨rows[i], s.tElapsed, List.getElem?_eq_getElem hi, ?_⟩
  rw [hs, ← hsname]

theorem Stopwatches.exact_iff (h : Stopwatches cfg rows ts σ) (hlen : ts.length = cfg.tStop.toNat + 1)
    (hi : i < rows.length) :
    ReactionExact cfg rows ts σ i ↔ ∀ v, FinishedAt ts i cfg.tStop.toNat v →
      ∃ v' ∈ unlinkedTimes cfg ts i, v ≤ v' := by
  obtain ⟨row, m, hrow, hm⟩ := h.printed hi
  have hgreatest := h.stats i ⟨row.name, m⟩ hm
  constructor
  · rintro ⟨row', m', hrow', hm', hexact⟩ v hv
    rw [hrow] at hrow'
    obtain rfl := Option.some_inj.mp hrow'
    rw [hm] at hm'
    obtain ⟨_, rfl⟩ := GlobalTaskStats.mk.inj (Option.some_inj.mp hm')
    exact ⟨m.toNat, hgreatest.1, hexact.2 ((mem_reactionTimes hlen).mpr (Or.inr hv))⟩
  · intro hlate
    refine ⟨row, m, hrow, hm, (mem_reactionTimes hlen).mpr (Or.inl hgreatest.1), ?_⟩
    intro v hv
    rcases (mem_reactionTimes hlen).mp hv with hv | hv
    · exact hgreatest.2 hv
    · obtain ⟨v', hv', hle⟩ := hlate v hv
      exact hle.trans (hgreatest.2 hv')

end Exact

theorem finishedAt_running {ts : List Tick} {i f v : ℕ} (h : FinishedAt ts i f v) :
    atTick (fun t => t.dispatched.next.isSome) ts f := by
  obtain ⟨a, _, _, _, _, hdone⟩ := h
  rw [atTick, Option.any_eq_true] at hdone ⊢
  obtain ⟨t, ht, hcomplete⟩ := hdone
  obtain ⟨x, hx, _⟩ := completes_iff.mp hcomplete
  exact ⟨t, ht, Option.isSome_iff_exists.mpr ⟨x, hx⟩⟩

def oneShot : List TaskRow :=
  [⟨"A", 0, 5, 1, 4, []⟩]

end Simulator
