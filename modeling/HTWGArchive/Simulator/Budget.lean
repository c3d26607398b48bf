import HTWGArchive.Simulator.Entries
import HTWGArchive.Simulator.Uniqueness

namespace Simulator

def Tick.executes (t : Tick) : Option (String × ℕ) :=
  t.dispatched.next.map TaskStruct.id

def executions (ts : List Tick) (id : String × ℕ) : ℕ :=
  ts.countP (fun t => t.executes = some id)

def ReleasedAt (ts : List Tick) (id : String × ℕ) (i : ℕ) : Prop :=
  ∃ t ∈ ts[i]?, id ∈ t.releases

instance (ts : List Tick) (id : String × ℕ) (i : ℕ) : Decidable (ReleasedAt ts id i) :=
  inferInstanceAs (Decidable (∃ t ∈ ts[i]?, id ∈ t.releases))

def ExecutedAt (ts : List Tick) (id : String × ℕ) (i : ℕ) : Prop :=
  ∃ t ∈ ts[i]?, t.executes = some id

instance (ts : List Tick) (id : String × ℕ) (i : ℕ) : Decidable (ExecutedAt ts id i) :=
  inferInstanceAs (Decidable (∃ t ∈ ts[i]?, t.executes = some id))

def Tick.kills (t : Tick) : List String :=
  ((t.checked.readyQueue ++ t.checked.blockedQueue).filter (fun x => x.taskState = .killed)).map
    TaskStruct.name

def WithinBudget (rows : List TaskRow) (ts : List Tick) : Prop :=
  ∀ row ∈ rows, ∀ num, executions ts (row.name, num) ≤ row.tE.toNat

def WithinWindow (rows : List TaskRow) (ts : List Tick) : Prop :=
  ∀ row ∈ rows, ∀ num k, ExecutedAt ts (row.name, num) k →
    ∃ i, ReleasedAt ts (row.name, num) i ∧ (∀ i', ReleasedAt ts (row.name, num) i' → i' = i) ∧
      i ≤ k ∧ k < i + row.tD.toNat

def KilledForGood (ts : List Tick) : Prop :=
  ∀ i k : ℕ, i ≤ k → ∀ t ∈ ts[i]?, ∀ u ∈ ts[k]?, ∀ name ∈ t.kills,
    (∀ x ∈ u.deleted.readyQueue ++ u.deleted.blockedQueue, x.name ≠ name) ∧
      ∀ id ∈ u.executes, id.1 ≠ name

-- A kill flags every job of the task, in whichever queue it is.
def KillsReachAll (σ : Sim) : Prop :=
  ∀ x ∈ σ.readyQueue ++ σ.blockedQueue, x.taskState = .killed →
    ∀ y ∈ σ.readyQueue ++ σ.blockedQueue, y.name = x.name → y.flagged = true

instance (σ : Sim) : Decidable (KillsReachAll σ) :=
  inferInstanceAs (Decidable (∀ x ∈ σ.readyQueue ++ σ.blockedQueue, x.taskState = .killed →
    ∀ y ∈ σ.readyQueue ++ σ.blockedQueue, y.name = x.name → y.flagged = true))

structure Account (row : TaskRow) (executed issued : List Tick) (now : ℕ) (x : TaskStruct) :
    Prop where
  name : x.name = row.name
  left : 0 < x.tRemainingE
  spent : executions executed x.id + x.tRemainingE.toNat = row.tE.toNat
  window : ∃ i, ReleasedAt issued x.id i ∧ i + row.tD.toNat = now + x.localStats.tRemainingD.toNat

def Books (rows : List TaskRow) (executed issued : List Tick) (now : ℕ) (b : Board) : Prop :=
  ∀ x ∈ b.ready ++ b.blocked, x.flagged = false → ∃ row ∈ rows, Account row executed issued now x

def Templates (rows : List TaskRow) (b : Board) : Prop :=
  ∀ x ∈ b.tasks, ∃ row ∈ rows, x.name = row.name ∧ x.tRemainingE = row.tE ∧
    x.localStats.tRemainingD = row.tD

def ledger (t : TaskStruct) : (String × ℕ) × UInt32 × UInt32 :=
  (t.id, t.tRemainingE, t.localStats.tRemainingD)

theorem Account.of_ledger {row : TaskRow} {executed issued : List Tick} {now : ℕ}
    {x x' : TaskStruct} (h : Account row executed issued now x) (hledger : ledger x' = ledger x) :
    Account row executed issued now x' := by
  simp only [ledger, Prod.mk.injEq] at hledger
  obtain ⟨hid, he, hd⟩ := hledger
  have hname : x'.name = x.name := congrArg Prod.fst hid
  exact ⟨hname.trans h.name, by rw [he]; exact h.left, by rw [hid, he]; exact h.spent,
    by rw [hid, hd]; exact h.window⟩

-- Every unflagged job was there before, with the same counters.
def Carries (b b' : Board) : Prop :=
  ∀ x' ∈ b'.ready ++ b'.blocked, x'.flagged = false →
    ∃ x ∈ b.ready ++ b.blocked, x.flagged = false ∧ ledger x' = ledger x

namespace Carries

variable {b b' b'' : Board} {t t' : TaskStruct}

theorem refl (b : Board) : Carries b b :=
  fun x hx hflag => ⟨x, hx, hflag, rfl⟩

theorem trans (h : Carries b b') (h' : Carries b' b'') : Carries b b'' := by
  intro x hx hflag
  obtain ⟨y, hy, hyflag, hxy⟩ := h' x hx hflag
  obtain ⟨z, hz, hzflag, hyz⟩ := h y hy hyflag
  exact ⟨z, hz, hzflag, hxy.trans hyz⟩

theorem of_deleted (hdel : Deleted b b') : Carries b b' := by
  intro x hx hflag
  rcases List.mem_append.mp hx with hx | hx
  · obtain ⟨y, hy, hvis⟩ := hdel.ready.origin x hx
    have hyflag := hvis.flagged.symm.trans hflag
    rw [hvis.unflagged hyflag]
    exact ⟨y, List.mem_append_left _ hy, hyflag, rfl⟩
  · obtain ⟨y, hy, hvis⟩ := hdel.blocked.origin x hx
    have hyflag := hvis.flagged.symm.trans hflag
    rw [hvis.unflagged hyflag]
    exact ⟨y, List.mem_append_right _ hy, hyflag, rfl⟩

theorem of_waits (hwaits : Waits t t' b b') (hlive : AllLive b) : Carries b b' := by
  intro x hx hflag
  rcases List.mem_append.mp hx with hx | hx
  · rw [hwaits.ready] at hx
    exact ⟨x, List.mem_append_left _ ((removeNodes_sublist _ _).subset hx), hflag, rfl⟩
  · rw [hwaits.blocked] at hx
    rcases List.mem_append.mp hx with hx | hx
    · exact ⟨x, List.mem_append_right _ hx, hflag, rfl⟩
    · rw [List.mem_singleton.mp hx]
      exact ⟨t, List.mem_append_left _ hwaits.mem, hlive.ready t hwaits.mem,
        (congrArg ledger hwaits.job :)⟩

theorem of_waiting {issued ended : List (String × ℕ)} (hcensus : LiveCensus issued ended b)
    (hrounds : Relation.ReflTransGen Waiting b b') : Carries b b' := by
  induction hrounds with
  | refl => exact refl b
  | tail hpre hstep ih =>
    obtain ⟨t, t', hwaits⟩ := hstep
    exact ih.trans (of_waits hwaits (hcensus.waiting hpre).live)

theorem of_replace (ht : t ∈ b.ready) (hflag : t'.flagged = t.flagged)
    (hledger : ledger t' = ledger t)
    (hready : b'.ready = b.ready.map (updateAt t.addr (fun _ => t')))
    (hblocked : b'.blocked = b.blocked.map (updateAt t.addr (fun _ => t'))) : Carries b b' := by
  have hqueue : ∀ q : List TaskStruct, (∀ x ∈ q, x ∈ b.ready ++ b.blocked) →
      ∀ x ∈ q.map (updateAt t.addr (fun _ => t')), x.flagged = false →
        ∃ y ∈ b.ready ++ b.blocked, y.flagged = false ∧ ledger x = ledger y := by
    intro q hq x hx hxflag
    rcases mem_map_updateAt hx with rfl | ⟨hx, _⟩
    · exact ⟨t, List.mem_append_left _ ht, hflag.symm.trans hxflag, hledger⟩
    · exact ⟨x, hq x hx, hxflag, rfl⟩
  intro x hx
  rw [hready, hblocked] at hx
  rcases List.mem_append.mp hx with hx | hx
  · exact hqueue b.ready (fun y hy => List.mem_append_left _ hy) x hx
  · exact hqueue b.blocked (fun y hy => List.mem_append_right _ hy) x hx

theorem of_runs (hruns : Runs t t' b b') : Carries b b' :=
  of_replace hruns.mem (flagged_of_state hruns.state) (congrArg ledger hruns.job :) hruns.ready
    hruns.blocked

theorem of_releases (hrel : Releases t t' b b') : Carries b b' := by
  have hstate : t'.taskState = t.taskState := (congrArg TaskStruct.taskState hrel.job :)
  exact of_replace hrel.mem (flagged_of_state hstate) (congrArg ledger hrel.job :) hrel.ready
    hrel.blocked

theorem of_resume (hp : t ∈ b.blocked) (hlive : t.flagged = false) : Carries b (b.resume t) := by
  intro x hx hflag
  rcases List.mem_append.mp hx with hx | hx
  · rcases List.mem_append.mp hx with hx | hx
    · exact ⟨x, List.mem_append_left _ hx, hflag, rfl⟩
    · rw [List.mem_singleton.mp hx]
      exact ⟨t, List.mem_append_right _ hp, hlive, rfl⟩
  · obtain ⟨y, hy, rfl⟩ := List.mem_map.mp hx
    have hsame := (markRemoved_live hflag).1
    rw [hsame] at hflag ⊢
    exact ⟨y, List.mem_append_right _ hy, hflag, rfl⟩

theorem of_resuming {issued ended : List (String × ℕ)} {names : List String}
    (hcensus : Census issued ended b) (hstale : Stale names b) (hnames : names.Nodup)
    (hres : Resuming names b b') : Carries b b' := by
  induction hres with
  | nil b => exact refl b
  | skip _ ih =>
    refine ih hcensus ?_ (List.nodup_cons.mp hnames).2
    exact fun y hy hflag name hname => hstale y hy hflag name (List.mem_cons_of_mem _ hname)
  | cons hstep _ ih =>
    obtain ⟨picked, hp, hwait, rfl⟩ := hstep
    obtain ⟨hname, hnames'⟩ := List.nodup_cons.mp hnames
    obtain ⟨hlive, hstale'⟩ := hstale.resume hcensus.roster hname hp hwait
    exact (of_resume hp hlive).trans (ih (hcensus.resume hp hlive) hstale' hnames')

end Carries

theorem Books.carries {rows : List TaskRow} {executed issued : List Tick} {now : ℕ}
    {b b' : Board} (h : Books rows executed issued now b) (hcarries : Carries b b') :
    Books rows executed issued now b' := by
  intro x hx hflag
  obtain ⟨y, hy, hyflag, hledger⟩ := hcarries x hx hflag
  obtain ⟨row, hrow, haccount⟩ := h y hy hyflag
  exact ⟨row, hrow, haccount.of_ledger hledger⟩

theorem executions_snoc (ts : List Tick) (t : Tick) (id : String × ℕ) :
    executions (ts ++ [t]) id = executions ts id + if t.executes = some id then 1 else 0 := by
  simp [executions, List.countP_append, List.countP_cons]

theorem getElem?_snoc {ts : List Tick} {t u : Tick} {i : ℕ} :
    u ∈ (ts ++ [t])[i]? ↔ u ∈ ts[i]? ∨ i = ts.length ∧ u = t := by
  rcases Nat.lt_trichotomy i ts.length with hlt | rfl | hgt
  · have hne : i ≠ ts.length := hlt.ne
    simp [List.getElem?_append_left hlt, hne]
  · simp [eq_comm]
  · have hne : i ≠ ts.length := hgt.ne'
    have hout : ts[i]? = none := List.getElem?_eq_none hgt.le
    have hout' : (ts ++ [t])[i]? = none := by
      apply List.getElem?_eq_none
      simp only [List.length_append, List.length_singleton]
      omega
    simp [hout, hout', hne]

theorem releasedAt_snoc {ts : List Tick} {t : Tick} {id : String × ℕ} {i : ℕ} :
    ReleasedAt (ts ++ [t]) id i ↔ ReleasedAt ts id i ∨ i = ts.length ∧ id ∈ t.releases := by
  simp only [ReleasedAt, getElem?_snoc]
  constructor
  · rintro ⟨u, hu | ⟨rfl, rfl⟩, hid⟩
    · exact Or.inl ⟨u, hu, hid⟩
    · exact Or.inr ⟨rfl, hid⟩
  · rintro (⟨u, hu, hid⟩ | ⟨rfl, hid⟩)
    · exact ⟨u, Or.inl hu, hid⟩
    · exact ⟨t, Or.inr ⟨rfl, rfl⟩, hid⟩

theorem executedAt_snoc {ts : List Tick} {t : Tick} {id : String × ℕ} {i : ℕ} :
    ExecutedAt (ts ++ [t]) id i ↔ ExecutedAt ts id i ∨ i = ts.length ∧ t.executes = some id := by
  simp only [ExecutedAt, getElem?_snoc]
  constructor
  · rintro ⟨u, hu | ⟨rfl, rfl⟩, hid⟩
    · exact Or.inl ⟨u, hu, hid⟩
    · exact Or.inr ⟨rfl, hid⟩
  · rintro (⟨u, hu, hid⟩ | ⟨rfl, hid⟩)
    · exact ⟨u, Or.inl hu, hid⟩
    · exact ⟨t, Or.inr ⟨rfl, rfl⟩, hid⟩

theorem ReleasedAt.lt {ts : List Tick} {id : String × ℕ} {i : ℕ} (h : ReleasedAt ts id i) :
    i < ts.length ∧ id ∈ releasedJobs ts := by
  obtain ⟨t, ht, hid⟩ := h
  obtain ⟨hlt, rfl⟩ := List.getElem?_eq_some_iff.mp ht
  exact ⟨hlt, List.mem_flatMap.mpr ⟨_, List.getElem_mem hlt, hid⟩⟩

theorem Books.release {rows : List TaskRow} {ts : List Tick} {t : Tick} {b : Board}
    (h : Books rows ts ts ts.length b) (htemplates : Templates rows b)
    (hnew : ∀ id ∈ (b.tasks.filter (due t.start.tick)).map TaskStruct.id,
      executions ts id = 0 ∧ id ∈ t.releases)
    (hbudget : ∀ row ∈ rows, 0 < row.tE) (fresh : ℕ) :
    Books rows ts (ts ++ [t]) ts.length (b.release t.start.tick fresh) := by
  have hold : ∀ x ∈ b.ready ++ b.blocked, x.flagged = false →
      ∃ row ∈ rows, Account row ts (ts ++ [t]) ts.length x := by
    intro x hx hflag
    obtain ⟨row, hrow, haccount⟩ := h x hx hflag
    obtain ⟨i, hi, hwindow⟩ := haccount.window
    exact ⟨row, hrow, haccount.name, haccount.left, haccount.spent,
      i, releasedAt_snoc.mpr (Or.inl hi), hwindow⟩
  intro x hx hflag
  rcases List.mem_append.mp hx with hx | hx
  · rcases List.mem_append.mp hx with hx | hx
    · exact hold x (List.mem_append_left _ hx) hflag
    · obtain ⟨y, hy, hxy⟩ := mem_copyList hx
      obtain ⟨z, hz, rfl⟩ := List.mem_map.mp hy
      obtain ⟨row, hrow, hname, he, hd⟩ := htemplates z (List.mem_of_mem_filter hz)
      obtain ⟨hnone, hreleased⟩ := hnew z.id (List.mem_map_of_mem hz)
      have haccount : Account row ts (ts ++ [t]) ts.length z := by
        refine ⟨hname, by rw [he]; exact hbudget row hrow, by rw [hnone, he, Nat.zero_add],
          ts.length, releasedAt_snoc.mpr (Or.inr ⟨rfl, hreleased⟩), by rw [hd]⟩
      refine ⟨row, hrow, haccount.of_ledger ?_⟩
      rw [hxy]
      rfl
  · exact hold x (List.mem_append_right _ hx) hflag

theorem pred_toNat {a : UInt32} (h : 0 < a) : (a - 1).toNat + 1 = a.toNat := by
  have hpos : 0 < a.toNat := UInt32.lt_iff_toNat_lt.mp h
  have hle : (1 : UInt32) ≤ a := UInt32.le_iff_toNat_le.mpr hpos
  rw [UInt32.toNat_sub_of_le a 1 hle]
  exact Nat.sub_add_cancel hpos

-- A job that passes the check has time left, and a tick of it goes by.
theorem Books.check {rows : List TaskRow} {executed issued : List Tick} {now : ℕ} {b : Board}
    {cfg : Config} (h : Books rows executed issued now b)
    (hpolicy : cfg.flagKill = true ∨ cfg.flagNokill = true) :
    Books rows executed issued (now + 1) (b.check cfg) := by
  have hqueue : ∀ q : List TaskStruct, (∀ x ∈ q, x ∈ b.ready ++ b.blocked) →
      ∀ x ∈ handleDeadlineQueue cfg q, x.flagged = false →
        ∃ row ∈ rows, Account row executed issued (now + 1) x := by
    intro q hq x hx hflag
    obtain ⟨y, hy, rfl⟩ := List.mem_map.mp hx
    rw [handleDeadline_flagged] at hflag
    obtain ⟨hyflag, hpass⟩ := Bool.or_eq_false_iff.mp hflag
    obtain ⟨row, hrow, haccount⟩ := h y (hq y hy) hyflag
    have hnone : deadlineFlag cfg q y = none := by simpa using hpass
    have hmissed : missed y = false := by
      rw [Bool.eq_false_iff]
      intro hmissed
      rw [deadlineFlag] at hnone
      split at hnone
      · rename_i hkill
        rw [if_pos (List.any_eq_true.mpr ⟨y, hy, by simp [hmissed]⟩)] at hnone
        cases hnone
      · rename_i hkill
        have hnokill : cfg.flagNokill = true := hpolicy.resolve_left hkill
        rw [if_pos (by simp [hnokill, hmissed])] at hnone
        cases hnone
    have hsame : handleDeadline cfg q y = y := by rw [handleDeadline, hnone]
    have htime : 0 < y.localStats.tRemainingD := by
      have hleft := haccount.left
      simp only [missed, hleft, decide_true, Bool.and_true, decide_eq_false_iff_not, ge_iff_le,
        UInt32.not_le] at hmissed
      exact hmissed
    rw [hsame]
    refine ⟨row, hrow, haccount.name, haccount.left, haccount.spent, ?_⟩
    obtain ⟨i, hi, hwindow⟩ := haccount.window
    refine ⟨i, hi, ?_⟩
    have hdec := pred_toNat htime
    simp only [decrementDeadline]
    omega
  intro x hx
  rcases List.mem_append.mp hx with hx | hx
  · exact hqueue b.ready (fun y hy => List.mem_append_left _ hy) x hx
  · exact hqueue b.blocked (fun y hy => List.mem_append_right _ hy) x hx

theorem Books.work {rows : List TaskRow} {ts issued : List Tick} {t : Tick} {now : ℕ} {b : Board}
    {j : TaskStruct} (h : Books rows ts issued now b) (cfg : Config) (tick : UInt32)
    (hwf : WellFormed b) (hroster : Roster b) (hlive : AllLive b) (hj : j ∈ b.ready)
    (hexecutes : t.executes = some j.id) (hstart : cfg.tStart ≤ tick) :
    Books rows (ts ++ [t]) issued now (b.update j.addr (Simulator.work cfg tick)) := by
  have hother : ∀ x ∈ b.ready ++ b.blocked, x.id ≠ j.id →
      ∃ row ∈ rows, Account row (ts ++ [t]) issued now x := by
    intro x hx hne
    obtain ⟨row, hrow, haccount⟩ := h x hx (hlive x hx)
    refine ⟨row, hrow, haccount.name, haccount.left, ?_, haccount.window⟩
    have hnot : t.executes ≠ some x.id := by
      rw [hexecutes]
      exact fun heq => hne (Option.some_inj.mp heq).symm
    rw [executions_snoc, if_neg hnot]
    exact haccount.spent
  intro x hx hflag
  rcases List.mem_append.mp hx with hx | hx
  · obtain ⟨y, hy, rfl⟩ := List.mem_map.mp hx
    rcases eq_or_ne y.addr j.addr with heq | hne
    · obtain rfl := hwf.ready_inj hy hj heq
      have hsame : updateAt y.addr (Simulator.work cfg tick) y = Simulator.work cfg tick y := if_pos rfl
      rw [hsame] at hflag ⊢
      rw [work_flagged] at hflag
      have hfin := (Bool.or_eq_false_iff.mp hflag).2
      have hstays : removeTaskIfFinishedExecution y = y := if_neg (Bool.eq_false_iff.mp hfin)
      have hwork : Simulator.work cfg tick y = spendTick y := by
        rw [Simulator.work, if_pos hstart, hstays]
      obtain ⟨row, hrow, haccount⟩ := h y (List.mem_append_left _ hy) (hlive.ready y hy)
      have hnotkilled : y.taskState ≠ .killed := by
        intro hkilled
        have hflagged := hlive.ready y hy
        rw [TaskStruct.flagged, hkilled] at hflagged
        cases hflagged
      have hleft : 0 < y.tRemainingE - 1 := by
        simp only [finishing, hnotkilled, ne_eq, not_false_eq_true, decide_true, Bool.and_true,
          decide_eq_false_iff_not, UInt32.not_le] at hfin
        exact hfin
      have hdec := pred_toNat haccount.left
      rw [hwork]
      refine ⟨row, hrow, haccount.name, hleft, ?_, haccount.window⟩
      have hspent := haccount.spent
      have hcount : executions (ts ++ [t]) y.id = executions ts y.id + 1 := by
        rw [executions_snoc, if_pos hexecutes]
      have hid : (spendTick y).id = y.id := rfl
      rw [hid, hcount]
      simp only [spendTick]
      omega
    · have hsame : updateAt j.addr (Simulator.work cfg tick) y = y := if_neg hne
      rw [hsame]
      refine hother y (List.mem_append_left _ hy) ?_
      exact fun heq => hne (congrArg TaskStruct.addr (hroster.ready_unique hy hj heq))
  · have hblocked : x ∈ b.blocked := by
      have hsame := hwf.blocked_update hj (Simulator.work cfg tick)
      simp only [Board.update] at hx
      rwa [hsame] at hx
    refine hother x (List.mem_append_right _ hblocked) ?_
    exact fun heq => hroster.separate hj hblocked (hlive.blocked x hblocked) heq.symm

theorem waiting_tasks {b b' : Board} (hrounds : Relation.ReflTransGen Waiting b b') :
    b'.tasks = b.tasks := by
  induction hrounds with
  | refl => rfl
  | tail _ hstep ih =>
    obtain ⟨t, t', hwaits⟩ := hstep
    exact hwaits.tasks.trans ih

theorem resuming_tasks {names : List String} {b b' : Board} (hres : Resuming names b b') :
    b'.tasks = b.tasks := by
  induction hres with
  | nil _ => rfl
  | skip _ ih => exact ih
  | cons hstep _ ih =>
    obtain ⟨picked, _, _, rfl⟩ := hstep
    exact ih

theorem Ran.tasks {cfg : Config} {t : Tick} (h : Ran cfg t) :
    t.finished.board.tasks = t.dispatched.chosen.board.tasks := by
  cases h with
  | idle _ _ _ hpicked _ hfinished => rw [hfinished, hpicked]
  | running j j' n' _ _ hruns hexecuted hreleases =>
    rw [hreleases.tasks, hexecuted]
    exact hruns.tasks

theorem Templates.subset {rows : List TaskRow} {b b' : Board} (h : Templates rows b)
    (hsub : b'.tasks ⊆ b.tasks) : Templates rows b' :=
  fun x hx => h x (hsub hx)

theorem Templates.release {rows : List TaskRow} {b : Board} (h : Templates rows b) (tick : UInt32)
    (fresh : ℕ) : Templates rows (b.release tick fresh) := by
  intro x hx
  obtain ⟨y, hy, rfl⟩ := List.mem_map.mp hx
  obtain ⟨row, hrow, htemplate⟩ := h y hy
  refine ⟨row, hrow, ?_⟩
  rw [bump]
  split
  · exact htemplate
  · exact htemplate

theorem Templates.tick {cfg : Config} {rows : List TaskRow} {t : Tick}
    (h : Templates rows t.start.board) (hphases : TickPhases cfg t) :
    Templates rows t.final.board := by
  obtain ⟨fresh, _, hboard⟩ := hphases.released
  have hreleased := h.release t.start.tick fresh
  rw [← hboard] at hreleased
  have hchecked : t.checked.board.tasks = t.released.board.tasks := by
    rw [hphases.checked]
    rfl
  refine hreleased.subset ?_
  rw [← hchecked, resuming_tasks hphases.resumed, hphases.ran.tasks, waiting_tasks hphases.rounds]
  exact hphases.deleted.tasks.subset

def Gone (names : List String) (b : Board) : Prop :=
  ∀ name ∈ names, ∀ x ∈ b.structs, x.name ≠ name

theorem Gone.all_stems {names : List String} {b b' : Board} (h : Gone names b)
    (hstems : Relation.ReflTransGen Stems b b') : Gone names b' := by
  induction hstems with
  | refl => exact h
  | tail _ hstep ih =>
    intro name hname x' hx'
    obtain ⟨x, hx, hsame, _⟩ := hstep.origin x' hx'
    rw [hsame]
    exact ih name hname x hx

theorem kills_gone {cfg : Config} {issued ended : List (String × ℕ)} {t : Tick}
    (hphases : TickPhases cfg t) (hcensus : TickCensus cfg issued ended t)
    (hreach : KillsReachAll t.checked) : Gone t.kills t.deleted.board := by
  intro name hname x hx
  obtain ⟨y, hy, rfl⟩ := List.mem_map.mp hname
  obtain ⟨hymem, hkilled⟩ := List.mem_filter.mp hy
  have hykilled : y.taskState = .killed := of_decide_eq_true hkilled
  have hjobs : y.core ∈ t.checked.board.jobs := by
    rw [Board.jobs, Sim.board, ← List.map_append]
    exact List.mem_map_of_mem hymem
  have hnames : (t.checked.board.tasks.map TaskStruct.name).Nodup := by
    rw [hphases.checked]
    exact hcensus.released.roster.names
  have hqueue : ∀ q : List TaskStruct, (∀ z ∈ q, z ∈ t.checked.readyQueue ++ t.checked.blockedQueue) →
      ∀ z ∈ q.map TaskStruct.core, Visited z x → x.flagged = false → x.name ≠ y.name := by
    intro q hq z hz hvis hflag heq
    obtain ⟨w, hw, rfl⟩ := List.mem_map.mp hz
    have hwname : w.name = y.name := (congrArg Prod.fst hvis.id).symm.trans heq
    have hwflag := hreach y hymem hykilled w (hq w hw) hwname
    rw [hvis.flagged, TaskStruct.core_flagged, hwflag] at hflag
    cases hflag
  rcases mem_structs.mp hx with hx | hx | hx
  · exact hphases.deleted.killed hnames y.core hjobs hykilled x hx
  · obtain ⟨z, hz, hvis⟩ := hphases.deleted.ready.origin x hx
    exact hqueue t.checked.readyQueue (fun w hw => List.mem_append_left _ hw) z hz hvis
      (hcensus.deleted.live.ready x hx)
  · obtain ⟨z, hz, hvis⟩ := hphases.deleted.blocked.origin x hx
    exact hqueue t.checked.blockedQueue (fun w hw => List.mem_append_right _ hw) z hz hvis
      (hcensus.deleted.live.blocked x hx)

-- The state before a tick of a run that counts executions and deadlines.
structure Budgeted (cfg : Config) (rows : List TaskRow) (ts : List Tick) (σ : Sim) : Prop where
  tracked : Tracked cfg ts σ
  templates : Templates rows σ.board
  books : Books rows ts ts ts.length σ.board
  known : ∀ id, executions ts id ≠ 0 → id ∈ releasedJobs ts
  once : ∀ id i i', ReleasedAt ts id i → ReleasedAt ts id i' → i' = i
  budget : WithinBudget rows ts
  window : WithinWindow rows ts

section Step

variable {cfg : Config} {rows : List TaskRow} {ts : List Tick} {t : Tick}

theorem once_snoc (hfresh : ∀ id ∈ t.releases, id ∉ releasedJobs ts)
    (honce : ∀ id i i', ReleasedAt ts id i → ReleasedAt ts id i' → i' = i) :
    ∀ id i i', ReleasedAt (ts ++ [t]) id i → ReleasedAt (ts ++ [t]) id i' → i' = i := by
  intro id i i' h h'
  rcases releasedAt_snoc.mp h with h | ⟨rfl, hnew⟩
  · rcases releasedAt_snoc.mp h' with h' | ⟨rfl, hnew⟩
    · exact honce id i i' h h'
    · exact absurd h.lt.2 (hfresh id hnew)
  · rcases releasedAt_snoc.mp h' with h' | ⟨rfl, _⟩
    · exact absurd h'.lt.2 (hfresh id hnew)
    · rfl

theorem known_snoc {issued : List (String × ℕ)} (hsub : releasedJobs ts ⊆ issued)
    (hexecutes : ∀ id, t.executes = some id → id ∈ issued)
    (hknown : ∀ id, executions ts id ≠ 0 → id ∈ releasedJobs ts) :
    ∀ id, executions (ts ++ [t]) id ≠ 0 → id ∈ issued := by
  intro id hne
  rw [executions_snoc] at hne
  split at hne
  · exact hexecutes id ‹_›
  · exact hsub (hknown id hne)

-- The job that executes has an account with time and budget left.
theorem withinBudget_snoc (hnames : (rows.map TaskRow.name).Nodup) (h : WithinBudget rows ts)
    (hjob : ∀ id, t.executes = some id → ∃ row ∈ rows, id.1 = row.name ∧
      executions ts id < row.tE.toNat) : WithinBudget rows (ts ++ [t]) := by
  intro row hrow num
  rw [executions_snoc]
  split
  · obtain ⟨row', hrow', hname, hlt⟩ := hjob _ ‹_›
    obtain rfl : row = row' := List.inj_on_of_nodup_map hnames hrow hrow' hname
    exact hlt
  · exact h row hrow num

theorem withinWindow_snoc (hnames : (rows.map TaskRow.name).Nodup) (h : WithinWindow rows ts)
    (honce : ∀ id i i', ReleasedAt (ts ++ [t]) id i → ReleasedAt (ts ++ [t]) id i' → i' = i)
    (hjob : ∀ id, t.executes = some id → ∃ row ∈ rows, id.1 = row.name ∧
      ∃ i, ReleasedAt (ts ++ [t]) id i ∧ ts.length < i + row.tD.toNat) :
    WithinWindow rows (ts ++ [t]) := by
  intro row hrow num k hk
  rcases executedAt_snoc.mp hk with hk | ⟨rfl, hexecutes⟩
  · obtain ⟨i, hi, _, hle, hlt⟩ := h row hrow num k hk
    have hi' : ReleasedAt (ts ++ [t]) (row.name, num) i := releasedAt_snoc.mpr (Or.inl hi)
    exact ⟨i, hi', fun i' h' => honce _ i i' hi' h', hle, hlt⟩
  · obtain ⟨row', hrow', hname, i, hi, hlt⟩ := hjob _ hexecutes
    obtain rfl : row = row' := List.inj_on_of_nodup_map hnames hrow hrow' hname
    have hle : i < (ts ++ [t]).length := hi.lt.1
    rw [List.length_append, List.length_singleton] at hle
    exact ⟨i, hi, fun i' h' => honce _ i i' hi h', Nat.le_of_lt_succ hle, hlt⟩

theorem killedForGood_snoc (h : KilledForGood ts)
    (hgone : ∀ u ∈ ts ++ [t], Gone u.kills t.deleted.board)
    (hexecutes : ∀ u ∈ ts ++ [t], ∀ name ∈ u.kills, ∀ id, t.executes = some id → id.1 ≠ name) :
    KilledForGood (ts ++ [t]) := by
  intro i k hik u hu v hv name hname
  rcases getElem?_snoc.mp hv with hv | ⟨rfl, rfl⟩
  · have hk : k < ts.length := (List.getElem?_eq_some_iff.mp hv).1
    rcases getElem?_snoc.mp hu with hu | ⟨rfl, _⟩
    · exact h i k hik u hu v hv name hname
    · omega
  · have hmem : u ∈ ts ++ [v] := List.mem_of_getElem? hu
    refine ⟨?_, fun id hid => hexecutes u hmem name hname id hid⟩
    intro x hx
    have hcore : x.core ∈ v.deleted.board.structs := by
      rcases List.mem_append.mp hx with hx | hx
      · exact WellFormed.mem_ready (mem_board_ready hx)
      · exact WellFormed.mem_blocked (List.mem_map_of_mem hx)
    exact hgone u hmem name hname x.core hcore

end Step

section Tick

variable {cfg : Config} {rows : List TaskRow} {ts issued : List Tick} {t : Tick} {now : ℕ}
  {ids ended : List (String × ℕ)}

theorem Books.finished (h : Books rows ts issued now t.dispatched.chosen.board)
    (hran : Ran cfg t) (hcensus : TickCensus cfg ids ended t) (hstart : cfg.tStart = 0) :
    Books rows (ts ++ [t]) issued now t.finished.board := by
  cases hran with
  | idle _ hnext _ hpicked _ hfinished =>
    have hnone : ∀ id, t.executes ≠ some id := by
      intro id hid
      rw [Tick.executes, hnext] at hid
      cases hid
    rw [hfinished, hpicked]
    intro x hx hflag
    obtain ⟨row, hrow, haccount⟩ := h x hx hflag
    refine ⟨row, hrow, haccount.name, haccount.left, ?_, haccount.window⟩
    rw [executions_snoc, if_neg (hnone x.id)]
    exact haccount.spent
  | running j j' n' _ hnext hruns hexecuted hreleases =>
    have hpicked := h.carries (Carries.of_runs hruns)
    have hexecutes : t.executes = some j'.core.id := by
      rw [Tick.executes, hnext]
      rfl
    have hwork := hpicked.work cfg t.start.tick hcensus.picked.wf
      hcensus.picked.roster hcensus.picked.live hruns.mem_picked hexecutes
      (by rw [hstart]; exact UInt32.zero_le)
    have haddr : j'.core.addr = j.addr := hruns.addr
    rw [haddr, ← hexecuted] at hwork
    exact hwork.carries (Carries.of_releases hreleases)

theorem Books.executing (h : Books rows ts issued now t.dispatched.chosen.board)
    (hran : Ran cfg t) (hcensus : TickCensus cfg ids ended t) :
    ∀ id, t.executes = some id → id ∈ ids ++ t.releases ∧
      ∃ row ∈ rows, id.1 = row.name ∧ executions ts id < row.tE.toNat ∧
        ∃ i, ReleasedAt issued id i ∧ now ≤ i + row.tD.toNat := by
  intro id hid
  cases hran with
  | idle _ hnext _ _ _ _ =>
    rw [Tick.executes, hnext] at hid
    cases hid
  | running j j' n' _ hnext hruns _ _ =>
    have hsome : some j'.id = some id := by rw [← hid, Tick.executes, hnext]; rfl
    obtain rfl := Option.some_inj.mp hsome
    have hmem := hruns.mem_picked
    have hlive := hcensus.picked.live.ready j'.core hmem
    obtain ⟨row, hrow, haccount⟩ := h.carries (Carries.of_runs hruns) j'.core
      (List.mem_append_left _ hmem) hlive
    refine ⟨?_, row, hrow, haccount.name, ?_, ?_⟩
    · refine hcensus.picked.fate.known _ (List.mem_append_left _ ?_)
      exact List.mem_map.mpr ⟨j'.core, hmem, rfl⟩
    · have hspent := haccount.spent
      have hleft : 0 < j'.core.tRemainingE.toNat := UInt32.lt_iff_toNat_lt.mp haccount.left
      rw [TaskStruct.core_id] at hspent
      omega
    · obtain ⟨i, hi, hwindow⟩ := haccount.window
      exact ⟨i, hi, by omega⟩

end Tick

theorem Budgeted.step {cfg : Config} {rows : List TaskRow} {ts : List Tick} {σ σ' : Sim} {t : Tick}
    (hstart : cfg.tStart = 0) (hpolicy : cfg.flagKill = true ∨ cfg.flagNokill = true)
    (hrows : ∀ row ∈ rows, 0 < row.tE) (hnames : (rows.map TaskRow.name).Nodup)
    (h : Budgeted cfg rows ts σ) (hclean : CleanSweep t.checked) (hstep : Step cfg σ t σ') :
    Budgeted cfg rows (ts ++ [t]) σ' := by
  obtain ⟨rfl, rfl, hphases, hcensus, hnext⟩ := h.tracked.step hclean hstep
  have hpending : (t.start.board.tasks.filter (due t.start.tick)).map TaskStruct.id = t.releases :=
    hphases.pending.symm
  have hfresh := new_fresh t.start.tick h.tracked.census.fate
  have hnew : ∀ id ∈ (t.start.board.tasks.filter (due t.start.tick)).map TaskStruct.id,
      executions ts id = 0 ∧ id ∈ t.releases := by
    intro id hid
    refine ⟨?_, by rwa [hpending] at hid⟩
    by_contra hne
    exact hfresh id hid (h.known id hne)
  rw [hpending] at hfresh
  obtain ⟨fresh, _, hboard⟩ := hphases.released
  have hreleased := h.books.release h.templates hnew hrows fresh
  rw [← hboard] at hreleased
  have hchecked := hreleased.check hpolicy
  rw [← hphases.checked] at hchecked
  have hdeleted := hchecked.carries (Carries.of_deleted hphases.deleted)
  have hchosen := hdeleted.carries (Carries.of_waiting hcensus.deleted hphases.rounds)
  have hfinished := hchosen.finished hphases.ran hcensus hstart
  have hstale : Stale (t.finished.resources.map GlobalTaskResource.name) t.finished.board := by
    intro y hy hflag
    rw [hcensus.waiting y hy] at hflag
    cases hflag
  have hfinal := hfinished.carries
    (Carries.of_resuming hcensus.finished hstale hcensus.finished.wf.rowNames hphases.resumed)
  have hexecuting := hchosen.executing hphases.ran hcensus
  have honce := once_snoc hfresh h.once
  refine ⟨hnext, h.templates.tick hphases, ?_, ?_, honce, ?_, ?_⟩
  · rw [List.length_append, List.length_singleton]
    exact hfinal
  · rw [releasedJobs_snoc]
    exact known_snoc (List.subset_append_left _ _) (fun id hid => (hexecuting id hid).1) h.known
  · refine withinBudget_snoc hnames h.budget ?_
    intro id hid
    obtain ⟨_, row, hrow, hname, hlt, _⟩ := hexecuting id hid
    exact ⟨row, hrow, hname, hlt⟩
  · refine withinWindow_snoc hnames h.window honce ?_
    intro id hid
    obtain ⟨_, row, hrow, hname, _, i, hi, hle⟩ := hexecuting id hid
    exact ⟨row, hrow, hname, i, hi, hle⟩

theorem initial_budgeted {cfg : Config} {rows : List TaskRow}
    (hnames : (rows.map TaskRow.name).Nodup) : Budgeted cfg rows [] (initial rows) := by
  refine ⟨⟨initial_sound rows, initial_census hnames⟩, ?_, ?_, ?_, ?_, ?_, ?_⟩
  · intro x hx
    obtain ⟨⟨row, i⟩, hrow, rfl⟩ := List.mem_map.mp hx
    exact ⟨row, List.fst_mem_of_mem_zipIdx hrow, rfl, rfl, rfl⟩
  · exact fun x hx => absurd hx List.not_mem_nil
  · exact fun id hne => absurd rfl hne
  · exact fun id i i' h => absurd h.lt.1 (Nat.not_lt_zero i)
  · exact fun row _ num => Nat.zero_le _
  · rintro row _ num k ⟨t, ht, _⟩
    cases ht

theorem executes_gone {cfg : Config} {names : List String} {t : Tick} (hran : Ran cfg t)
    (h : Gone names t.dispatched.chosen.board) :
    ∀ name ∈ names, ∀ id, t.executes = some id → id.1 ≠ name := by
  intro name hname id hid
  cases hran with
  | idle _ hnext _ _ _ _ =>
    rw [Tick.executes, hnext] at hid
    cases hid
  | running j j' n' _ hnext hruns _ _ =>
    have hsome : some j'.id = some id := by rw [← hid, Tick.executes, hnext]; rfl
    obtain rfl := Option.some_inj.mp hsome
    have hsame : j'.name = j.name := (congrArg TaskStruct.name hruns.job :)
    have hj := h name hname j.core (WellFormed.mem_ready hruns.mem)
    intro heq
    exact hj (hsame.symm.trans heq)

def oneMisses : List TaskRow :=
  [⟨"C", 0, 20, 5, 10, []⟩, ⟨"A", 0, 20, 3, 2, []⟩, ⟨"B", 0, 5, 2, 4, []⟩]

def twoMiss : List TaskRow :=
  [⟨"C", 0, 20, 5, 10, []⟩, ⟨"A", 0, 20, 3, 2, []⟩, ⟨"B", 0, 20, 3, 2, []⟩]

end Simulator
