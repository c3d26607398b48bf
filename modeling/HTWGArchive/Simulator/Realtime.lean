import HTWGArchive.Library.PeriodicDemand
import HTWGArchive.Simulator.Budget

namespace Simulator

open PeriodicDemand

def minimalValue (a b : UInt32) : UInt32 :=
  if a.toInt32 > b.toInt32 then b else a

-- `remove_node_from_list_noprev` writes the head pointer while it looks for the predecessor.
def removeTaskNoprev (addr : ℕ) : Option TaskStruct → List TaskStruct → List TaskStruct
  | head, [] => head.toList
  | head, t :: ts =>
    if t.addr = addr then head.toList ++ ts else removeTaskNoprev addr (some t) ts

def longestSection (name : String) (longest : UInt32) (task : TaskStruct) : UInt32 :=
  task.resources.foldl (fun m e => if name = e.name && m < e.tFor then e.tFor else m) longest

def blockedByTasks (lower : List TaskStruct) (shared : List LocalTaskResource) : UInt32 :=
  lower.foldl (fun sum task =>
    sum + shared.foldl (fun longest g => longestSection g.name longest task) 0) 0

def blockedByResources (lower : List TaskStruct) (shared : List LocalTaskResource) : UInt32 :=
  shared.foldl (fun sum g => sum + lower.foldl (longestSection g.name) 0) 0

-- The rounds of `blocking_time`: the job of the highest priority left in the list comes next.
def blockingRounds (cfg : Config) (all : List TaskStruct) :
    ℕ → List TaskStruct → List (String × UInt32)
  | 0, _ => []
  | fuel + 1, tasks =>
    let ranked := prioritizeTasks { cfg with scheduler := .dm } [] tasks
    let rankedAll := prioritizeTasks { cfg with scheduler := .dm } [] all
    match pickNextTask ranked with
    | none => []
    | some higher =>
      let above := rankedAll.filter (fun t => t.taskPriority ≥ higher.taskPriority)
      let lower := ranked.filter (fun t => t.taskPriority < higher.taskPriority)
      let shared := above.flatMap TaskStruct.resources
      (higher.name, minimalValue (blockedByResources lower shared) (blockedByTasks lower shared)) ::
        blockingRounds cfg all fuel (removeTaskNoprev higher.addr none ranked)

def blockingTime (cfg : Config) (tasks : List TaskStruct) : List (String × UInt32) :=
  blockingRounds cfg tasks tasks.length tasks

-- `stale` is what `t_block_i` holds when the loop that sets it finds no entry of the task.
def blockedFor (stale : ℕ → UInt32) (blocking : List (String × UInt32)) (task : TaskStruct) : UInt32 :=
  ((blocking.find? (fun b => b.1 = task.name)).map Prod.snd).getD (stale task.addr)

def u (stale : ℕ → UInt32) (blocking : List (String × UInt32)) (head : List TaskStruct)
    (task : TaskStruct) (n : ℕ) : Int32 :=
  (((head.take n).filter (fun t => t.addr ≠ task.addr)).foldl
    (fun sum t => sum + (t.tE + minimalValue t.tD t.tPer))
    (blockedFor stale blocking task / minimalValue task.tD task.tPer)).toInt32

-- `1 / n` is a division of integers.
def realtimeHinreichendDm (stale : ℕ → UInt32) (blocking : List (String × UInt32))
    (tasks : List TaskStruct) : Option TaskStruct :=
  ((tasks.zipIdx 1).find? (fun e =>
    (u stale blocking tasks e.1 e.2).toInt > (e.2 : ℤ) * (2 ^ (1 / e.2) - 1))).map Prod.fst

def realtimeHinreichendEdf (stale : ℕ → UInt32) (blocking : List (String × UInt32))
    (tasks : List TaskStruct) : Option TaskStruct :=
  tasks.find? (fun task => u stale blocking tasks task tasks.length > 1)

def realtimeHinreichend (cfg : Config) (stale : ℕ → UInt32) (rows : List TaskRow) :
    Option TaskStruct :=
  let untouched := copyList 0 (initial rows).tasks
  let blocking := blockingTime cfg untouched
  match cfg.scheduler with
  | .dm => realtimeHinreichendDm stale blocking untouched
  | .edf => realtimeHinreichendEdf stale blocking untouched

def WithoutResources (rows : List TaskRow) : Prop :=
  ∀ row ∈ rows, row.resources = [] ∧ 1 ≤ row.tPer ∧ 1 ≤ row.tE ∧ 1 ≤ row.tD

instance (rows : List TaskRow) : Decidable (WithoutResources rows) :=
  inferInstanceAs (Decidable (∀ row ∈ rows, _))

def MissFree (t : Tick) : Prop :=
  ∀ x ∈ t.released.readyQueue ++ t.released.blockedQueue, missed x = false

instance (t : Tick) : Decidable (MissFree t) :=
  inferInstanceAs (Decidable (∀ x ∈ _, _))

def TaskRow.stream (row : TaskRow) : Stream :=
  ⟨row.tPh.toNat, row.tPer.toNat, row.tE.toNat⟩

-- Every task leaves time for one job of each, counted from the tick on that output starts with.
structure Underloaded (cfg : Config) (rows : List TaskRow) : Prop where
  stop : cfg.tStop < 4294967295
  start : ∀ row ∈ rows, cfg.tStart ≤ row.tPh
  range : ∀ row ∈ rows, row.tPh.toNat + row.tPer.toNat < 2 ^ 32
  period : ∀ row ∈ rows, workload (rows.map TaskRow.stream) ≤ row.tPer.toNat
  deadline : ∀ row ∈ rows, workload (rows.map TaskRow.stream) ≤ row.tD.toNat

theorem due_iff {tick : UInt32} {t : TaskStruct} (hrange : t.tPh.toNat + t.tPer.toNat < 2 ^ 32)
    (hpos : 0 < t.tPer.toNat) :
    due tick t = (Stream.mk t.tPh.toNat t.tPer.toNat t.tRemainingE.toNat).releasesAt tick.toNat := by
  have hsum : (t.tPh + t.tPer).toNat = t.tPh.toNat + t.tPer.toNat := by
    rw [UInt32.toNat_add, Nat.mod_eq_of_lt hrange]
  rw [Bool.eq_iff_iff]
  simp only [due, Stream.releasesAt, Bool.or_eq_true, Bool.and_eq_true, decide_eq_true_eq,
    UInt32.le_iff_toNat_le, UInt32.lt_iff_toNat_lt, ← UInt32.toNat_inj, hsum, UInt32.toNat_mod,
    UInt32.toNat_zero]
  constructor
  · rintro (⟨hle, hmod⟩ | ⟨hlt, heq⟩)
    · have hph : t.tPh ≤ tick := by rw [UInt32.le_iff_toNat_le]; omega
      rw [UInt32.toNat_sub_of_le _ _ hph] at hmod
      exact ⟨by omega, hmod⟩
    · rw [heq, Nat.sub_self, Nat.zero_mod]
      exact ⟨le_refl _, rfl⟩
  · rintro ⟨hle, hmod⟩
    have hph : t.tPh ≤ tick := by rw [UInt32.le_iff_toNat_le]; exact hle
    rw [UInt32.toNat_sub_of_le _ _ hph]
    rcases Nat.lt_or_ge tick.toNat (t.tPh.toNat + t.tPer.toNat) with hlt | hge
    · right
      have hsmall : tick.toNat - t.tPh.toNat < t.tPer.toNat := by omega
      rw [Nat.mod_eq_of_lt hsmall] at hmod
      exact ⟨hlt, by omega⟩
    · exact Or.inl ⟨hge, hmod⟩

def TaskStruct.stream (t : TaskStruct) : Stream :=
  ⟨t.tPh.toNat, t.tPer.toNat, t.tRemainingE.toNat⟩

def backlog (q : List TaskStruct) : ℕ :=
  ((q.filter unflagged).map (fun x => x.tRemainingE.toNat)).sum

def NotTwoFlagged (x y : TaskStruct) : Prop :=
  ¬(x.flagged = true ∧ y.flagged = true)

-- The jobs of a busy period: `age` ticks of it have gone by, `used` of them served a job, and the
-- jobs released in it asked for `asked` ticks.
structure Serving (rows : List TaskRow) (age used asked : ℕ) (b : Board) : Prop where
  tasks : (b.tasks.map TaskStruct.stream).Sublist (rows.map TaskRow.stream)
  templates : ∀ x ∈ b.tasks, x.resources = [] ∧ x.flagged = false ∧ ∃ row ∈ rows,
    x.stream = row.stream ∧ x.localStats.tRemainingD = row.tD
  plain : ∀ x ∈ b.ready, x.resources = []
  blocked : b.blocked = []
  finished : b.ready.Pairwise NotTwoFlagged
  spent : ∀ x ∈ b.ready, x.flagged = true → x.tRemainingE = 0
  live : ∀ x ∈ b.ready, x.flagged = false → 0 < x.tRemainingE ∧
    workload (rows.map TaskRow.stream) ≤ x.localStats.tRemainingD.toNat + age
  load : used + backlog b.ready ≤ asked
  fits : asked ≤ workload (rows.map TaskRow.stream)

theorem backlog_append (q q' : List TaskStruct) : backlog (q ++ q') = backlog q + backlog q' := by
  simp [backlog]

theorem backlog_perm {q q' : List TaskStruct} (h : q.Perm q') : backlog q = backlog q' :=
  ((h.filter _).map _).sum_eq

theorem backlog_cons_live {x : TaskStruct} {q : List TaskStruct} (hx : x.flagged = false) :
    backlog (x :: q) = x.tRemainingE.toNat + backlog q := by
  have hkeep : unflagged x = true := by rw [unflagged, hx]; rfl
  simp [backlog, hkeep]

theorem backlog_cons_flagged {x : TaskStruct} {q : List TaskStruct} (hx : x.flagged = true) :
    backlog (x :: q) = backlog q := by
  have hdrop : unflagged x = false := by rw [unflagged, hx]; rfl
  simp [backlog, hdrop]

theorem le_backlog {x : TaskStruct} {q : List TaskStruct} (hx : x ∈ q) (hlive : x.flagged = false) :
    x.tRemainingE.toNat ≤ backlog q := by
  obtain ⟨front, back, rfl⟩ := List.append_of_mem hx
  rw [backlog_append, backlog_cons_live hlive]
  omega

theorem backlog_copyList (q : List TaskStruct) (a : ℕ) : backlog (copyList a q) = backlog q := by
  induction q generalizing a with
  | nil => rfl
  | cons x q ih =>
    rw [copyList]
    cases hx : x.flagged with
    | true =>
      rw [backlog_cons_flagged hx, backlog_cons_flagged (by exact hx), ih]
    | false =>
      rw [backlog_cons_live hx, backlog_cons_live (by exact hx), ih]
      rfl

theorem bump_stream (tick : UInt32) (x : TaskStruct) : (bump tick x).stream = x.stream := by
  rw [bump]
  split <;> rfl

namespace Serving

variable {rows : List TaskRow} {age used asked : ℕ} {b b' : Board}

theorem time_left (h : Serving rows age used asked b) (hage : age ≤ used) {x : TaskStruct}
    (hx : x ∈ b.ready) (hlive : x.flagged = false) : 0 < x.localStats.tRemainingD := by
  obtain ⟨hpos, hdeadline⟩ := h.live x hx hlive
  have hle := le_backlog hx hlive
  have hload := h.load
  have hfits := h.fits
  rw [UInt32.lt_iff_toNat_lt] at hpos ⊢
  rw [UInt32.toNat_zero] at hpos ⊢
  omega

theorem missed_eq (h : Serving rows age used asked b) (hage : age ≤ used) {x : TaskStruct}
    (hx : x ∈ b.ready) : missed x = false := by
  cases hflag : x.flagged with
  | true => simp [missed, h.spent x hx hflag]
  | false =>
    have htime := h.time_left hage hx hflag
    simp only [missed, ge_iff_le, Bool.and_eq_false_iff, decide_eq_false_iff_not, UInt32.not_le]
    exact Or.inl htime

theorem restart (h : Serving rows age used asked b) (hidle : backlog b.ready = 0) :
    Serving rows 0 0 0 b := by
  refine ⟨h.tasks, h.templates, h.plain, h.blocked, h.finished, h.spent, ?_, by omega, Nat.zero_le _⟩
  intro x hx hlive
  have hpos := (h.live x hx hlive).1
  have hle := le_backlog hx hlive
  rw [UInt32.lt_iff_toNat_lt, UInt32.toNat_zero] at hpos
  omega

theorem check (h : Serving rows age used asked b) (hage : age ≤ used) (cfg : Config) :
    Serving rows (age + 1) used asked (b.check cfg) := by
  have hready : (b.check cfg).ready = b.ready.map decrementDeadline := by
    apply List.map_congr_left
    intro x hx
    have hnone : deadlineFlag cfg b.ready x = none := by
      rw [deadlineFlag]
      split
      · rw [if_neg]
        intro hany
        obtain ⟨y, hy, hmissed⟩ := List.any_eq_true.mp hany
        rw [h.missed_eq hage hy, Bool.false_and] at hmissed
        cases hmissed
      · rw [h.missed_eq hage hx, Bool.and_false]
        rfl
    rw [handleDeadline, hnone]
  have hbacklog : backlog (b.check cfg).ready = backlog b.ready := by
    rw [hready, backlog, backlog, List.filter_map, List.map_map]
    rfl
  refine ⟨h.tasks, h.templates, ?_, ?_, ?_, ?_, ?_, ?_, h.fits⟩
  · intro x hx
    rw [hready] at hx
    obtain ⟨y, hy, rfl⟩ := List.mem_map.mp hx
    exact h.plain y hy
  · rw [Board.check, h.blocked]
    rfl
  · rw [hready]
    exact List.pairwise_map.mpr (h.finished.imp (fun hxy => hxy))
  · intro x hx hflag
    rw [hready] at hx
    obtain ⟨y, hy, rfl⟩ := List.mem_map.mp hx
    exact h.spent y hy hflag
  · intro x hx hlive
    rw [hready] at hx
    obtain ⟨y, hy, rfl⟩ := List.mem_map.mp hx
    obtain ⟨hpos, hdeadline⟩ := h.live y hy hlive
    have hdec := pred_toNat (h.time_left hage hy hlive)
    refine ⟨hpos, ?_⟩
    simp only [decrementDeadline]
    omega
  · rw [hbacklog]
    exact h.load

theorem deleted (h : Serving rows age used asked b) (hdel : Deleted b b') :
    Serving rows age used asked b' ∧ ∀ x ∈ b'.ready, x.flagged = false := by
  have hclean : SweepsClean TaskStruct.flagged b.ready :=
    sweepsClean_of_pairwise h.finished
  have hready := hdel.ready.clean hclean
  have hmem : ∀ x ∈ b'.ready, x ∈ b.ready ∧ x.flagged = false := by
    intro x hx
    rw [hready, List.mem_filter] at hx
    exact ⟨hx.1, by simpa using hx.2⟩
  have hbacklog : backlog b'.ready = backlog b.ready := by
    rw [hready, backlog, backlog, List.filter_filter]
    congr 2
    apply List.filter_congr
    intro x _
    rw [unflagged, Bool.and_self]
  refine ⟨⟨(hdel.tasks.map _).trans h.tasks, fun x hx => h.templates x (hdel.tasks.subset hx),
    fun x hx => h.plain x (hmem x hx).1, ?_, ?_, fun x hx => h.spent x (hmem x hx).1,
    fun x hx => h.live x (hmem x hx).1, ?_, h.fits⟩, fun x hx => (hmem x hx).2⟩
  · have hblocked := hdel.blocked.addrs
    rw [h.blocked] at hblocked
    exact List.map_eq_nil_iff.mp (List.sublist_nil.mp hblocked)
  · rw [hready]
    exact h.finished.sublist List.filter_sublist
  · rw [hbacklog]
    exact h.load

theorem release_asked (h : Serving rows age used asked b) (tick : UInt32)
    (hrange : ∀ row ∈ rows, row.tPh.toNat + row.tPer.toNat < 2 ^ 32)
    (hper : ∀ row ∈ rows, 0 < row.tPer.toNat) :
    backlog ((b.tasks.filter (due tick)).map TaskStruct.core) ≤
      released (rows.map TaskRow.stream) tick.toNat := by
  have hdue : ∀ x ∈ b.tasks, due tick x = x.stream.releasesAt tick.toNat := by
    intro x hx
    obtain ⟨_, _, row, hrow, hstream, _⟩ := h.templates x hx
    have hphase : x.tPh.toNat = row.tPh.toNat := congrArg Stream.phase hstream
    have hperiod : x.tPer.toNat = row.tPer.toNat := congrArg Stream.period hstream
    apply due_iff
    · rw [hphase, hperiod]
      exact hrange row hrow
    · rw [hperiod]
      exact hper row hrow
  have hcost : backlog ((b.tasks.filter (due tick)).map TaskStruct.core) =
      released (b.tasks.map TaskStruct.stream) tick.toNat := by
    rw [backlog, released, List.filter_map, List.filter_map, List.map_map, List.map_map,
      List.filter_filter, List.map_congr_left (g := Stream.cost ∘ TaskStruct.stream)]
    · congr 2
      apply List.filter_congr
      intro x hx
      have hlive := (h.templates x hx).2.1
      simp [unflagged, hlive, hdue x hx]
    · exact fun x _ => rfl
  rw [hcost]
  exact released_sublist h.tasks tick.toNat

theorem release_copies (h : Serving rows age used asked b) {tick : UInt32} {fresh : ℕ}
    {x : TaskStruct} (hx : x ∈ copyList fresh ((b.tasks.filter (due tick)).map TaskStruct.core)) :
    x.resources = [] ∧ x.flagged = false ∧ ∃ row ∈ rows,
      x.tRemainingE.toNat = row.tE.toNat ∧ x.localStats.tRemainingD = row.tD := by
  obtain ⟨z, hz, hxz⟩ := mem_copyList hx
  obtain ⟨y, hy, rfl⟩ := List.mem_map.mp hz
  obtain ⟨hres, hlive, row, hrow, hsame, htime⟩ := h.templates y (List.mem_of_mem_filter hy)
  rw [hxz]
  exact ⟨hres, hlive, row, hrow, congrArg Stream.cost hsame, htime⟩

theorem release_templates (h : Serving rows age used asked b) (tick : UInt32) (fresh : ℕ) :
    ∀ x ∈ (b.release tick fresh).tasks, x.resources = [] ∧ x.flagged = false ∧ ∃ row ∈ rows,
      x.stream = row.stream ∧ x.localStats.tRemainingD = row.tD := by
  intro x hx
  obtain ⟨y, hy, rfl⟩ := List.mem_map.mp hx
  obtain ⟨hres, hlive, htemplate⟩ := h.templates y hy
  rw [bump]
  split
  · exact ⟨hres, hlive, htemplate⟩
  · exact ⟨hres, hlive, htemplate⟩

theorem release_finished (h : Serving rows age used asked b) (tick : UInt32) (fresh : ℕ) :
    (b.release tick fresh).ready.Pairwise NotTwoFlagged := by
  refine List.pairwise_append.mpr ⟨h.finished, ?_, ?_⟩
  · apply List.pairwise_of_forall_mem_list
    intro x hx y _ hboth
    rw [(h.release_copies hx).2.1] at hboth
    cases hboth.1
  · intro x _ y hy hboth
    rw [(h.release_copies hy).2.1] at hboth
    cases hboth.2

theorem release (h : Serving rows age used asked b) (tick : UInt32) (fresh : ℕ)
    (hrows : WithoutResources rows)
    (hrange : ∀ row ∈ rows, row.tPh.toNat + row.tPer.toNat < 2 ^ 32)
    (hdeadline : ∀ row ∈ rows, workload (rows.map TaskRow.stream) ≤ row.tD.toNat)
    (hfits : asked + released (rows.map TaskRow.stream) tick.toNat ≤
      workload (rows.map TaskRow.stream)) :
    Serving rows age used (asked + released (rows.map TaskRow.stream) tick.toNat)
      (b.release tick fresh) := by
  have hper : ∀ row ∈ rows, 0 < row.tPer.toNat := by
    intro row hrow
    exact UInt32.le_iff_toNat_le.mp (hrows row hrow).2.1
  refine ⟨?_, h.release_templates tick fresh, ?_, h.blocked, h.release_finished tick fresh, ?_, ?_,
    ?_, hfits⟩
  · have hsame : (b.release tick fresh).tasks.map TaskStruct.stream =
        b.tasks.map TaskStruct.stream := by
      rw [Board.release, List.map_map]
      exact List.map_congr_left (fun x _ => bump_stream tick x)
    rw [hsame]
    exact h.tasks
  · intro x hx
    rcases List.mem_append.mp hx with hx | hx
    · exact h.plain x hx
    · exact (h.release_copies hx).1
  · intro x hx hflag
    rcases List.mem_append.mp hx with hx | hx
    · exact h.spent x hx hflag
    · rw [(h.release_copies hx).2.1] at hflag
      cases hflag
  · intro x hx hlive
    rcases List.mem_append.mp hx with hx | hx
    · exact h.live x hx hlive
    · obtain ⟨_, _, row, hrow, hcost, htime⟩ := h.release_copies hx
      have hpos : 1 ≤ row.tE.toNat := UInt32.le_iff_toNat_le.mp (hrows row hrow).2.2.1
      refine ⟨?_, ?_⟩
      · rw [UInt32.lt_iff_toNat_lt, UInt32.toNat_zero]
        omega
      · rw [htime]
        exact Nat.le_add_right_of_le (hdeadline row hrow)
  · have hload := h.load
    have hasked := h.release_asked tick hrange hper
    have hbacklog : backlog (b.release tick fresh).ready =
        backlog b.ready + backlog ((b.tasks.filter (due tick)).map TaskStruct.core) := by
      rw [Board.release, backlog_append, backlog_copyList]
    omega

theorem of_perm (h : Serving rows age used asked b) {ready : List TaskStruct}
    (hperm : b'.ready.Perm ready) (htasks : b'.tasks = b.tasks) (hblocked : b'.blocked = [])
    (hfinished : ready.Pairwise NotTwoFlagged)
    (hready : ∀ x ∈ ready, x.resources = [] ∧ (x.flagged = true → x.tRemainingE = 0) ∧
      (x.flagged = false → 0 < x.tRemainingE ∧
        workload (rows.map TaskRow.stream) ≤ x.localStats.tRemainingD.toNat + age))
    {used' : ℕ} (hload : used' + backlog ready ≤ asked) : Serving rows age used' asked b' := by
  have hmem : ∀ x ∈ b'.ready, x ∈ ready := fun x hx => hperm.subset hx
  have hsymm : ∀ {x y : TaskStruct}, NotTwoFlagged x y → NotTwoFlagged y x :=
    fun hxy hyx => hxy ⟨hyx.2, hyx.1⟩
  refine ⟨by rw [htasks]; exact h.tasks, by rw [htasks]; exact h.templates,
    fun x hx => (hready x (hmem x hx)).1, hblocked, (hperm.pairwise_iff hsymm).mpr hfinished,
    fun x hx => (hready x (hmem x hx)).2.1, fun x hx => (hready x (hmem x hx)).2.2, ?_, h.fits⟩
  rw [backlog_perm hperm]
  exact hload

theorem serves (h : Serving rows age used asked b) {cfg : Config} {tick : UInt32}
    (hlive : ∀ x ∈ b.ready, x.flagged = false) (hstart : cfg.tStart ≤ tick)
    {j n : TaskStruct} {rest : List TaskStruct} (hfrom : b.ready.Perm (j :: rest))
    (hto : b'.ready.Perm (n :: rest)) (htasks : b'.tasks = b.tasks) (hblocked : b'.blocked = [])
    (hresources : n.resources = []) (hstate : n.taskState = (work cfg tick j).taskState)
    (hleft : n.tRemainingE = (work cfg tick j).tRemainingE)
    (htime : n.localStats.tRemainingD = j.localStats.tRemainingD) :
    Serving rows age (used + 1) asked b' := by
  have hj : j ∈ b.ready := hfrom.symm.subset List.mem_cons_self
  have hrest : ∀ x ∈ rest, x ∈ b.ready :=
    fun x hx => hfrom.symm.subset (List.mem_cons_of_mem j hx)
  have hjlive := hlive j hj
  obtain ⟨hpos, hdeadline⟩ := h.live j hj hjlive
  have hdec := pred_toNat hpos
  have hnotkilled : j.taskState ≠ .killed := by
    intro hkilled
    rw [TaskStruct.flagged, hkilled] at hjlive
    cases hjlive
  have hspent : n.tRemainingE = j.tRemainingE - 1 := by
    rw [hleft, work, if_pos hstart, removeTaskIfFinishedExecution]
    split <;> rfl
  have hflag : n.flagged = decide (j.tRemainingE - 1 ≤ 0) := by
    have hwork := work_flagged cfg tick j
    rw [hjlive, Bool.false_or, finishing, decide_eq_true hnotkilled, Bool.and_true] at hwork
    rw [← hwork, TaskStruct.flagged, TaskStruct.flagged, hstate]
  have hbefore : backlog b.ready = j.tRemainingE.toNat + backlog rest := by
    rw [backlog_perm hfrom, backlog_cons_live hjlive]
  have hload := h.load
  have hpair : (n :: rest).Pairwise NotTwoFlagged := by
    refine List.pairwise_cons.mpr ⟨?_, ?_⟩
    · intro y hy hboth
      rw [hlive y (hrest y hy)] at hboth
      cases hboth.2
    · apply List.pairwise_of_forall_mem_list
      intro x hx y _ hboth
      rw [hlive x (hrest x hx)] at hboth
      cases hboth.1
  have hjobs : ∀ x ∈ n :: rest, x.resources = [] ∧ (x.flagged = true → x.tRemainingE = 0) ∧
      (x.flagged = false → 0 < x.tRemainingE ∧
        workload (rows.map TaskRow.stream) ≤ x.localStats.tRemainingD.toNat + age) := by
    intro x hx
    rcases List.mem_cons.mp hx with rfl | hx
    · refine ⟨hresources, ?_, ?_⟩
      · intro hdone
        rw [hflag, decide_eq_true_eq, UInt32.le_iff_toNat_le, UInt32.toNat_zero] at hdone
        rw [hspent, ← UInt32.toNat_inj, UInt32.toNat_zero]
        omega
      · intro hgoes
        rw [hflag, decide_eq_false_iff_not, UInt32.not_le] at hgoes
        rw [hspent, htime]
        exact ⟨hgoes, hdeadline⟩
    · have hxlive := hlive x (hrest x hx)
      refine ⟨h.plain x (hrest x hx), ?_, h.live x (hrest x hx)⟩
      intro hflagged
      rw [hxlive] at hflagged
      cases hflagged
  refine h.of_perm hto htasks hblocked hpair hjobs ?_
  cases hn : n.flagged with
  | true =>
    rw [backlog_cons_flagged hn]
    rw [hflag, decide_eq_true_eq, UInt32.le_iff_toNat_le, UInt32.toNat_zero] at hn
    omega
  | false =>
    rw [backlog_cons_live hn, hspent]
    omega

end Serving

theorem dispatchLoop_chosen (cfg : Config) (fuel : ℕ) {σ : Sim}
    (hplain : ∀ x ∈ σ.readyQueue, x.resources = [] ∧ x.taskState ≠ .blocked) :
    (dispatchLoop cfg fuel σ).chosen = prioritizeQueues cfg σ := by
  cases fuel with
  | zero => rfl
  | succ fuel =>
    rw [dispatchLoop]
    cases hpick : pickNextTask (prioritizeQueues cfg σ).readyQueue with
    | none => rfl
    | some t =>
      obtain ⟨y, hy, rfl⟩ := List.mem_map.mp (pickNextTask_mem hpick)
      obtain ⟨hres, hstate⟩ := hplain y hy
      dsimp only
      rw [lockResources]
      simp only [hres, List.foldl_nil]
      rw [if_neg hstate]

theorem map_update_perm {q rest : List TaskStruct} {j j' : TaskStruct}
    (hnodup : (q.map TaskStruct.addr).Nodup) (hperm : q.Perm (j :: rest)) :
    (q.map (updateAt j.addr (fun _ => j'))).Perm (j' :: rest) := by
  refine (hperm.map _).trans ?_
  have hfresh : j.addr ∉ rest.map TaskStruct.addr := by
    have hcons := (hperm.map TaskStruct.addr).nodup_iff.mp hnodup
    exact (List.nodup_cons.mp hcons).1
  rw [List.map_cons, map_updateAt_of_notMem hfresh, updateAt, if_pos rfl]

section Tick

variable {cfg : Config} {rows : List TaskRow} {t : Tick} {age used asked : ℕ}

theorem Ran.blocked_eq (hran : Ran cfg t) (hblocked : t.dispatched.chosen.board.blocked = []) :
    t.finished.board.blocked = [] := by
  cases hran with
  | idle _ _ _ hpicked _ hfinished => rw [hfinished, hpicked, hblocked]
  | running j j' n' _ _ hruns hexecuted hreleases =>
    rw [hreleases.blocked, hexecuted, Board.update, hruns.blocked, hblocked]
    rfl

theorem Serving.ran (h : Serving rows age used asked t.dispatched.chosen.board)
    (hlive : ∀ x ∈ t.dispatched.chosen.board.ready, x.flagged = false) (hran : Ran cfg t)
    (hwf : WellFormed t.dispatched.chosen.board)
    (hstart : t.dispatched.chosen.board.ready ≠ [] → cfg.tStart ≤ t.start.tick) :
    Serving rows age (used + 1) asked t.finished.board ∨
      Serving rows 0 0 0 t.finished.board := by
  have htasks := hran.tasks
  have hblocked := hran.blocked_eq h.blocked
  cases hran with
  | idle _ _ hready hpicked _ hfinished =>
    right
    have hempty : backlog t.dispatched.chosen.board.ready = 0 := by
      rw [Sim.board, hready]
      rfl
    rw [hfinished, hpicked]
    exact h.restart hempty
  | running j j' n' _ _ hruns hexecuted hreleases =>
    left
    obtain ⟨rest, hrest⟩ : ∃ rest, t.dispatched.chosen.board.ready.Perm (j.core :: rest) :=
      ⟨_, ready_perm hwf hruns.mem⟩
    have hpicked := hwf.mapped (hruns.mapped hwf)
    have hexec := hpicked.mapped (work_mapped cfg t.start.tick _ j.addr)
    rw [← hexecuted] at hexec
    have hperm₁ : t.dispatched.picked.board.ready.Perm (j'.core :: rest) := by
      rw [hruns.ready]
      exact map_update_perm hwf.ready_nodup hrest
    have hperm₂ : t.executed.board.ready.Perm (work cfg t.start.tick j'.core :: rest) := by
      have haddr : j'.core.addr = j.addr := hruns.addr
      have hsame : t.executed.board.ready =
          t.dispatched.picked.board.ready.map
            (updateAt j'.core.addr (fun _ => work cfg t.start.tick j'.core)) := by
        rw [hexecuted, Board.update, haddr]
        apply List.map_congr_left
        intro x hx
        rw [updateAt, updateAt]
        split
        · rename_i hx'
          rw [hpicked.ready_inj hx hruns.mem_picked (hx'.trans haddr.symm)]
        · rfl
      rw [hsame]
      exact map_update_perm hpicked.ready_nodup hperm₁
    have hperm₃ : t.finished.board.ready.Perm (n' :: rest) := by
      rw [hreleases.ready]
      exact map_update_perm hexec.ready_nodup hperm₂
    have hjob := hruns.job
    have hleft : j'.core.tRemainingE = j.core.tRemainingE := (congrArg TaskStruct.tRemainingE hjob :)
    have hnleft : n'.tRemainingE = (work cfg t.start.tick j'.core).tRemainingE :=
      (congrArg TaskStruct.tRemainingE hreleases.job :)
    have hnstate : n'.taskState = (work cfg t.start.tick j'.core).taskState :=
      (congrArg TaskStruct.taskState hreleases.job :)
    have hne : t.dispatched.chosen.board.ready ≠ [] := List.ne_nil_of_mem hruns.mem
    have hwork : ∀ x y : TaskStruct, x.taskState = y.taskState → x.tRemainingE = y.tRemainingE →
        (work cfg t.start.tick x).taskState = (work cfg t.start.tick y).taskState ∧
          (work cfg t.start.tick x).tRemainingE = (work cfg t.start.tick y).tRemainingE ∧
            (work cfg t.start.tick x).localStats = x.localStats := by
      intro x y hstate he
      simp only [work, removeTaskIfFinishedExecution, spendTick, hstate, he]
      split <;> split <;> simp_all
    obtain ⟨hwstate, hwleft, _⟩ := hwork j'.core j.core hruns.state hleft
    have hstats := (hwork j'.core j'.core rfl rfl).2.2
    have hplain : n'.resources = [] := by
      have hsections := hruns.entries (by rw [h.plain _ hruns.mem]; exact List.nodup_nil)
      rw [h.plain _ hruns.mem] at hsections
      have hentries := hreleases.entries
      rw [work_resources, List.forall₂_nil_left_iff.mp hsections] at hentries
      exact List.sublist_nil.mp hentries
    have htime : n'.localStats.tRemainingD = j.core.localStats.tRemainingD := by
      have hn : n'.localStats = (work cfg t.start.tick j'.core).localStats :=
        (congrArg TaskStruct.localStats hreleases.job :)
      have hj : j'.core.localStats.tRemainingD = j.core.localStats.tRemainingD :=
        (congrArg (fun x : TaskStruct => x.localStats.tRemainingD) hjob :)
      rw [hn, hstats, hj]
    exact h.serves hlive (hstart hne) hrest hperm₃ htasks hblocked hplain
      (hnstate.trans hwstate) (hnleft.trans hwleft) htime

theorem resuming_eq {names : List String} {b b' : Board} (h : Resuming names b b')
    (hblocked : b.blocked = []) : b' = b := by
  induction h with
  | nil _ => rfl
  | skip _ ih => exact ih hblocked
  | cons hstep _ _ =>
    obtain ⟨picked, hpicked, _⟩ := hstep
    rw [hblocked] at hpicked
    exact absurd hpicked List.not_mem_nil

theorem chosen_board {σ : Sim} (h : simTick cfg σ = some t)
    (hplain : ∀ x ∈ t.deleted.board.ready, x.resources = [] ∧ x.taskState ≠ .blocked) :
    t.dispatched.chosen.board = t.deleted.board := by
  obtain ⟨pending, _, rfl⟩ := Option.map_eq_some_iff.mp h
  have hchosen := dispatchLoop_chosen cfg
    (tickAfterRelease cfg σ pending).deleted.readyQueue.length
    (σ := (tickAfterRelease cfg σ pending).deleted)
    (fun x hx => hplain x.core (List.mem_map_of_mem hx))
  have hboard := congrArg Sim.board hchosen
  rw [prioritizeQueues_board] at hboard
  exact hboard

end Tick

def Timely (rows : List TaskRow) (σ : Sim) : Prop :=
  ∃ s ≤ σ.tick.toNat, Serving rows (σ.tick.toNat - s) (σ.tick.toNat - s)
    (demand (rows.map TaskRow.stream) s σ.tick.toNat) σ.board

-- A busy period starts over when nothing is left to do.
theorem Timely.busy {rows : List TaskRow} {σ : Sim} (h : Timely rows σ) :
    ∃ s ≤ σ.tick.toNat, Serving rows (σ.tick.toNat - s) (σ.tick.toNat - s)
      (demand (rows.map TaskRow.stream) s σ.tick.toNat) σ.board ∧
        (s = σ.tick.toNat ∨ 0 < backlog σ.board.ready) := by
  obtain ⟨s, hs, hserving⟩ := h
  rcases Nat.eq_zero_or_pos (backlog σ.board.ready) with hzero | hpos
  · refine ⟨σ.tick.toNat, le_refl _, ?_, Or.inl rfl⟩
    rw [Nat.sub_self, demand_self]
    exact hserving.restart hzero
  · exact ⟨s, hs, hserving, Or.inr hpos⟩

section Step

variable {cfg : Config} {rows : List TaskRow} {σ σ' : Sim} {t : Tick}

theorem demand_fits (hunder : Underloaded cfg rows) (hrows : WithoutResources rows) {s : ℕ}
    (h : Serving rows (σ.tick.toNat - s) (σ.tick.toNat - s)
      (demand (rows.map TaskRow.stream) s σ.tick.toNat) σ.board)
    (hbusy : s = σ.tick.toNat ∨ 0 < backlog σ.board.ready) :
    demand (rows.map TaskRow.stream) s (σ.tick.toNat + 1) ≤ workload (rows.map TaskRow.stream) := by
  apply demand_le_workload
  intro a ha
  obtain ⟨row, hrow, rfl⟩ := List.mem_map.mp ha
  have hper : 1 ≤ row.tPer.toNat := UInt32.le_iff_toNat_le.mp (hrows row hrow).2.1
  have hload := h.load
  have hfits := h.fits
  have hperiod := hunder.period row hrow
  change _ ≤ row.tPer.toNat
  rcases hbusy with rfl | hpos
  · omega
  · omega

theorem start_of_demand (hunder : Underloaded cfg rows) {s : ℕ}
    (h : 0 < demand (rows.map TaskRow.stream) s (σ.tick.toNat + 1)) : cfg.tStart ≤ σ.tick := by
  obtain ⟨a, ha, hlt⟩ := phase_lt_of_demand_pos h
  obtain ⟨row, hrow, rfl⟩ := List.mem_map.mp ha
  have hstart := UInt32.le_iff_toNat_le.mp (hunder.start row hrow)
  have hphase : row.tPh.toNat < σ.tick.toNat + 1 := hlt
  rw [UInt32.le_iff_toNat_le]
  omega

theorem Timely.step (hunder : Underloaded cfg rows) (hrows : WithoutResources rows)
    (hsound : Sound σ) (h : Timely rows σ) (hstep : Step cfg σ t σ') :
    Timely rows σ' ∧ MissFree t := by
  obtain ⟨hstop, htick, rfl⟩ := hstep
  obtain ⟨rfl, hphases⟩ := simTick_phases hsound htick
  obtain ⟨s, hs, hserving, hbusy⟩ := h.busy
  have hfits := demand_fits hunder hrows hserving hbusy
  rw [demand_succ hs] at hfits
  obtain ⟨fresh, _, hboard⟩ := hphases.released
  have hreleased := hserving.release t.start.tick fresh hrows hunder.range hunder.deadline hfits
  rw [← hboard, ← demand_succ hs] at hreleased
  have hchecked := hreleased.check (le_refl _) cfg
  rw [← hphases.checked] at hchecked
  obtain ⟨hdeleted, hlive⟩ := hchecked.deleted hphases.deleted
  have hwfdel := hphases.wf_deleted hsound.board
  have hchosen := chosen_board htick (fun x hx => ⟨hdeleted.plain x hx, hwfdel.ready x hx⟩)
  rw [← hchosen] at hdeleted hlive
  have hstart : t.dispatched.chosen.board.ready ≠ [] → cfg.tStart ≤ t.start.tick := by
    intro hne
    obtain ⟨x, hx⟩ := List.exists_mem_of_ne_nil _ hne
    have hpos := (hdeleted.live x hx (hlive x hx)).1
    have hle := le_backlog hx (hlive x hx)
    have hload := hdeleted.load
    rw [UInt32.lt_iff_toNat_lt, UInt32.toNat_zero] at hpos
    exact start_of_demand hunder (s := s) (by omega)
  have hfinished := hdeleted.ran hlive hphases.ran (hphases.wf_chosen hsound.board) hstart
  have hblocked : t.finished.board.blocked = [] := hphases.ran.blocked_eq hdeleted.blocked
  have hfinal := resuming_eq hphases.resumed hblocked
  have hnext : t.final.tick.toNat = t.start.tick.toNat + 1 := by
    rw [simTick_tick htick, UInt32.toNat_add, Nat.mod_eq_of_lt]
    · rfl
    · have hlt := UInt32.lt_iff_toNat_lt.mp hunder.stop
      have hle := UInt32.le_iff_toNat_le.mp hstop
      simp only [UInt32.reduceToNat] at hlt ⊢
      omega
  refine ⟨?_, ?_⟩
  · rw [Timely, hnext, hfinal]
    rcases hfinished with hran | hidle
    · refine ⟨s, by omega, ?_⟩
      rw [Nat.sub_add_comm hs]
      exact hran
    · refine ⟨t.start.tick.toNat + 1, le_refl _, ?_⟩
      rw [Nat.sub_self, demand_self]
      exact hidle
  · intro x hx
    have hcore : x.core ∈ t.released.board.ready := by
      rcases List.mem_append.mp hx with hx | hx
      · exact List.mem_map_of_mem hx
      · have hnone : x.core ∈ t.released.board.blocked := List.mem_map_of_mem hx
        rw [hreleased.blocked] at hnone
        exact absurd hnone List.not_mem_nil
    rw [← missed_core]
    exact hreleased.missed_eq (le_refl _) hcore

end Step

theorem initial_timely {rows : List TaskRow} (hrows : WithoutResources rows) :
    Timely rows (initial rows) := by
  refine ⟨0, le_refl _, ?_, ?_, ?_, rfl, ?_, ?_, ?_, ?_, ?_⟩
  · have hsame : (initial rows).board.tasks.map TaskStruct.stream = rows.map TaskRow.stream := by
      have hcomp : TaskStruct.stream ∘ (fun e : TaskRow × ℕ => template e.1 e.2) =
          TaskRow.stream ∘ Prod.fst := rfl
      rw [Sim.board, initial, List.map_map, hcomp, ← List.map_map, List.zipIdx_map_fst]
    rw [hsame]
  · intro x hx
    obtain ⟨⟨row, i⟩, hrow, rfl⟩ := List.mem_map.mp hx
    have hmem := List.fst_mem_of_mem_zipIdx hrow
    refine ⟨?_, rfl, row, hmem, rfl, rfl⟩
    rw [template, (hrows row hmem).1]
    rfl
  · exact fun x hx => absurd hx List.not_mem_nil
  · exact List.Pairwise.nil
  · exact fun x hx => absurd hx List.not_mem_nil
  · exact fun x hx => absurd hx List.not_mem_nil
  · exact Nat.zero_le _
  · change demand _ 0 0 ≤ _
    rw [demand_self]
    exact Nat.zero_le _

def oneTask : List TaskRow :=
  [⟨"A", 1, 5, 3, 4, []⟩]

def overloaded : List TaskRow :=
  [⟨"A", 0, 10, 5, 3, []⟩]

end Simulator
