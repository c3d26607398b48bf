import HTWGArchive.Simulator.TickPhases

namespace Simulator

def unflagged (t : TaskStruct) : Bool :=
  !t.flagged

def liveIds (q : List TaskStruct) : List (String × ℕ) :=
  (q.filter unflagged).map TaskStruct.id

def Sim.live (σ : Sim) : List (String × ℕ) :=
  liveIds (σ.readyQueue ++ σ.blockedQueue)

def Board.live (b : Board) : List (String × ℕ) :=
  liveIds (b.ready ++ b.blocked)

-- A flagged struct of the blocked queue stands for a job that has moved on.
def Board.ids (b : Board) : List (String × ℕ) :=
  b.ready.map TaskStruct.id ++ liveIds b.blocked

def Tick.releases (t : Tick) : List (String × ℕ) :=
  t.released.pendingQueue.map TaskStruct.id

-- The jobs of a queue that `handle_deadline` flags.
def abandoned (cfg : Config) (q : List TaskStruct) : List (String × ℕ) :=
  liveIds (q.filter (fun x => (deadlineFlag cfg q x).isSome))

def finishing (t : TaskStruct) : Bool :=
  t.tRemainingE - 1 ≤ 0 && t.taskState ≠ .killed

def Tick.finishes (t : Tick) : List (String × ℕ) :=
  match t.dispatched.next with
  | none => []
  | some next => if finishing next then [next.id] else []

def Tick.ends (cfg : Config) (t : Tick) : List (String × ℕ) :=
  abandoned cfg t.released.readyQueue ++ abandoned cfg t.released.blockedQueue ++ t.finishes

def releasedJobs (ts : List Tick) : List (String × ℕ) :=
  ts.flatMap Tick.releases

def endedJobs (cfg : Config) (ts : List Tick) : List (String × ℕ) :=
  ts.flatMap (Tick.ends cfg)

structure CleanSweep (σ : Sim) : Prop where
  ready : SweepsClean TaskStruct.flagged σ.readyQueue
  blocked : SweepsClean TaskStruct.flagged σ.blockedQueue

instance (σ : Sim) : Decidable (CleanSweep σ) :=
  decidable_of_iff
    (SweepsClean TaskStruct.flagged σ.readyQueue ∧ SweepsClean TaskStruct.flagged σ.blockedQueue)
    ⟨fun h => ⟨h.1, h.2⟩, fun h => ⟨h.ready, h.blocked⟩⟩

theorem mem_liveIds {q : List TaskStruct} {j : String × ℕ} :
    j ∈ liveIds q ↔ ∃ x ∈ q, x.flagged = false ∧ x.id = j := by
  simp only [liveIds, List.mem_map, List.mem_filter, unflagged, Bool.not_eq_true', and_assoc]

theorem liveIds_append (q q' : List TaskStruct) : liveIds (q ++ q') = liveIds q ++ liveIds q' := by
  simp [liveIds]

theorem liveIds_sublist (q : List TaskStruct) : (liveIds q).Sublist (q.map TaskStruct.id) :=
  List.filter_sublist.map _

theorem liveIds_eq {q : List TaskStruct} (h : ∀ x ∈ q, x.flagged = false) :
    liveIds q = q.map TaskStruct.id := by
  rw [liveIds, List.filter_eq_self.mpr]
  exact fun x hx => by simp [unflagged, h x hx]

theorem liveIds_map {f : TaskStruct → TaskStruct} {q : List TaskStruct}
    (hid : ∀ x ∈ q, (f x).id = x.id) (hflag : ∀ x ∈ q, (f x).flagged = false → x.flagged = false) :
    (liveIds (q.map f)).Sublist (liveIds q) := by
  induction q with
  | nil => exact List.Sublist.refl _
  | cons x q ih =>
    have hrest := ih (fun y hy => hid y (List.mem_cons_of_mem x hy))
      (fun y hy => hflag y (List.mem_cons_of_mem x hy))
    have hx := hid x List.mem_cons_self
    have hflagx := hflag x List.mem_cons_self
    simp only [liveIds, List.map_cons, List.filter_cons] at hrest ⊢
    cases hfx : (f x).flagged with
    | true =>
      rw [if_neg (by simp [unflagged, hfx])]
      split
      · rw [List.map_cons]
        exact hrest.cons _
      · exact hrest
    | false =>
      rw [if_pos (by simp [unflagged, hfx]), if_pos (by simp [unflagged, hflagx hfx]),
        List.map_cons, List.map_cons, hx]
      exact hrest.cons_cons _

theorem live_board (σ : Sim) : σ.board.live = σ.live := by
  simp only [Board.live, Sim.live, Sim.board, liveIds, ← List.map_append, List.filter_map,
    List.map_map]
  rfl

theorem Board.live_sublist (b : Board) : b.live.Sublist b.ids := by
  rw [Board.live, Board.ids, liveIds_append]
  exact (liveIds_sublist b.ready).append_right _

structure Roster (b : Board) : Prop where
  ids : b.ids.Nodup
  names : (b.tasks.map TaskStruct.name).Nodup
  tasks : ∀ x ∈ b.tasks, x.flagged = false

namespace Roster

variable {b : Board}

theorem ready_unique (h : Roster b) {x y : TaskStruct} (hx : x ∈ b.ready) (hy : y ∈ b.ready)
    (hid : x.id = y.id) : x = y :=
  List.inj_on_of_nodup_map (h.ids.sublist (List.sublist_append_left _ _)) hx hy hid

theorem blocked_unique (h : Roster b) {x y : TaskStruct} (hx : x ∈ b.blocked) (hy : y ∈ b.blocked)
    (hxf : x.flagged = false) (hyf : y.flagged = false) (hid : x.id = y.id) : x = y := by
  have hnodup : (liveIds b.blocked).Nodup := h.ids.sublist (List.sublist_append_right _ _)
  have hxmem : x ∈ b.blocked.filter unflagged := List.mem_filter.mpr ⟨hx, by simp [unflagged, hxf]⟩
  have hymem : y ∈ b.blocked.filter unflagged := List.mem_filter.mpr ⟨hy, by simp [unflagged, hyf]⟩
  exact List.inj_on_of_nodup_map hnodup hxmem hymem hid

theorem separate (h : Roster b) {x y : TaskStruct} (hx : x ∈ b.ready) (hy : y ∈ b.blocked)
    (hyf : y.flagged = false) : x.id ≠ y.id := by
  have hdisj := (List.nodup_append.mp h.ids).2.2
  exact hdisj _ (List.mem_map_of_mem hx) _ (mem_liveIds.mpr ⟨y, hy, hyf, rfl⟩)

theorem live_nodup (h : Roster b) : b.live.Nodup :=
  h.ids.sublist b.live_sublist

end Roster

structure Fate (released ended : List (String × ℕ)) (b : Board) : Prop where
  known : ∀ j ∈ b.ids, j ∈ released
  fresh : ∀ j ∈ released, ∀ x ∈ b.tasks, x.name = j.1 → j.2 < x.taskNum
  fate : ∀ j ∈ released, j ∈ b.live ∧ j ∉ ended ∨ j ∉ b.live ∧ j ∈ ended
  past : ∀ j ∈ ended, j ∈ released

theorem Fate.keep {released ended : List (String × ℕ)} {b b' : Board} (h : Fate released ended b)
    (hids : ∀ j ∈ b'.ids, j ∈ b.ids) (htasks : b'.tasks ⊆ b.tasks)
    (hlive : ∀ j, j ∈ b'.live ↔ j ∈ b.live) : Fate released ended b' := by
  refine ⟨fun j hj => h.known j (hids j hj), fun j hj x hx => h.fresh j hj x (htasks hx), ?_,
    h.past⟩
  intro j hj
  rw [hlive]
  exact h.fate j hj

theorem Fate.lose {released ended gone : List (String × ℕ)} {b b' : Board}
    (h : Fate released ended b) (hids : ∀ j ∈ b'.ids, j ∈ b.ids) (htasks : b'.tasks ⊆ b.tasks)
    (hlive : ∀ j, j ∈ b'.live ↔ j ∈ b.live ∧ j ∉ gone) (hgone : ∀ j ∈ gone, j ∈ b.live) :
    Fate released (ended ++ gone) b' := by
  refine ⟨fun j hj => h.known j (hids j hj), fun j hj x hx => h.fresh j hj x (htasks hx), ?_, ?_⟩
  · intro j hj
    rw [hlive, List.mem_append]
    rcases h.fate j hj with ⟨hmem, hnot⟩ | ⟨hnot, hmem⟩
    · rcases Decidable.em (j ∈ gone) with hg | hg
      · exact Or.inr ⟨fun hboth => hboth.2 hg, Or.inr hg⟩
      · exact Or.inl ⟨⟨hmem, hg⟩, by simp [hnot, hg]⟩
    · exact Or.inr ⟨fun hboth => hnot hboth.1, Or.inl hmem⟩
  · intro j hj
    rcases List.mem_append.mp hj with hold | hnew
    · exact h.past j hold
    · exact h.known j (b.live_sublist.subset (hgone j hnew))

section Release

variable {b : Board} (tick : UInt32) (fresh : ℕ)

theorem release_ids_perm :
    (b.release tick fresh).ids.Perm (b.ids ++ (b.tasks.filter (due tick)).map TaskStruct.id) := by
  simp only [Board.ids, Board.release, List.map_append, map_id_copyList, List.map_map]
  rw [List.append_assoc, List.append_assoc]
  apply List.Perm.append_left
  exact List.perm_append_comm

theorem copyList_unflagged {q : List TaskStruct} (h : ∀ x ∈ q, x.flagged = false) :
    ∀ x ∈ copyList fresh q, x.flagged = false := by
  intro x hx
  obtain ⟨t, ht, hxt⟩ := mem_copyList hx
  rw [hxt]
  exact h t ht

theorem release_live (hroster : Roster b) (j : String × ℕ) :
    j ∈ (b.release tick fresh).live ↔
      j ∈ b.live ∨ j ∈ (b.tasks.filter (due tick)).map TaskStruct.id := by
  have hnew : liveIds (copyList fresh ((b.tasks.filter (due tick)).map TaskStruct.core)) =
      (b.tasks.filter (due tick)).map TaskStruct.id := by
    rw [liveIds_eq, map_id_copyList, List.map_map]
    · rfl
    · apply copyList_unflagged
      intro x hx
      obtain ⟨t, ht, rfl⟩ := List.mem_map.mp hx
      exact hroster.tasks t (List.mem_of_mem_filter ht)
  simp only [Board.live, Board.release, liveIds_append, hnew, List.mem_append]
  tauto

theorem new_nodup (hroster : Roster b) :
    ((b.tasks.filter (due tick)).map TaskStruct.id).Nodup := by
  have hnames : ((b.tasks.filter (due tick)).map TaskStruct.name).Nodup :=
    hroster.names.sublist (List.filter_sublist.map _)
  refine List.Nodup.of_map Prod.fst ?_
  rwa [List.map_map]

theorem new_fresh {released ended : List (String × ℕ)} (hfate : Fate released ended b) :
    ∀ j ∈ (b.tasks.filter (due tick)).map TaskStruct.id, j ∉ released := by
  intro j hj hmem
  obtain ⟨t, ht, rfl⟩ := List.mem_map.mp hj
  exact lt_irrefl _ (hfate.fresh _ hmem t (List.mem_of_mem_filter ht) rfl)

theorem bump_name (t : TaskStruct) : (bump tick t).name = t.name := by
  rw [bump]
  split <;> rfl

theorem bump_flagged (t : TaskStruct) : (bump tick t).flagged = t.flagged := by
  rw [bump]
  split <;> rfl

theorem bump_taskNum_le (t : TaskStruct) : t.taskNum ≤ (bump tick t).taskNum := by
  rw [bump]
  split
  · exact Nat.le_succ _
  · exact le_rfl

theorem Roster.release {released ended : List (String × ℕ)} (h : Roster b)
    (hfate : Fate released ended b) : Roster (b.release tick fresh) := by
  refine ⟨?_, ?_, ?_⟩
  · rw [(release_ids_perm tick fresh).nodup_iff, List.nodup_append]
    refine ⟨h.ids, new_nodup tick h, ?_⟩
    intro x hx y hy hxy
    rw [hxy] at hx
    exact new_fresh tick hfate y hy (hfate.known y hx)
  · have hnames : (b.release tick fresh).tasks.map TaskStruct.name =
        b.tasks.map TaskStruct.name := by
      simp only [Board.release, List.map_map]
      exact List.map_congr_left (fun t _ => bump_name tick t)
    rw [hnames]
    exact h.names
  · intro x hx
    obtain ⟨t, ht, rfl⟩ := List.mem_map.mp hx
    rw [bump_flagged]
    exact h.tasks t ht

theorem Fate.release {released ended : List (String × ℕ)} (h : Fate released ended b)
    (hroster : Roster b) :
    Fate (released ++ (b.tasks.filter (due tick)).map TaskStruct.id) ended
      (b.release tick fresh) := by
  refine ⟨?_, ?_, ?_, fun j hj => List.mem_append_left _ (h.past j hj)⟩
  · intro j hj
    rw [(release_ids_perm tick fresh).mem_iff, List.mem_append] at hj
    rw [List.mem_append]
    exact hj.imp_left (h.known j)
  · intro j hj x hx hname
    obtain ⟨t, ht, rfl⟩ := List.mem_map.mp hx
    rw [bump_name] at hname
    rcases List.mem_append.mp hj with hold | hnew
    · exact lt_of_lt_of_le (h.fresh j hold t ht hname) (bump_taskNum_le tick t)
    · obtain ⟨s, hs, rfl⟩ := List.mem_map.mp hnew
      obtain ⟨hsmem, hdue⟩ := List.mem_filter.mp hs
      obtain rfl : t = s := List.inj_on_of_nodup_map hroster.names ht hsmem hname
      rw [bump, if_pos hdue]
      exact Nat.lt_succ_self _
  · intro j hj
    rw [release_live tick fresh hroster]
    rcases List.mem_append.mp hj with hold | hnew
    · have hnot : j ∉ (b.tasks.filter (due tick)).map TaskStruct.id :=
        fun hnew => new_fresh tick h j hnew hold
      rcases h.fate j hold with ⟨hlive, hne⟩ | ⟨hlive, he⟩
      · exact Or.inl ⟨Or.inl hlive, hne⟩
      · exact Or.inr ⟨by simp only [hlive, hnot, or_self, not_false_eq_true], he⟩
    · left
      exact ⟨Or.inr hnew, fun he => new_fresh tick h j hnew (h.past j he)⟩

end Release

section Check

variable {cfg : Config} {b : Board}

theorem handleDeadline_id (q : List TaskStruct) (t : TaskStruct) :
    (decrementDeadline (handleDeadline cfg q t)).id = t.id :=
  congrArg JobRef.id (handleDeadline_ref cfg q t)

theorem handleDeadline_flagged (q : List TaskStruct) (t : TaskStruct) :
    (decrementDeadline (handleDeadline cfg q t)).flagged =
      (t.flagged || (deadlineFlag cfg q t).isSome) := by
  rw [handleDeadline]
  cases hflag : deadlineFlag cfg q t with
  | none =>
    rw [Option.isSome_none, Bool.or_false]
    rfl
  | some s =>
    rw [Option.isSome_some, Bool.or_true]
    rcases deadlineFlag_ne_blocked hflag with rfl | rfl
    · rfl
    · rfl

theorem mem_abandoned {q : List TaskStruct} {j : String × ℕ} :
    j ∈ abandoned cfg q ↔
      ∃ x ∈ q, x.flagged = false ∧ (deadlineFlag cfg q x).isSome = true ∧ x.id = j := by
  simp only [abandoned, mem_liveIds, List.mem_filter]
  constructor
  · rintro ⟨x, ⟨hx, hflag⟩, hlive, hid⟩
    exact ⟨x, hx, hlive, hflag, hid⟩
  · rintro ⟨x, hx, hlive, hflag, hid⟩
    exact ⟨x, ⟨hx, hflag⟩, hlive, hid⟩

theorem mem_liveIds_check {q : List TaskStruct} {j : String × ℕ} :
    j ∈ liveIds (handleDeadlineQueue cfg q) ↔
      ∃ x ∈ q, x.flagged = false ∧ (deadlineFlag cfg q x).isSome = false ∧ x.id = j := by
  simp only [mem_liveIds, handleDeadlineQueue, List.mem_map, exists_exists_and_eq_and,
    handleDeadline_flagged, handleDeadline_id, Bool.or_eq_false_iff, and_assoc]

theorem check_ids_sublist : (b.check cfg).ids.Sublist b.ids := by
  have hready : (b.check cfg).ready.map TaskStruct.id = b.ready.map TaskStruct.id := by
    simp only [Board.check, handleDeadlineQueue, List.map_map]
    exact List.map_congr_left (fun t _ => handleDeadline_id b.ready t)
  have hblocked : (liveIds (b.check cfg).blocked).Sublist (liveIds b.blocked) := by
    apply liveIds_map
    · exact fun x _ => handleDeadline_id b.blocked x
    · intro x _ hx
      rw [handleDeadline_flagged] at hx
      exact (Bool.or_eq_false_iff.mp hx).1
  rw [Board.ids, Board.ids, hready]
  exact hblocked.append_left _

theorem Roster.check (h : Roster b) : Roster (b.check cfg) :=
  ⟨h.ids.sublist check_ids_sublist, h.names, h.tasks⟩

theorem Fate.check {released ended : List (String × ℕ)} (h : Fate released ended b) (cfg : Config)
    (hroster : Roster b) :
    Fate released (ended ++ (abandoned cfg b.ready ++ abandoned cfg b.blocked)) (b.check cfg) := by
  refine h.lose (fun j hj => check_ids_sublist.subset hj) (List.Subset.refl _) ?_ ?_
  · intro j
    simp only [Board.live, Board.check, liveIds_append, List.mem_append, mem_liveIds_check]
    simp only [mem_liveIds, mem_abandoned, not_or]
    constructor
    · rintro (⟨x, hx, hlive, hflag, rfl⟩ | ⟨x, hx, hlive, hflag, rfl⟩)
      · refine ⟨Or.inl ⟨x, hx, hlive, rfl⟩, ?_, ?_⟩
        · rintro ⟨y, hy, _, hyf, hid⟩
          rw [hroster.ready_unique hy hx hid, hflag] at hyf
          cases hyf
        · rintro ⟨y, hy, hyl, _, hid⟩
          exact hroster.separate hx hy hyl hid.symm
      · refine ⟨Or.inr ⟨x, hx, hlive, rfl⟩, ?_, ?_⟩
        · rintro ⟨y, hy, _, _, hid⟩
          exact hroster.separate hy hx hlive hid
        · rintro ⟨y, hy, hyl, hyf, hid⟩
          rw [hroster.blocked_unique hy hx hyl hlive hid, hflag] at hyf
          cases hyf
    · rintro ⟨⟨x, hx, hlive, rfl⟩ | ⟨x, hx, hlive, rfl⟩, hready, hblocked⟩
      · left
        refine ⟨x, hx, hlive, ?_, rfl⟩
        exact Bool.eq_false_iff.mpr (fun hflag => hready ⟨x, hx, hlive, hflag, rfl⟩)
      · right
        refine ⟨x, hx, hlive, ?_, rfl⟩
        exact Bool.eq_false_iff.mpr (fun hflag => hblocked ⟨x, hx, hlive, hflag, rfl⟩)
  · intro j hj
    simp only [List.mem_append, mem_abandoned] at hj
    simp only [Board.live, liveIds_append, List.mem_append, mem_liveIds]
    rcases hj with ⟨x, hx, hlive, _, rfl⟩ | ⟨x, hx, hlive, _, rfl⟩
    · exact Or.inl ⟨x, hx, hlive, rfl⟩
    · exact Or.inr ⟨x, hx, hlive, rfl⟩

end Check

end Simulator
