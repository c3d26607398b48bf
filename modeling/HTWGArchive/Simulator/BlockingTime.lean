import HTWGArchive.Library.ShrinkingSelection
import HTWGArchive.Simulator.Generations
import HTWGArchive.Simulator.Realtime

namespace Simulator

open ShrinkingSelection

def untouchedTasks (rows : List TaskRow) : List TaskStruct :=
  copyList 0 (initial rows).tasks

theorem untouched_row {rows : List TaskRow} {task : TaskStruct} (h : task ∈ untouchedTasks rows) :
    ∃ row ∈ rows, task.tPer = row.tPer ∧ task.resources = localResources row.resources ∧
      task.taskPriorities = none := by
  obtain ⟨x, hx, heq⟩ := mem_copyList h
  obtain ⟨⟨row, i⟩, hrow, rfl⟩ := List.mem_map.mp hx
  rw [heq]
  exact ⟨row, List.fst_mem_of_mem_zipIdx hrow, rfl, rfl, rfl⟩

def rank (l : List TaskStruct) (x : TaskStruct) : ℕ :=
  l.countP (fun t => x.tD < t.tD)

def withRank (l : List TaskStruct) (x : TaskStruct) : TaskStruct :=
  { x with taskPriority := rank l x }

def Uninherited (l : List TaskStruct) : Prop :=
  ∀ t ∈ l, t.taskPriorities = none

-- What a round of the loop computes for the task it picks.
def roundValue (all tasks : List TaskStruct) (x : TaskStruct) : UInt32 :=
  minimalValue
    (blockedByResources (tasks.filter (fun t => rank tasks t < rank tasks x))
      ((all.filter (fun t => rank all t ≥ rank tasks x)).flatMap TaskStruct.resources))
    (blockedByTasks (tasks.filter (fun t => rank tasks t < rank tasks x))
      ((all.filter (fun t => rank all t ≥ rank tasks x)).flatMap TaskStruct.resources))

def lowerTasks (all : List TaskStruct) (x : TaskStruct) : List TaskStruct :=
  all.filter (fun t => x.tD < t.tD)

def sharedNames (all : List TaskStruct) (x : TaskStruct) : List String :=
  (all.filter (fun t => t.tD ≤ x.tD)).flatMap (fun t => t.resources.map LocalTaskResource.name)

def longestFor (names : List String) (t : TaskStruct) : ℕ :=
  ((t.resources.filter (fun e => e.name ∈ names)).map (fun e => e.tFor.toNat)).foldr max 0

def longestAmong (lower : List TaskStruct) (name : String) : ℕ :=
  (lower.map (longestFor [name])).foldr max 0

-- `BT` and `BR`, and the sum that counts a resource once for each entry that names it.
def boundByTasks (all : List TaskStruct) (x : TaskStruct) : ℕ :=
  ((lowerTasks all x).map (longestFor (sharedNames all x))).sum

def boundByResources (all : List TaskStruct) (x : TaskStruct) : ℕ :=
  ((sharedNames all x).dedup.map (longestAmong (lowerTasks all x))).sum

def boundByEntries (all : List TaskStruct) (x : TaskStruct) : ℕ :=
  ((sharedNames all x).map (longestAmong (lowerTasks all x))).sum

section Values

theorem foldr_max_le {l : List ℕ} {b : ℕ} : l.foldr max 0 ≤ b ↔ ∀ n ∈ l, n ≤ b := by
  induction l with
  | nil => simp
  | cons n l ih => simp [ih]

theorem foldl_le {α : Type} {f : UInt32 → α → UInt32} {b : ℕ} {P : α → Prop}
    (hf : ∀ m x, (f m x).toNat ≤ b ↔ m.toNat ≤ b ∧ P x) (l : List α) (m : UInt32) :
    (l.foldl f m).toNat ≤ b ↔ m.toNat ≤ b ∧ ∀ x ∈ l, P x := by
  induction l generalizing m with
  | nil => simp
  | cons x l ih => rw [List.foldl_cons, ih, hf, List.forall_mem_cons, and_assoc]

theorem longestSection_le {name : String} {m : UInt32} {t : TaskStruct} {b : ℕ} :
    (longestSection name m t).toNat ≤ b ↔
      m.toNat ≤ b ∧ ∀ e ∈ t.resources, e.name = name → e.tFor.toNat ≤ b := by
  rw [longestSection, foldl_le (P := fun e => e.name = name → e.tFor.toNat ≤ b)]
  intro m e
  split
  · rename_i hlonger
    rw [Bool.and_eq_true, decide_eq_true_eq, decide_eq_true_eq, UInt32.lt_iff_toNat_lt] at hlonger
    constructor
    · exact fun hle => ⟨hlonger.2.le.trans hle, fun _ => hle⟩
    · exact fun h => h.2 hlonger.1.symm
  · rename_i hshorter
    rw [Bool.and_eq_true, decide_eq_true_eq, decide_eq_true_eq, UInt32.lt_iff_toNat_lt] at hshorter
    constructor
    · intro hle
      refine ⟨hle, fun hname => ?_⟩
      exact (Nat.not_lt.mp (fun hlt => hshorter ⟨hname.symm, hlt⟩)).trans hle
    · exact fun h => h.1

theorem longestFor_le {names : List String} {t : TaskStruct} {b : ℕ} :
    longestFor names t ≤ b ↔ ∀ e ∈ t.resources, e.name ∈ names → e.tFor.toNat ≤ b := by
  rw [longestFor, foldr_max_le, List.forall_mem_map]
  simp only [List.mem_filter, decide_eq_true_eq, and_imp]

theorem foldl_longestSection_task (shared : List LocalTaskResource) (t : TaskStruct) :
    (shared.foldl (fun longest g => longestSection g.name longest t) 0).toNat =
      longestFor (shared.map LocalTaskResource.name) t := by
  apply eq_of_forall_ge_iff
  intro b
  have hfold := foldl_le (b := b) (f := fun m g => longestSection g.name m t)
    (fun m g => longestSection_le) shared 0
  rw [hfold, longestFor_le]
  simp only [UInt32.toNat_zero, Nat.zero_le, true_and, List.mem_map]
  constructor
  · rintro h e he ⟨g, hg, hname⟩
    exact h g hg e he hname.symm
  · exact fun h g hg e he hname => h e he ⟨g, hg, hname.symm⟩

theorem foldl_longestSection_lower (lower : List TaskStruct) (name : String) :
    (lower.foldl (longestSection name) 0).toNat = longestAmong lower name := by
  apply eq_of_forall_ge_iff
  intro b
  have hfold := foldl_le (b := b) (f := longestSection name) (fun m t => longestSection_le) lower 0
  rw [hfold, longestAmong, foldr_max_le, List.forall_mem_map]
  simp only [longestFor_le, UInt32.toNat_zero, Nat.zero_le, true_and, List.mem_singleton]

theorem foldl_add {α : Type} (f : α → UInt32) (l : List α) (s : UInt32) :
    l.foldl (fun sum x => sum + f x) s =
      s + UInt32.ofNat (l.map (fun x => (f x).toNat)).sum := by
  induction l generalizing s with
  | nil => simp
  | cons x l ih =>
    rw [List.foldl_cons, ih, List.map_cons, List.sum_cons, UInt32.ofNat_add, UInt32.ofNat_toNat,
      UInt32.add_assoc]

theorem blockedByTasks_eq (lower : List TaskStruct) (shared : List LocalTaskResource) :
    blockedByTasks lower shared =
      UInt32.ofNat (lower.map (longestFor (shared.map LocalTaskResource.name))).sum := by
  rw [blockedByTasks, foldl_add, UInt32.zero_add]
  simp only [foldl_longestSection_task]

theorem blockedByResources_eq (lower : List TaskStruct) (shared : List LocalTaskResource) :
    blockedByResources lower shared =
      UInt32.ofNat ((shared.map LocalTaskResource.name).map (longestAmong lower)).sum := by
  rw [blockedByResources, foldl_add, UInt32.zero_add, List.map_map]
  simp only [foldl_longestSection_lower]
  rfl

theorem minimalValue_toNat {a b : ℕ} (ha : a < 2 ^ 31) (hb : b < 2 ^ 31) :
    (minimalValue (UInt32.ofNat a) (UInt32.ofNat b)).toNat = min a b := by
  have hlt : (UInt32.ofNat b).toInt32 < (UInt32.ofNat a).toInt32 ↔ b < a := by
    rw [UInt32.toInt32_ofNat', UInt32.toInt32_ofNat', Int32.lt_iff_toInt_lt,
      Int32.toInt_ofNat_of_lt ha, Int32.toInt_ofNat_of_lt hb, Int.ofNat_lt]
  rw [minimalValue]
  simp only [gt_iff_lt, hlt]
  split
  · rename_i hba
    rw [UInt32.toNat_ofNat_of_lt' (hb.trans (by decide)), Nat.min_eq_right hba.le]
  · rename_i hab
    rw [UInt32.toNat_ofNat_of_lt' (ha.trans (by decide)), Nat.min_eq_left (Nat.not_lt.mp hab)]

theorem boundByResources_le (all : List TaskStruct) (x : TaskStruct) :
    boundByResources all x ≤ boundByEntries all x :=
  ((List.dedup_sublist _).map _).sum_le_sum (fun _ _ => Nat.zero_le _)

end Values

section Rounds

variable {cfg : Config} {all tasks : List TaskStruct}

theorem prioritizeTasks_dm (h : Uninherited tasks) :
    prioritizeTasks { cfg with scheduler := .dm } [] tasks = tasks.map (withRank tasks) := by
  rw [prioritizeTasks]
  apply List.map_congr_left
  intro x _
  rw [withRank, rank, List.countP_eq_length_filter]
  congr 2
  apply List.filter_congr
  intro t ht
  rw [prioritizeTask_none (h t ht)]
  exact decide_eq_decide.mpr UInt32.lt_iff_toNat_lt.symm

theorem rank_map_withRank (l m : List TaskStruct) (x : TaskStruct) :
    rank (l.map (withRank m)) x = rank l x := by
  rw [rank, List.countP_map]
  rfl

theorem rank_lt {t x : TaskStruct} (ht : t ∈ tasks) : rank tasks t < rank tasks x ↔ x.tD < t.tD := by
  rw [UInt32.lt_iff_toNat_lt]
  constructor
  · intro hlt
    by_contra hle
    have hmono : rank tasks x ≤ rank tasks t := by
      apply List.countP_mono_left
      intro z _ hz
      rw [decide_eq_true_eq, UInt32.lt_iff_toNat_lt] at hz ⊢
      omega
    exact absurd hlt (Nat.not_lt.mpr hmono)
  · intro hlt
    rw [rank, rank, countP_lt_iff]
    · refine ⟨t, ht, ?_, ?_⟩
      · rw [decide_eq_true_eq, UInt32.lt_iff_toNat_lt]
        exact hlt
      · rw [decide_eq_false_iff_not, UInt32.lt_iff_toNat_lt]
        exact Nat.lt_irrefl _
    · intro z _ hz
      rw [decide_eq_true_eq, UInt32.lt_iff_toNat_lt] at hz ⊢
      omega

theorem removeTaskNoprev_split {addr : ℕ} {front back : List TaskStruct} {x : TaskStruct}
    (head : Option TaskStruct) (hx : x.addr = addr) (hfront : ∀ y ∈ front, y.addr ≠ addr) :
    removeTaskNoprev addr head (front ++ x :: back) =
      (front.getLast?.or head).toList ++ back := by
  induction front generalizing head with
  | nil => rw [List.nil_append, removeTaskNoprev, if_pos hx, List.getLast?_nil, Option.none_or]
  | cons y front ih =>
    rw [List.cons_append, removeTaskNoprev, if_neg (hfront y List.mem_cons_self),
      ih (some y) (fun z hz => hfront z (List.mem_cons_of_mem y hz)), List.getLast?_cons]
    cases front.getLast? <;> rfl

theorem blockedByTasks_map (f : TaskStruct → TaskStruct) (hf : ∀ t, (f t).resources = t.resources)
    (lower : List TaskStruct) (shared : List LocalTaskResource) :
    blockedByTasks (lower.map f) shared = blockedByTasks lower shared := by
  rw [blockedByTasks, blockedByTasks, List.foldl_map]
  simp only [longestSection, hf]

theorem blockedByResources_map (f : TaskStruct → TaskStruct)
    (hf : ∀ t, (f t).resources = t.resources) (lower : List TaskStruct)
    (shared : List LocalTaskResource) :
    blockedByResources (lower.map f) shared = blockedByResources lower shared := by
  simp only [blockedByResources, List.foldl_map]
  congr 1
  funext sum g
  congr 1
  congr 1
  funext longest t
  rw [longestSection, longestSection, hf]

theorem Uninherited.withRank (h : Uninherited tasks) (l : List TaskStruct) :
    Uninherited (tasks.map (withRank l)) := by
  intro t ht
  obtain ⟨x, hx, rfl⟩ := List.mem_map.mp ht
  exact h x hx

theorem blockingRounds_map_withRank (h : Uninherited tasks) (l : List TaskStruct) (fuel : ℕ) :
    blockingRounds cfg all fuel (tasks.map (withRank l)) = blockingRounds cfg all fuel tasks := by
  cases fuel with
  | zero => rfl
  | succ fuel =>
    have hsame : prioritizeTasks { cfg with scheduler := .dm } [] (tasks.map (withRank l)) =
        prioritizeTasks { cfg with scheduler := .dm } [] tasks := by
      rw [prioritizeTasks_dm h, prioritizeTasks_dm (h.withRank l), List.map_map]
      apply List.map_congr_left
      intro x _
      rw [Function.comp_apply, Simulator.withRank, rank_map_withRank]
      rfl
    rw [blockingRounds, blockingRounds, hsame]

theorem roundValue_eq (x : TaskStruct) :
    minimalValue
      (blockedByResources ((tasks.map (withRank tasks)).filter
          (fun t => t.taskPriority < rank tasks x))
        (((all.map (withRank all)).filter (fun t => t.taskPriority ≥ rank tasks x)).flatMap
          TaskStruct.resources))
      (blockedByTasks ((tasks.map (withRank tasks)).filter
          (fun t => t.taskPriority < rank tasks x))
        (((all.map (withRank all)).filter (fun t => t.taskPriority ≥ rank tasks x)).flatMap
          TaskStruct.resources)) = roundValue all tasks x := by
  rw [List.filter_map, List.filter_map, blockedByResources_map (withRank tasks) (fun _ => rfl),
    blockedByTasks_map (withRank tasks) (fun _ => rfl), List.flatMap_map]
  rfl

theorem tD_lt_of_rank_le {front back : List TaskStruct} {x y : TaskStruct}
    (hdeadline : ((front ++ x :: back).map TaskStruct.tD).Nodup) (hy : y ∈ front ++ back)
    (hle : rank (front ++ x :: back) y ≤ rank (front ++ x :: back) x) :
    x.tD.toNat < y.tD.toNat := by
  have hx : x ∈ front ++ x :: back := by simp
  have hnot := mt (rank_lt hx).mpr (Nat.not_lt.mpr hle)
  rw [UInt32.lt_iff_toNat_lt] at hnot
  have hne : y.tD ≠ x.tD := by
    have hperm : ((front ++ x :: back).map TaskStruct.tD).Perm
        ((x :: (front ++ back)).map TaskStruct.tD) := List.perm_middle.map _
    have hnodup := (List.nodup_cons.mp (hperm.nodup_iff.mp hdeadline)).1
    exact fun heq => hnodup (heq ▸ List.mem_map_of_mem hy)
  rw [Ne, ← UInt32.toNat_inj] at hne
  omega

theorem addr_ne_of_mem_front {front back : List TaskStruct} {x y : TaskStruct}
    (haddr : ((front ++ x :: back).map TaskStruct.addr).Nodup) (hy : y ∈ front) :
    y.addr ≠ x.addr := by
  rw [List.map_append] at haddr
  exact (List.nodup_append.mp haddr).2.2 y.addr (List.mem_map_of_mem hy) x.addr (by simp)

theorem blockingRounds_pick (cfg : Config) (hall : Uninherited all) (h : Uninherited tasks)
    (haddr : (tasks.map TaskStruct.addr).Nodup)
    (hdeadline : (tasks.map TaskStruct.tD).Nodup) (hne : tasks ≠ []) :
    ∃ front x back, tasks = front ++ x :: back ∧
      (∀ y ∈ front ++ back, x.tD.toNat < y.tD.toNat) ∧
      ∀ fuel, blockingRounds cfg all (fuel + 1) tasks =
        (x.name, roundValue all tasks x) ::
          blockingRounds cfg all fuel (front.getLast?.toList ++ back) := by
  cases hpick : pickNextTask (tasks.map (withRank tasks)) with
  | none => exact absurd (List.map_eq_nil_iff.mp (pickNextTask_none hpick)) hne
  | some higher =>
    obtain ⟨rfront, rback, hsplit, hbefore, hbehind⟩ := pickNextTask_split hpick
    obtain ⟨front, rest, htasks, rfl, hrest⟩ := List.map_eq_append_iff.mp hsplit
    obtain ⟨x, back, rfl, rfl, rfl⟩ := List.map_eq_cons_iff.mp hrest
    have hmin : ∀ y ∈ front ++ back, x.tD.toNat < y.tD.toNat := by
      intro y hy
      have hle : rank tasks y ≤ rank tasks x := by
        rcases List.mem_append.mp hy with hy | hy
        · exact (hbefore (withRank tasks y) (List.mem_map_of_mem hy)).le
        · exact hbehind (withRank tasks y) (List.mem_map_of_mem hy)
      rw [htasks] at hdeadline hle
      exact tD_lt_of_rank_le hdeadline hy hle
    have hfresh : ∀ y ∈ front.map (withRank tasks), y.addr ≠ (withRank tasks x).addr := by
      intro y hy
      obtain ⟨z, hz, rfl⟩ := List.mem_map.mp hy
      rw [htasks] at haddr
      have hne : z.addr ≠ x.addr := addr_ne_of_mem_front haddr hz
      exact hne
    refine ⟨front, x, back, htasks, hmin, ?_⟩
    intro fuel
    rw [blockingRounds]
    dsimp only
    rw [prioritizeTasks_dm h, prioritizeTasks_dm hall, hpick]
    dsimp only
    congr 1
    · exact congrArg _ (roundValue_eq x)
    · have hrest' : Uninherited (front.getLast?.toList ++ back) := by
        intro t ht
        apply h t
        rw [htasks]
        exact (next_sublist front back x).subset ht
      rw [hsplit, removeTaskNoprev_split none rfl hfresh, Option.or_none, List.getLast?_map]
      rw [← blockingRounds_map_withRank hrest' tasks, List.map_append]
      cases front.getLast? <;> rfl

theorem Uninherited.sublist {l : List TaskStruct} (h : Uninherited tasks) (hsub : l.Sublist tasks) :
    Uninherited l :=
  fun t ht => h t (hsub.subset ht)

-- The tasks left when the ones of a smaller deadline than `p` have had their round.
def Left (all tasks : List TaskStruct) (p : ℕ) : Prop :=
  tasks = all.filter (fun t => p ≤ t.tD.toNat)

theorem Left.next {p : ℕ} {front back : List TaskStruct} {x : TaskStruct}
    (h : Left all (front ++ x :: back) p) (hmin : ∀ y ∈ front ++ back, x.tD.toNat < y.tD.toNat) :
    Left all (front ++ back) (x.tD.toNat + 1) := by
  have hx : p ≤ x.tD.toNat := by
    have hmem : x ∈ all.filter (fun t => p ≤ t.tD.toNat) := by
      rw [← h]
      simp
    exact of_decide_eq_true (List.mem_filter.mp hmem).2
  have hkeep : (front ++ back).filter (fun t => x.tD.toNat + 1 ≤ t.tD.toNat) = front ++ back :=
    List.filter_eq_self.mpr (fun y hy => decide_eq_true (hmin y hy))
  have hdrop : (front ++ x :: back).filter (fun t => x.tD.toNat + 1 ≤ t.tD.toNat) =
      (front ++ back).filter (fun t => x.tD.toNat + 1 ≤ t.tD.toNat) := by
    simp [List.filter_append]
  rw [Left, ← hkeep, ← hdrop, h, List.filter_filter]
  apply List.filter_congr
  intro t _
  rw [Bool.eq_iff_iff, Bool.and_eq_true, decide_eq_true_eq, decide_eq_true_eq]
  omega

theorem roundValue_left {p : ℕ} {x : TaskStruct} (h : Left all tasks p) (hx : x ∈ tasks) :
    roundValue all tasks x =
      minimalValue (UInt32.ofNat (boundByEntries all x)) (UInt32.ofNat (boundByTasks all x)) := by
  have hp : p ≤ x.tD.toNat := by
    rw [h] at hx
    exact of_decide_eq_true (List.mem_filter.mp hx).2
  have hrank : rank tasks x = rank all x := by
    rw [h, rank, rank, List.countP_filter]
    apply List.countP_congr
    intro t _
    rw [Bool.and_eq_true, decide_eq_true_eq, decide_eq_true_eq, UInt32.lt_iff_toNat_lt]
    omega
  have hlower : tasks.filter (fun t => rank tasks t < rank tasks x) = lowerTasks all x := by
    have hself : tasks.filter (fun t => rank tasks t < rank tasks x) =
        tasks.filter (fun t => x.tD < t.tD) :=
      List.filter_congr (fun t ht => decide_eq_decide.mpr (rank_lt ht))
    rw [hself, h, List.filter_filter, lowerTasks]
    apply List.filter_congr
    intro t _
    rw [Bool.eq_iff_iff, Bool.and_eq_true, decide_eq_true_eq, decide_eq_true_eq,
      UInt32.lt_iff_toNat_lt]
    omega
  have hshared : ((all.filter (fun t => rank all t ≥ rank tasks x)).flatMap
      TaskStruct.resources).map LocalTaskResource.name = sharedNames all x := by
    rw [List.map_flatMap, hrank, sharedNames]
    congr 1
    apply List.filter_congr
    intro t ht
    have hle := (rank_lt (x := x) ht).not
    rw [Nat.not_lt, UInt32.lt_iff_toNat_lt, Nat.not_lt, ← UInt32.le_iff_toNat_le] at hle
    exact decide_eq_decide.mpr hle
  rw [roundValue, blockedByTasks_eq, blockedByResources_eq, hshared, hlower]
  rfl

theorem next_shorter {front back : List TaskStruct} {x : TaskStruct} {fuel : ℕ}
    (htasks : tasks = front ++ x :: back) (hfuel : tasks.length ≤ fuel + 1) :
    (front.getLast?.toList ++ back).Sublist tasks ∧
      (front.getLast?.toList ++ back).length ≤ fuel := by
  have hlen := (kept_sublist front back).length_le
  have htotal := congrArg List.length htasks
  simp only [List.length_append, List.length_cons] at htotal hlen ⊢
  refine ⟨?_, by omega⟩
  rw [htasks]
  exact next_sublist front back x

theorem blockingRounds_rounds (cfg : Config) {fuel : ℕ} (hall : Uninherited all) (h : Uninherited tasks)
    (haddr : (tasks.map TaskStruct.addr).Nodup) (hdeadline : (tasks.map TaskStruct.tD).Nodup)
    (hfuel : tasks.length ≤ fuel) :
    ∃ out, Rounds (fun t : TaskStruct => t.tD.toNat) tasks out ∧
      (blockingRounds cfg all fuel tasks).map Prod.fst = out.map TaskStruct.name ∧
      (InOrder (fun t : TaskStruct => t.tD.toNat) tasks → ∀ p, Left all tasks p →
        blockingRounds cfg all fuel tasks = out.map (fun x => (x.name,
          minimalValue (UInt32.ofNat (boundByEntries all x))
            (UInt32.ofNat (boundByTasks all x))))) := by
  induction fuel generalizing tasks with
  | zero =>
    obtain rfl := List.length_eq_zero_iff.mp (Nat.le_zero.mp hfuel)
    exact ⟨[], Rounds.done, rfl, fun _ _ _ => rfl⟩
  | succ fuel ih =>
    rcases eq_or_ne tasks [] with rfl | hne
    · exact ⟨[], Rounds.done, rfl, fun _ _ _ => rfl⟩
    · obtain ⟨front, x, back, htasks, hmin, hround⟩ :=
        blockingRounds_pick cfg hall h haddr hdeadline hne
      obtain ⟨hsub, hlen⟩ := next_shorter htasks hfuel
      obtain ⟨out, hout, hnames, hvalues⟩ := ih (h.sublist hsub) (haddr.sublist (hsub.map _))
        (hdeadline.sublist (hsub.map _)) hlen
      refine ⟨x :: out, htasks ▸ Rounds.pick hmin hout, ?_, ?_⟩
      · rw [hround, List.map_cons, List.map_cons, hnames]
      · intro horder p hleft
        have hone := getLast_toList ((htasks ▸ horder :).front hmin)
        have hx : x ∈ tasks := by
          rw [htasks]
          simp
        have hnext := (htasks ▸ hleft : Left all (front ++ x :: back) p).next hmin
        rw [hround, roundValue_left hleft hx, List.map_cons,
          hvalues (horder.sublist hsub) _ (by rw [hone]; exact hnext)]

theorem blockingRounds_more {fuel : ℕ} (hall : Uninherited all) (h : Uninherited tasks)
    (haddr : (tasks.map TaskStruct.addr).Nodup) (hdeadline : (tasks.map TaskStruct.tD).Nodup)
    (hfuel : tasks.length ≤ fuel) (extra : ℕ) :
    blockingRounds cfg all (fuel + extra) tasks = blockingRounds cfg all fuel tasks := by
  induction fuel generalizing tasks with
  | zero =>
    obtain rfl := List.length_eq_zero_iff.mp (Nat.le_zero.mp hfuel)
    rw [Nat.zero_add]
    cases extra <;> rfl
  | succ fuel ih =>
    rw [Nat.add_right_comm]
    rcases eq_or_ne tasks [] with rfl | hne
    · rfl
    · obtain ⟨front, x, back, htasks, hmin, hround⟩ :=
        blockingRounds_pick cfg hall h haddr hdeadline hne
      obtain ⟨hsub, hlen⟩ := next_shorter htasks hfuel
      rw [hround, hround, ih (h.sublist hsub) (haddr.sublist (hsub.map _))
        (hdeadline.sublist (hsub.map _)) hlen]

end Rounds

theorem untouchedTasks_map {β : Type} {f : TaskStruct → β} {g : TaskRow → β} (rows : List TaskRow)
    (hcopy : ∀ a t, f (copyNode a t) = f t) (hrow : ∀ row i, f (template row i) = g row) :
    (untouchedTasks rows).map f = rows.map g := by
  have hlist : ∀ (l : List TaskStruct) (a : ℕ), (copyList a l).map f = l.map f := by
    intro l
    induction l with
    | nil => exact fun a => rfl
    | cons t l ih =>
      intro a
      rw [copyList, List.map_cons, List.map_cons, ih, hcopy]
  rw [untouchedTasks, hlist, initial, List.map_map]
  have hcomp : f ∘ (fun e : TaskRow × ℕ => template e.1 e.2) = g ∘ Prod.fst :=
    funext (fun e => hrow e.1 e.2)
  rw [hcomp, ← List.map_map, List.zipIdx_map_fst]

theorem pairs_perm_iff {α : Type} {k : α → String} {f g : α → ℕ} {l l' : List α} (hperm : l.Perm l')
    (hnodup : (l'.map k).Nodup) :
    (l.map (fun x => (k x, f x))).Perm (l'.map (fun x => (k x, g x))) ↔ ∀ x ∈ l', f x = g x := by
  constructor
  · intro h x hx
    have hmem := h.subset (List.mem_map_of_mem (hperm.mem_iff.mpr hx))
    obtain ⟨y, hy, heq⟩ := List.mem_map.mp hmem
    obtain ⟨hk, hv⟩ := Prod.mk.inj heq
    obtain rfl := List.inj_on_of_nodup_map hnodup hy hx hk
    exact hv.symm
  · intro h
    have hsame : l'.map (fun x => (k x, f x)) = l'.map (fun x => (k x, g x)) :=
      List.map_congr_left (fun x hx => by rw [h x hx])
    rw [← hsame]
    exact hperm.map _

def BlockingExact (cfg : Config) (all : List TaskStruct) : Prop :=
  ((blockingTime cfg all).map (fun e => (e.1, e.2.toNat))).Perm
    (all.map (fun x => (x.name, min (boundByTasks all x) (boundByResources all x))))

-- Sums beyond the range of `int` are compared as the wrapped values they become.
def ValueExact (all : List TaskStruct) (x : TaskStruct) : Prop :=
  if boundByTasks all x < 2 ^ 31 ∧ boundByEntries all x < 2 ^ 31 then
    boundByTasks all x ≤ boundByResources all x ∨ boundByEntries all x = boundByResources all x
  else
    (minimalValue (UInt32.ofNat (boundByEntries all x)) (UInt32.ofNat (boundByTasks all x))).toNat =
      min (boundByTasks all x) (boundByResources all x)

theorem valueExact_iff (all : List TaskStruct) (x : TaskStruct) :
    (minimalValue (UInt32.ofNat (boundByEntries all x)) (UInt32.ofNat (boundByTasks all x))).toNat =
        min (boundByTasks all x) (boundByResources all x) ↔ ValueExact all x := by
  have hle := boundByResources_le all x
  rw [ValueExact]
  split
  · rename_i hrange
    rw [minimalValue_toNat hrange.2 hrange.1]
    omega
  · exact Iff.rfl

theorem blocking_time_iff (cfg : Config) (rows : List TaskRow)
    (hnames : (rows.map TaskRow.name).Nodup) (hdeadlines : (rows.map TaskRow.tD).Nodup) :
    (∀ extra, blockingRounds cfg (untouchedTasks rows) ((untouchedTasks rows).length + extra)
      (untouchedTasks rows) = blockingTime cfg (untouchedTasks rows)) ∧
    (BlockingExact cfg (untouchedTasks rows) ↔
      InOrder (fun t : TaskStruct => t.tD.toNat) (untouchedTasks rows) ∧
        ∀ x ∈ untouchedTasks rows, ValueExact (untouchedTasks rows) x) := by
  rw [← untouchedTasks_map (f := TaskStruct.name) rows (fun _ _ => rfl) (fun _ _ => rfl)] at hnames
  rw [← untouchedTasks_map (f := TaskStruct.tD) rows (fun _ _ => rfl) (fun _ _ => rfl)]
    at hdeadlines
  have haddr : ((untouchedTasks rows).map TaskStruct.addr).Nodup := by
    rw [untouchedTasks, map_addr_copyList]
    exact List.nodup_range'
  have hall : Uninherited (untouchedTasks rows) := by
    intro t ht
    obtain ⟨_, _, _, _, hnone⟩ := untouched_row ht
    exact hnone
  have hleft : Left (untouchedTasks rows) (untouchedTasks rows) 0 := by
    rw [Left, List.filter_eq_self.mpr]
    exact fun t _ => decide_eq_true (Nat.zero_le _)
  refine ⟨blockingRounds_more hall hall haddr hdeadlines (le_refl _), ?_⟩
  obtain ⟨out, hout, hnameless, hvalues⟩ :=
    blockingRounds_rounds cfg hall hall haddr hdeadlines (le_refl _)
  have hexact : InOrder (fun t : TaskStruct => t.tD.toNat) (untouchedTasks rows) →
      (BlockingExact cfg (untouchedTasks rows) ↔
        ∀ x ∈ untouchedTasks rows, ValueExact (untouchedTasks rows) x) := by
    intro horder
    rw [BlockingExact, blockingTime, hvalues horder 0 hleft, List.map_map]
    refine (pairs_perm_iff (k := TaskStruct.name) (hout.perm horder) hnames).trans ?_
    exact forall₂_congr (fun x _ => valueExact_iff (untouchedTasks rows) x)
  constructor
  · intro h
    have hlen := h.length_eq
    have hsame := congrArg List.length hnameless
    simp only [blockingTime, List.length_map] at hlen hsame
    have horder := hout.inOrder (hsame.symm.trans hlen)
    exact ⟨horder, (hexact horder).mp h⟩
  · rintro ⟨horder, hvalue⟩
    exact (hexact horder).mpr hvalue

def sharingRows : List TaskRow :=
  [⟨"A", 0, 10, 3, 10, [("R", 0, 2)]⟩, ⟨"B", 0, 20, 4, 20, [("R", 1, 3)]⟩]

theorem blocking_time_sharing :
    (∀ extra, blockingRounds (nokillDm 20) (untouchedTasks sharingRows)
      ((untouchedTasks sharingRows).length + extra) (untouchedTasks sharingRows) =
        blockingTime (nokillDm 20) (untouchedTasks sharingRows)) ∧
    (BlockingExact (nokillDm 20) (untouchedTasks sharingRows) ↔
      InOrder (fun t : TaskStruct => t.tD.toNat) (untouchedTasks sharingRows) ∧
        ∀ x ∈ untouchedTasks sharingRows, ValueExact (untouchedTasks sharingRows) x) :=
  blocking_time_iff (nokillDm 20) sharingRows (by decide) (by decide)

def descendingRows : List TaskRow :=
  [⟨"A", 0, 30, 1, 30, []⟩, ⟨"B", 0, 20, 1, 20, []⟩, ⟨"C", 0, 10, 1, 10, []⟩]

theorem first_task_without_entry :
    ¬∀ (cfg : Config) (rows : List TaskRow), (rows.map TaskRow.name).Nodup →
      (rows.map TaskRow.tD).Nodup → BlockingExact cfg (untouchedTasks rows) := by
  intro h
  have hlen := (h (nokillDm 20) descendingRows (by decide) (by decide)).length_eq
  exact absurd hlen (by decide +kernel)

-- A resource that two entries name counts twice, so that `B` has 6 instead of 3.
example : (blockingTime (nokillDm 20) (untouchedTasks
    [⟨"A", 0, 10, 3, 10, [("R", 0, 2)]⟩, ⟨"B", 0, 20, 4, 20, [("R", 1, 3)]⟩,
      ⟨"C", 0, 30, 4, 30, [("R", 1, 3)]⟩, ⟨"D", 0, 40, 4, 40, [("R", 1, 3)]⟩])).map Prod.snd =
        [3, 6, 3, 0] := by
  decide +kernel

end Simulator
