import HTWGArchive.Simulator.Types

namespace Simulator

def copyNode (addr : ℕ) (t : TaskStruct) : TaskStruct :=
  { t with addr := addr }

def copyList (fresh : ℕ) : List TaskStruct → List TaskStruct
  | [] => []
  | t :: ts => copyNode fresh t :: copyList (fresh + 1) ts

def Sim.structs (σ : Sim) : List TaskStruct :=
  σ.readyQueue ++ σ.blockedQueue ++ σ.detached

def Sim.deref (σ : Sim) (addr : ℕ) : Option TaskStruct :=
  σ.structs.find? (fun t => t.addr = addr)

def updateAt (addr : ℕ) (f : TaskStruct → TaskStruct) (t : TaskStruct) : TaskStruct :=
  if t.addr = addr then f t else t

def Sim.modify (σ : Sim) (addr : ℕ) (f : TaskStruct → TaskStruct) : Sim :=
  { σ with
    readyQueue := σ.readyQueue.map (updateAt addr f)
    blockedQueue := σ.blockedQueue.map (updateAt addr f)
    detached := σ.detached.map (updateAt addr f) }

-- `remove_node_from_list` called on every node to remove while one pass over the list keeps the
-- node visited last as its predecessor. `linked` says that this predecessor is still in the list;
-- when it is not, the pass writes the `next` of a removed node and the visited node stays.
def removeNodesAfter {α : Type} (remove : α → Bool) : Bool → List α → List α
  | _, [] => []
  | linked, x :: xs =>
    if remove x && linked then removeNodesAfter remove false xs
    else x :: removeNodesAfter remove true xs

def removeNodes {α : Type} (remove : α → Bool) : List α → List α
  | [] => []
  | x :: xs =>
    if remove x then removeNodes remove xs
    else x :: removeNodesAfter remove true xs

-- No two neighbours are to be removed behind a node that stays.
def SweepsClean {α : Type} (remove : α → Bool) (xs : List α) : Prop :=
  (xs.dropWhile remove).IsChain (fun x y => ¬(remove x ∧ remove y))

instance {α : Type} (remove : α → Bool) (xs : List α) : Decidable (SweepsClean remove xs) :=
  inferInstanceAs (Decidable (List.IsChain _ _))

section RemoveNodes

variable {α : Type} {remove : α → Bool} {x : α} {xs : List α}

theorem removeNodesAfter_sublist (remove : α → Bool) (linked : Bool) (xs : List α) :
    (removeNodesAfter remove linked xs).Sublist xs := by
  induction xs generalizing linked with
  | nil => exact List.Sublist.refl _
  | cons x xs ih =>
    rw [removeNodesAfter]
    split
    · exact (ih false).cons x
    · exact (ih true).cons_cons x

theorem removeNodes_sublist (remove : α → Bool) (xs : List α) :
    (removeNodes remove xs).Sublist xs := by
  induction xs with
  | nil => exact List.Sublist.refl _
  | cons x xs ih =>
    rw [removeNodes]
    split
    · exact ih.cons x
    · exact (removeNodesAfter_sublist remove true xs).cons_cons x

theorem mem_removeNodesAfter (hkeep : remove x = false) (linked : Bool) (hx : x ∈ xs) :
    x ∈ removeNodesAfter remove linked xs := by
  induction xs generalizing linked with
  | nil => exact absurd hx List.not_mem_nil
  | cons y ys ih =>
    rw [removeNodesAfter]
    rcases List.mem_cons.mp hx with rfl | hx
    · simp [hkeep]
    · split
      · exact ih false hx
      · exact List.mem_cons_of_mem y (ih true hx)

theorem mem_removeNodes (hkeep : remove x = false) (hx : x ∈ xs) : x ∈ removeNodes remove xs := by
  induction xs with
  | nil => exact absurd hx List.not_mem_nil
  | cons y ys ih =>
    rw [removeNodes]
    rcases List.mem_cons.mp hx with rfl | hx
    · simp [hkeep]
    · split
      · exact ih hx
      · exact List.mem_cons_of_mem y (mem_removeNodesAfter hkeep true hx)

-- A node to be removed meets a predecessor that is still linked.
theorem removeNodesAfter_eq_filter (linked : Bool)
    (hchain : xs.IsChain (fun x y => ¬(remove x ∧ remove y)))
    (hhead : linked = false → ∀ y ∈ xs.head?, remove y = false) :
    removeNodesAfter remove linked xs = xs.filter (fun y => !remove y) := by
  induction xs generalizing linked with
  | nil => rfl
  | cons y ys ih =>
    have htail : ys.IsChain (fun x y => ¬(remove x ∧ remove y)) := hchain.tail
    rw [removeNodesAfter]
    cases hy : remove y with
    | false =>
      have hrest := ih true htail (by simp)
      simp [hy, hrest]
    | true =>
      have hlinked : linked = true := by
        cases linked with
        | true => rfl
        | false => simp [hy] at hhead
      have hnext : ∀ z ∈ ys.head?, remove z = false := by
        intro z hz
        cases ys with
        | nil => simp at hz
        | cons w ws =>
          obtain rfl : w = z := by simpa using hz
          simpa [hy] using (List.isChain_cons_cons.mp hchain).1
      have hrest := ih false htail (fun _ => hnext)
      simp [hy, hlinked, hrest]

theorem SweepsClean.removeNodes_eq (h : SweepsClean remove xs) :
    removeNodes remove xs = xs.filter (fun y => !remove y) := by
  induction xs with
  | nil => rfl
  | cons y ys ih =>
    rw [removeNodes]
    cases hy : remove y with
    | true =>
      have htail : SweepsClean remove ys := by simpa [SweepsClean, hy] using h
      simpa [hy] using ih htail
    | false =>
      have hchain : (y :: ys).IsChain (fun x y => ¬(remove x ∧ remove y)) := by
        simpa [SweepsClean, hy] using h
      have hrest := removeNodesAfter_eq_filter true hchain.tail (by simp)
      simpa [hy] using hrest

theorem sweepsClean_of_pairwise (h : xs.Pairwise (fun x y => ¬(remove x ∧ remove y))) :
    SweepsClean remove xs :=
  (h.sublist (List.dropWhile_sublist remove)).isChain

theorem sweepsClean_map {β : Type} {f : β → α} {ys : List β} :
    SweepsClean remove (ys.map f) ↔ SweepsClean (remove ∘ f) ys := by
  rw [SweepsClean, List.dropWhile_map, List.isChain_map]
  rfl

end RemoveNodes

def removeNodeFromListNoprev (node : ℕ) :
    Option LocalTaskResource → List LocalTaskResource → List LocalTaskResource
  | head, [] => head.toList
  | head, e :: es =>
    if e.node = node then head.toList ++ es
    else removeNodeFromListNoprev node (some e) es

def due (tick : UInt32) (t : TaskStruct) : Bool :=
  (t.tPh + t.tPer ≤ tick && (tick - t.tPh) % t.tPer = 0) ||
    (tick < t.tPh + t.tPer && tick = t.tPh)

-- `(tick - t_ph) % t_per` is evaluated with `t_per` zero.
def dividesByZero (tick : UInt32) (t : TaskStruct) : Bool :=
  t.tPh + t.tPer ≤ tick && t.tPer = 0

def handlePendingQueue (σ : Sim) : Option Sim :=
  if σ.tasks.any (dividesByZero σ.tick) then none
  else
    let released := σ.tasks.filter (due σ.tick)
    some { σ with
      tasks := σ.tasks.map
        (fun t => if due σ.tick t then { t with taskNum := t.taskNum + 1 } else t)
      pendingQueue := σ.pendingQueue ++ copyList σ.fresh released
      fresh := σ.fresh + released.length }

def handleReadyQueue (σ : Sim) : Sim :=
  { σ with
    readyQueue := σ.readyQueue ++ copyList σ.fresh σ.pendingQueue
    fresh := σ.fresh + σ.pendingQueue.length }

def chainFrom (inherited : List InheritedNode) : ℕ → Option ℕ → List ℕ
  | 0, _ => []
  | _, none => []
  | fuel + 1, some n =>
    match inherited[n]? with
    | none => []
    | some node => n :: chainFrom inherited fuel node.next

def chain (inherited : List InheritedNode) (head : Option ℕ) : List ℕ :=
  chainFrom inherited inherited.length head

def inheritedStats (inherited : List InheritedNode) (head : Option ℕ) : List LocalTaskStats :=
  (chain inherited head).filterMap (fun n => inherited[n]?.map InheritedNode.localTaskStats)

def prioritizeTaskDm (cfg : Config) (inherited : List InheritedNode) (task task2 : TaskStruct) :
    Bool :=
  let minDeadline :=
    if cfg.flagPip then
      (inheritedStats inherited task.taskPriorities).foldl
        (fun m s => if m > s.tD then s.tD else m) task.tD
    else task.tD
  minDeadline > task2.tD

-- `0 >= t_remaining_d` of an unsigned value holds for zero only.
def prioritizeTaskEdf (cfg : Config) (inherited : List InheritedNode) (task task2 : TaskStruct) :
    Bool :=
  let minRemainingDeadline :=
    if cfg.flagPip then
      (inheritedStats inherited task.taskPriorities).foldl
        (fun m s => if m > s.tRemainingD && 0 ≥ s.tRemainingD then s.tRemainingD else m)
        task.localStats.tRemainingD
    else task.localStats.tRemainingD
  minRemainingDeadline > task2.localStats.tRemainingD

def prioritizeTask (cfg : Config) :
    List InheritedNode → TaskStruct → TaskStruct → Bool :=
  match cfg.scheduler with
  | .dm => prioritizeTaskDm cfg
  | .edf => prioritizeTaskEdf cfg

def prioritizeTasks (cfg : Config) (inherited : List InheritedNode) (queue : List TaskStruct) :
    List TaskStruct :=
  queue.map (fun outer =>
    { outer with
      taskPriority := (queue.filter (fun inner => prioritizeTask cfg inherited inner outer)).length })

def pickNextTask : List TaskStruct → Option TaskStruct
  | [] => none
  | t :: ts =>
    some (ts.foldl (fun next x => if next.taskPriority < x.taskPriority then x else next) t)

def missed (t : TaskStruct) : Bool :=
  0 ≥ t.localStats.tRemainingD && 0 < t.tRemainingE

-- The flags a miss sets do not enter the test, so one pass over the queue sees the misses of the
-- queue as it was at the start of the pass.
def deadlineFlag (cfg : Config) (queue : List TaskStruct) (t : TaskStruct) : Option TaskState :=
  if cfg.flagKill then
    if queue.any (fun x => missed x && x.name = t.name) then some .killed else none
  else if cfg.flagNokill && missed t then some .removed
  else none

def handleDeadline (cfg : Config) (queue : List TaskStruct) (t : TaskStruct) : TaskStruct :=
  match deadlineFlag cfg queue t with
  | some flag => { t with taskState := flag }
  | none => t

def deadlineStatus (cfg : Config) (t : TaskStruct) : Option Status :=
  if missed t then
    if cfg.flagKill then some (.aborted t.name t.taskNum)
    else if cfg.flagNokill then some (.missed t.name t.taskNum)
    else none
  else none

def decrementDeadline (t : TaskStruct) : TaskStruct :=
  { t with localStats := { t.localStats with tRemainingD := t.localStats.tRemainingD - 1 } }

def decrementNode (node : InheritedNode) : InheritedNode :=
  { node with
    localTaskStats :=
      { node.localTaskStats with tRemainingD := node.localTaskStats.tRemainingD - 1 } }

def decrementInherited (inherited : List InheritedNode) (t : TaskStruct) : List InheritedNode :=
  (chain inherited t.taskPriorities).foldl (fun heap n => heap.modify n decrementNode) inherited

def handleDeadlineQueue (cfg : Config) (queue : List TaskStruct) : List TaskStruct :=
  queue.map (fun t => decrementDeadline (handleDeadline cfg queue t))

def handleDeadlineQueues (cfg : Config) (σ : Sim) : Sim :=
  { σ with
    readyQueue := handleDeadlineQueue cfg σ.readyQueue
    blockedQueue := handleDeadlineQueue cfg σ.blockedQueue
    inherited := (σ.readyQueue ++ σ.blockedQueue).foldl decrementInherited σ.inherited
    actionsStatus :=
      σ.actionsStatus ++ (σ.readyQueue ++ σ.blockedQueue).filterMap (deadlineStatus cfg) }

end Simulator
