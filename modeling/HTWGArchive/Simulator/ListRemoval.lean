import HTWGArchive.Library.LinkedChain
import HTWGArchive.Simulator.Realtime

namespace ListRemoval

open LinkedChain Simulator

-- The pointer variables of the callers and the `next` field of every node.
structure Memory (V : Type) where
  pointer : V → Option ℕ
  next : ℕ → Option ℕ

variable {V : Type} [DecidableEq V]

def Memory.set (σ : Memory V) (x : V) (value : Option ℕ) : Memory V :=
  { σ with pointer := Function.update σ.pointer x value }

-- `list` and `prev` are references to pointer variables; a null pointer in `prev` is an error.
def removeNodeFromList (σ : Memory V) (list : V) (nodeToRemove : ℕ) (prev : V) :
    Option (Memory V) :=
  if σ.pointer list = some nodeToRemove then
    let σ := σ.set list (σ.next nodeToRemove)
    some (σ.set prev (σ.pointer list))
  else do
    let prevNode ← σ.pointer prev
    return { σ with next := Function.update σ.next prevNode (σ.next nodeToRemove) }

-- The loop over `tmp_list`; `tmp_prev` refers to the caller's head throughout.
def noprevLoop (list : V) (nodeToRemove : ℕ) : ℕ → Memory V → Option ℕ → Option (Memory V)
  | _, σ, none => some σ
  | 0, _, some _ => none
  | fuel + 1, σ, some tmpList =>
    if tmpList = nodeToRemove then removeNodeFromList σ list nodeToRemove list
    else
      let σ := σ.set list (some tmpList)
      noprevLoop list nodeToRemove fuel σ (σ.next tmpList)

def removeNodeFromListNoprev (fuel : ℕ) (σ : Memory V) (list : V) (nodeToRemove : ℕ) :
    Option (Memory V) :=
  noprevLoop list nodeToRemove fuel σ (σ.pointer list)

-- The nodes the caller's head leads to.
def Holds (σ : Memory V) (list : V) (nodes : List ℕ) : Prop :=
  Chain σ.next (σ.pointer list) nodes

-- The predecessor and what follows the node.
def remains (node : ℕ) (nodes : List ℕ) : List ℕ :=
  (nodes.takeWhile (· ≠ node)).getLast?.toList ++ (nodes.dropWhile (· ≠ node)).tail

variable {σ : Memory V} {list : V} {node x : ℕ} {nodes : List ℕ}

theorem remains_self (node : ℕ) (nodes : List ℕ) : remains node (node :: nodes) = nodes := by
  simp [remains]

theorem remains_single (h : x ≠ node) : remains node [x] = [x] := by
  simp [remains, h]

theorem remains_second (h : x ≠ node) (nodes : List ℕ) :
    remains node (x :: node :: nodes) = x :: nodes := by
  simp [remains, h]

theorem remains_step {y : ℕ} (hx : x ≠ node) (hy : y ≠ node) (nodes : List ℕ) :
    remains node (x :: y :: nodes) = remains node (y :: nodes) := by
  simp [remains, hx, hy]

theorem holds_set {value : Option ℕ} (h : Chain σ.next value nodes) :
    Holds (σ.set list value) list nodes := by
  simpa [Holds, Memory.set] using h

-- From the second round on the head variable holds the node before `tmp_list`.
theorem noprevLoop_holds {fuel : ℕ} (hσ : Holds σ list (x :: nodes)) (hx : x ≠ node)
    (hfuel : nodes.length ≤ fuel) :
    ∃ σ', noprevLoop list node fuel σ (σ.next x) = some σ' ∧
      Holds σ' list (remains node (x :: nodes)) := by
  induction nodes generalizing σ x fuel with
  | nil =>
    have hnext := chain_nil.mp (chain_cons.mp hσ).2
    refine ⟨σ, ?_, ?_⟩
    · rw [hnext, noprevLoop]
    · rwa [remains_single hx]
  | cons y nodes ih =>
    obtain ⟨hhead, hrest⟩ := chain_cons.mp hσ
    have hnext := (chain_cons.mp hrest).1
    cases fuel with
    | zero => simp at hfuel
    | succ fuel =>
      rw [hnext, noprevLoop]
      split
      · rename_i hy
        subst hy
        have hne : σ.pointer list ≠ some y := by
          rw [hhead]
          exact fun heq => hx (Option.some.inj heq)
        refine ⟨{ σ with next := Function.update σ.next x (σ.next y) }, ?_, ?_⟩
        · rw [removeNodeFromList, if_neg hne, hhead]
          rfl
        · rw [remains_second hx]
          exact Chain.unlink hσ
      · rename_i hy
        rw [hnext] at hrest
        have hset : Holds (σ.set list (some y)) list (y :: nodes) := holds_set hrest
        rw [remains_step hx hy]
        exact ih hset hy (by simpa using hfuel)

theorem removeNodeFromListNoprev_holds {fuel : ℕ} (hσ : Holds σ list nodes)
    (hfuel : nodes.length ≤ fuel) :
    ∃ σ', removeNodeFromListNoprev fuel σ list node = some σ' ∧
      Holds σ' list (remains node nodes) := by
  unfold removeNodeFromListNoprev
  cases nodes with
  | nil =>
    have hnull := chain_nil.mp hσ
    refine ⟨σ, ?_, hσ⟩
    rw [hnull, noprevLoop]
  | cons x nodes =>
    obtain ⟨hhead, hrest⟩ := chain_cons.mp hσ
    cases fuel with
    | zero => simp at hfuel
    | succ fuel =>
      rw [hhead, noprevLoop]
      split
      · rename_i hx
        subst hx
        rw [removeNodeFromList, if_pos hhead, remains_self]
        refine ⟨_, rfl, holds_set ?_⟩
        simpa [Memory.set] using hrest
      · rename_i hx
        have hset : Holds (σ.set list (some x)) list (x :: nodes) := holds_set (Chain.cons hrest)
        exact noprevLoop_holds hset hx (by simpa using hfuel)

theorem remains_length_le (node : ℕ) (nodes : List ℕ) :
    (remains node nodes).length ≤ (nodes.erase node).length := by
  induction nodes with
  | nil => simp [remains]
  | cons x nodes ih =>
    rcases eq_or_ne x node with rfl | hx
    · rw [remains_self, List.erase_cons_head]
    · rw [List.erase_cons_tail (by simpa using hx), List.length_cons]
      cases nodes with
      | nil => simp [remains_single hx]
      | cons y nodes =>
        rcases eq_or_ne y node with rfl | hy
        · simp [remains_second hx]
        · rw [remains_step hx hy]
          exact Nat.le_succ_of_le ih

-- Beyond the second node the predecessors of the predecessor are lost.
theorem remains_eq_erase : remains node nodes = nodes.erase node ↔ nodes.idxOf node ≤ 1 := by
  cases nodes with
  | nil => simp [remains]
  | cons x nodes =>
    rcases eq_or_ne x node with rfl | hx
    · simp [remains_self]
    · cases nodes with
      | nil => simp [remains_single hx, hx]
      | cons y nodes =>
        rcases eq_or_ne y node with rfl | hy
        · simp [remains_second hx, hx]
        · have hlost := remains_length_le node (y :: nodes)
          have hshort : remains node (x :: y :: nodes) ≠ (x :: y :: nodes).erase node := by
            rw [remains_step hx hy, List.erase_cons_tail (by simpa using hx)]
            intro heq
            rw [heq, List.length_cons] at hlost
            omega
          have hfar : 1 < (x :: y :: nodes).idxOf node := by
            simp [hx, hy]
          exact iff_of_false hshort (Nat.not_le.mpr hfar)

section ListModels

variable {E : Type} {label : E → ℕ}

-- The lists of the simulator drop what the pointers drop.
theorem map_label_remains (remove : Option E → List E → List E) (hnil : ∀ head, remove head [] = head.toList)
    (hcons : ∀ head e es, remove head (e :: es) =
      if label e = node then head.toList ++ es else remove (some e) es)
    (head : Option E) (es : List E) (hhead : ∀ e ∈ head, label e ≠ node) :
    (remove head es).map label = remains node ((head.toList ++ es).map label) := by
  induction es generalizing head with
  | nil =>
    rw [hnil]
    cases head with
    | none => rfl
    | some e => simp [remains_single (hhead e rfl)]
  | cons e es ih =>
    rw [hcons]
    split
    · rename_i he
      subst he
      cases head with
      | none => simp [remains_self]
      | some p => simp [remains_second (hhead p rfl)]
    · rename_i he
      rw [ih (some e) (by simpa using he)]
      cases head with
      | none => rfl
      | some p => simp [remains_step (hhead p rfl) he]

variable {fuel : ℕ} {es : List LocalTaskResource} {tasks : List TaskStruct}

theorem resources_refined (hσ : Holds σ list (es.map (·.node))) (hfuel : es.length ≤ fuel) :
    ∃ σ', removeNodeFromListNoprev fuel σ list node = some σ' ∧
      Holds σ' list ((Simulator.removeNodeFromListNoprev node none es).map (·.node)) := by
  rw [map_label_remains (Simulator.removeNodeFromListNoprev node) (fun _ => rfl)
    (fun _ _ _ => rfl) none es (by simp)]
  exact removeNodeFromListNoprev_holds hσ (by simpa using hfuel)

theorem tasks_refined (hσ : Holds σ list (tasks.map (·.addr))) (hfuel : tasks.length ≤ fuel) :
    ∃ σ', removeNodeFromListNoprev fuel σ list node = some σ' ∧
      Holds σ' list ((removeTaskNoprev node none tasks).map (·.addr)) := by
  rw [map_label_remains (removeTaskNoprev node) (fun _ => rfl)
    (fun _ _ _ => rfl) none tasks (by simp)]
  exact removeNodeFromListNoprev_holds hσ (by simpa using hfuel)

end ListModels

theorem noprev_removes_iff {fuel : ℕ} (hσ : Holds σ list nodes) (hfuel : nodes.length ≤ fuel) :
    (∃ σ', removeNodeFromListNoprev fuel σ list node = some σ' ∧
      Holds σ' list (nodes.erase node)) ↔ nodes.idxOf node ≤ 1 := by
  obtain ⟨σ', hrun, hleft⟩ : ∃ σ', removeNodeFromListNoprev fuel σ list node = some σ' ∧
      Holds σ' list (remains node nodes) := removeNodeFromListNoprev_holds hσ hfuel
  rw [← remains_eq_erase]
  constructor
  · rintro ⟨σ'', hrun'', hleft''⟩
    obtain rfl := Option.some.inj (hrun.symm.trans hrun'')
    exact hleft.unique hleft''
  · intro heq
    exact ⟨σ', hrun, heq ▸ hleft⟩

def threeNodes : Memory Unit where
  pointer := fun _ => some 1
  next := fun node => if node < 3 then some (node + 1) else none

theorem threeNodes_holds : Holds threeNodes () [1, 2, 3] :=
  Chain.cons (Chain.cons (Chain.cons Chain.nil))

theorem noprev_removes_second :
    ∃ σ', removeNodeFromListNoprev 3 threeNodes () 2 = some σ' ∧ Holds σ' () [1, 3] :=
  (noprev_removes_iff threeNodes_holds (by decide)).mpr (by decide)

-- The caller's head ends up at the second node.
theorem noprev_loses_first :
    Holds threeNodes () [1, 2, 3] ∧
      ∃ σ', removeNodeFromListNoprev 3 threeNodes () 3 = some σ' ∧ Holds σ' () [2] ∧
        ¬Holds σ' () ([1, 2, 3].erase 3) := by
  obtain ⟨σ', hrun, hleft⟩ : ∃ σ', removeNodeFromListNoprev 3 threeNodes () 3 = some σ' ∧
      Holds σ' () [2] := removeNodeFromListNoprev_holds threeNodes_holds (Nat.le_refl 3)
  refine ⟨threeNodes_holds, σ', hrun, hleft, ?_⟩
  intro hheld
  exact absurd (hleft.unique hheld) (by decide)

end ListRemoval
