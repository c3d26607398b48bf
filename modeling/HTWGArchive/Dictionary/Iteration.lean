import HTWGArchive.Dictionary.ParentLinks

namespace BinaryTreeDictionary

variable {K V : Type}

inductive Fault where
  | nullPointer
  | outOfFuel
  deriving DecidableEq, Repr

namespace Node

def cells : Node K V → List (Cell K V)
  | null => []
  | node p pp _ e l r => l.cells ++ ⟨p, pp, l.ref?, r.ref?, e⟩ :: r.cells

theorem cells_refs (t : Node K V) : t.cells.map (·.ref) = t.refs := by
  induction t with
  | null => rfl
  | node p pp h e l r ihl ihr => simp [cells, refs, ihl, ihr]

theorem ref?_mem {t : Node K V} {p : Ref} (h : t.ref? = some p) : p ∈ t.refs := by
  cases t with
  | null => cases h
  | node =>
    obtain rfl : _ = p := Option.some.inj h
    simp [refs]

end Node

open Node

namespace Dictionary

def cell (d : Dictionary K V) (p : Ref) : Except Fault (Cell K V) :=
  match (d.root.cells ++ d.unlinked).find? (·.ref = p) with
  | some c => .ok c
  | none => .error .nullPointer

def leftMostDescendant (d : Dictionary K V) : ℕ → Ref → Except Fault Ref
  | 0, _ => .error .outOfFuel
  | fuel + 1, p => do
    let c ← d.cell p
    match c.left with
    | some l => d.leftMostDescendant fuel l
    | none => .ok p

def parentOfLeftMostAncestor (d : Dictionary K V) : ℕ → Ref → Except Fault (Option Ref)
  | 0, _ => .error .outOfFuel
  | fuel + 1, p => do
    let c ← d.cell p
    match c.parent with
    | none => .ok none
    | some q =>
      let cq ← d.cell q
      if cq.right = some p then d.parentOfLeftMostAncestor fuel q else .ok (some q)

def hasNext (d : Dictionary K V) (fuel : ℕ) (head : Option Ref) : Except Fault (Option Ref) :=
  match head, d.root.ref? with
  | none, some r => do
    let p ← d.leftMostDescendant fuel r
    .ok (some p)
  | none, none => .error .nullPointer
  | some p, _ => do
    let c ← d.cell p
    match c.right with
    | some q =>
      let s ← d.leftMostDescendant fuel q
      .ok (some s)
    | none => d.parentOfLeftMostAncestor fuel p

def visit (d : Dictionary K V) (fuel : ℕ) : ℕ → Option Ref → Except Fault (List (Entry K V))
  | 0, _ => .error .outOfFuel
  | _ + 1, none => .ok []
  | n + 1, some p => do
    let c ← d.cell p
    let h ← d.hasNext fuel (some p)
    let es ← d.visit fuel n h
    .ok (c.e :: es)

def iterate (d : Dictionary K V) (fuel : ℕ) : Except Fault (List (Entry K V)) := do
  let h ← d.hasNext fuel none
  d.visit fuel fuel h

structure Holds (d : Dictionary K V) (t : Node K V) : Prop where
  nodup : t.refs.Nodup
  cell : ∀ c ∈ t.cells, d.cell c.ref = .ok c

theorem find_cells {cs rest : List (Cell K V)} (hnd : (cs.map (·.ref)).Nodup) {c : Cell K V}
    (hc : c ∈ cs) : (cs ++ rest).find? (·.ref = c.ref) = some c := by
  induction cs with
  | nil => cases hc
  | cons x xs ih =>
    obtain ⟨hx, hnd'⟩ := List.nodup_cons.mp hnd
    rcases List.mem_cons.mp hc with rfl | hc'
    · simp
    · have hne : x.ref ≠ c.ref := by
        intro he
        apply hx
        exact List.mem_map.mpr ⟨c, hc', he.symm⟩
      simpa [hne] using ih hnd' hc'

theorem holds_root {d : Dictionary K V} (hnd : d.root.refs.Nodup) : d.Holds d.root where
  nodup := hnd
  cell c hc := by
    rw [Dictionary.cell, find_cells (by rwa [cells_refs]) hc]

section Walk

variable {d : Dictionary K V} {p : Ref} {pp : Option Ref} {h : Int} {e : Entry K V}
  {l r : Node K V}

theorem Holds.here (ht : d.Holds (node p pp h e l r)) :
    d.cell p = .ok ⟨p, pp, l.ref?, r.ref?, e⟩ :=
  ht.cell ⟨p, pp, l.ref?, r.ref?, e⟩ (by simp [cells])

theorem Holds.left (ht : d.Holds (node p pp h e l r)) : d.Holds l where
  nodup := (List.nodup_append.mp ht.nodup).1
  cell c hc := ht.cell c (by simp [cells, hc])

theorem Holds.right (ht : d.Holds (node p pp h e l r)) : d.Holds r where
  nodup := (List.nodup_cons.mp (List.nodup_append.mp ht.nodup).2.1).2
  cell c hc := ht.cell c (by simp [cells, hc])

theorem Holds.children_ne (ht : d.Holds (node p pp h e l r)) {x y : Ref}
    (hx : l.ref? = some x) (hy : r.ref? = some y) : x ≠ y := by
  intro hxy
  refine (List.nodup_append.mp ht.nodup).2.2 x (ref?_mem hx) y ?_ hxy
  exact List.mem_cons_of_mem p (ref?_mem hy)

def ClimbsTo (d : Dictionary K V) (p : Ref) (o : Option Ref) (steps : ℕ) : Prop :=
  ∀ fuel, steps < fuel → d.parentOfLeftMostAncestor fuel p = .ok o

theorem climbsTo_left (ht : d.Holds (node p pp h e l r)) (hlink : Linked (some p) l) {x : Ref}
    (hx : l.ref? = some x) : ClimbsTo d x (some p) 0 := by
  intro fuel hf
  obtain ⟨n, rfl⟩ := Nat.exists_eq_succ_of_ne_zero hf.ne'
  cases l with
  | null => cases hx
  | node y yp yh ye yl yr =>
    obtain rfl : y = x := Option.some.inj hx
    have hne : r.ref? ≠ some y := fun hr => ht.children_ne hx hr rfl
    have hyp : yp = some p := hlink.1
    simp [parentOfLeftMostAncestor, ht.left.here, hyp, ht.here, hne, bind, Except.bind]

theorem climbsTo_right (ht : d.Holds (node p pp h e l r)) (hlink : Linked (some p) r) {x : Ref}
    (hx : r.ref? = some x) {o : Option Ref} {k : ℕ} (hp : ClimbsTo d p o k) :
    ClimbsTo d x o (k + 1) := by
  intro fuel hf
  obtain ⟨n, rfl⟩ := Nat.exists_eq_succ_of_ne_zero (Nat.ne_of_gt (by omega : 0 < fuel))
  cases r with
  | null => cases hx
  | node y yp yh ye yl yr =>
    obtain rfl : y = x := Option.some.inj hx
    have hyp : yp = some p := hlink.1
    have hup := hp n (by omega)
    simp [parentOfLeftMostAncestor, ht.right.here, hyp, ht.here, hup, bind, Except.bind,
      ref?]

theorem climbsTo_root {p : Ref} {h : Int} {e : Entry K V} {l r : Node K V}
    (ht : d.Holds (node p none h e l r)) : ClimbsTo d p none 0 := by
  intro fuel hf
  obtain ⟨n, rfl⟩ := Nat.exists_eq_succ_of_ne_zero hf.ne'
  simp [parentOfLeftMostAncestor, ht.here, bind, Except.bind]

end Walk

def first : Node K V → Option Ref
  | .null => none
  | .node p _ _ _ l _ => if l.isNull then some p else first l

theorem leftMostDescendant_eq {d : Dictionary K V} {t : Node K V} (ht : d.Holds t) {x : Ref}
    (hx : t.ref? = some x) {fuel : ℕ} (hf : t.entries.length ≤ fuel) :
    ∃ y, d.leftMostDescendant fuel x = .ok y ∧ first t = some y := by
  induction t generalizing x fuel with
  | null => cases hx
  | node p pp h e l r ihl _ =>
    obtain rfl : p = x := Option.some.inj hx
    simp only [entries, List.length_append, List.length_cons] at hf
    obtain ⟨n, rfl⟩ := Nat.exists_eq_succ_of_ne_zero (Nat.ne_of_gt (by omega : 0 < fuel))
    cases l with
    | null => exact ⟨p, by simp [leftMostDescendant, ht.here, bind, Except.bind, ref?], rfl⟩
    | node q qp qh qe ql qr =>
      obtain ⟨y, hy, hfirst⟩ := ihl ht.left rfl (show _ ≤ n by omega)
      exact ⟨y, by simp [leftMostDescendant, ht.here, bind, Except.bind, ref?, hy], hfirst⟩

theorem hasNext_right {d : Dictionary K V} {p : Ref} {pp : Option Ref} {h : Int} {e : Entry K V}
    {l r : Node K V} (ht : d.Holds (node p pp h e l r)) (hr : r ≠ null) {fuel : ℕ}
    (hf : r.entries.length ≤ fuel) : d.hasNext fuel (some p) = .ok (first r) := by
  cases r with
  | null => exact absurd rfl hr
  | node q qp qh qe ql qr =>
    obtain ⟨y, hy, hfirst⟩ := leftMostDescendant_eq ht.right rfl hf
    simp [hasNext, ht.here, ref?, hy, hfirst, bind, Except.bind]

theorem hasNext_up {d : Dictionary K V} {p : Ref} {pp : Option Ref} {h : Int} {e : Entry K V}
    {l : Node K V} (ht : d.Holds (node p pp h e l null)) {o : Option Ref} {k : ℕ}
    (hp : ClimbsTo d p o k) {fuel : ℕ} (hf : k < fuel) : d.hasNext fuel (some p) = .ok o := by
  simp [hasNext, ht.here, ref?, hp fuel hf, bind, Except.bind]

theorem hasNext_start {d : Dictionary K V} (ht : d.Holds d.root) (hr : d.root ≠ null) {fuel : ℕ}
    (hf : d.root.entries.length ≤ fuel) : d.hasNext fuel none = .ok (first d.root) := by
  have hx : ∃ x, d.root.ref? = some x := by
    cases h : d.root with
    | null => exact absurd h hr
    | node p => exact ⟨p, rfl⟩
  obtain ⟨x, hx⟩ := hx
  obtain ⟨y, hy, hfirst⟩ := leftMostDescendant_eq ht hx hf
  simp [hasNext, hx, hy, hfirst, bind, Except.bind]

def prepend (es : List (Entry K V)) (x : Except Fault (List (Entry K V))) :
    Except Fault (List (Entry K V)) :=
  x.map (es ++ ·)

theorem prepend_prepend (xs ys : List (Entry K V)) (x : Except Fault (List (Entry K V))) :
    prepend xs (prepend ys x) = prepend (xs ++ ys) x := by
  cases x <;> simp [prepend, Except.map]

theorem visit_some {d : Dictionary K V} {p : Ref} {pp : Option Ref} {h : Int} {e : Entry K V}
    {l r : Node K V} (ht : d.Holds (node p pp h e l r)) {fuel n : ℕ} {o : Option Ref}
    (hnext : d.hasNext fuel (some p) = .ok o) :
    d.visit fuel (n + 1) (some p) = prepend [e] (d.visit fuel n o) := by
  simp only [visit, ht.here, hnext, bind, Except.bind, prepend]
  cases d.visit fuel n o <;> rfl

-- `o` is where the climb from the root of the subtree ends, that is, the node visited
-- right after the subtree.
theorem visit_subtree {d : Dictionary K V} {q : Option Ref} {t : Node K V} (ht : d.Holds t)
    (hlink : Linked q t) {x : Ref} (hx : t.ref? = some x) {o : Option Ref} {k : ℕ}
    (hup : ClimbsTo d x o k) {fuel : ℕ} (hf : k + t.entries.length ≤ fuel) (n : ℕ) :
    d.visit fuel (t.entries.length + n) (first t) = prepend t.entries (d.visit fuel n o) := by
  induction t generalizing q x o k n with
  | null => cases hx
  | node p pp h e l r ihl ihr =>
    obtain rfl : p = x := Option.some.inj hx
    simp only [entries, List.length_append, List.length_cons] at hf
    have hhere : ∀ m, d.visit fuel (r.entries.length + 1 + m) (some p) =
        prepend (e :: r.entries) (d.visit fuel m o) := by
      intro m
      rw [Nat.add_right_comm]
      by_cases hr : r = null
      · subst hr
        have hnext := hasNext_up ht hup (show _ < fuel by omega)
        simpa [entries] using visit_some ht hnext (n := m)
      · have hnext := hasNext_right ht hr (show _ ≤ fuel by omega)
        rw [visit_some ht hnext]
        cases r with
        | null => exact absurd rfl hr
        | node y =>
          have hright := climbsTo_right ht hlink.2.2 rfl hup
          rw [ihr ht.right hlink.2.2 rfl hright (by omega) m, prepend_prepend]
          rfl
    cases l with
    | null => simpa [entries, first, isNull] using hhere n
    | node y =>
      have hleft := climbsTo_left ht hlink.2.1 rfl
      have hl := ihl ht.left hlink.2.1 rfl hleft (by omega) (r.entries.length + 1 + n)
      rw [hhere n, prepend_prepend] at hl
      simpa only [entries, first, isNull, List.length_append, List.length_cons, Nat.add_assoc,
        Bool.false_eq_true, if_false] using hl

theorem iterate_eq {d : Dictionary K V} (hnd : d.root.refs.Nodup) (hlink : Linked none d.root)
    (hr : d.root ≠ null) {fuel : ℕ} (hf : d.root.entries.length < fuel) :
    d.iterate fuel = .ok d.root.entries := by
  have ht := holds_root hnd
  simp only [iterate, hasNext_start ht hr (Nat.le_of_lt hf), bind, Except.bind]
  obtain ⟨n, rfl⟩ := Nat.exists_eq_add_of_lt hf
  have hx : ∃ x, d.root.ref? = some x ∧ ClimbsTo d x none 0 := by
    cases h : d.root with
    | null => exact absurd h hr
    | node p pp ht' e l r =>
      rw [h] at ht hlink
      obtain rfl : pp = none := hlink.1
      exact ⟨p, rfl, climbsTo_root ht⟩
  obtain ⟨x, hx, hup⟩ := hx
  have hv := visit_subtree ht hlink hx hup
    (show _ ≤ d.root.entries.length + n + 1 by omega) (n + 1)
  rw [← Nat.add_assoc] at hv
  rw [hv]
  simp [visit, prepend, Except.map]

theorem iterate_empty {d : Dictionary K V} (hr : d.root = null) (fuel : ℕ) :
    d.iterate fuel = .error .nullPointer := by
  simp [iterate, hasNext, hr, ref?, bind, Except.bind]

variable [LinearOrder K]

structure Identified (d : Dictionary K V) : Prop where
  nodup : d.root.refs.Nodup
  below : ∀ x ∈ d.root.refs, x < d.fresh

omit [LinearOrder K] in
theorem identified_empty : Identified (empty : Dictionary K V) :=
  ⟨List.nodup_nil, fun _ hx => absurd hx List.not_mem_nil⟩

theorem Identified.insert {d : Dictionary K V} (hd : Identified d) (k : K) (v : V) :
    Identified (d.insert k v).1 := by
  have hroot : (d.insert k v).1.root.refs = (insertR ⟨k, v⟩ d.root d.toFields).1.refs :=
    refs_setParent _ _
  have hfresh : (d.insert k v).1.fresh = (insertR ⟨k, v⟩ d.root d.toFields).2.fresh := rfl
  rcases insertR_refs ⟨k, v⟩ d.root d.toFields with ⟨hr, hf⟩ | ⟨a, b, hab, hr, hf⟩
  · exact ⟨by rw [hroot, hr]; exact hd.nodup, by rw [hroot, hfresh, hr, hf]; exact hd.below⟩
  · have hnd := hd.nodup
    have hbelow := hd.below
    rw [hab] at hnd hbelow
    have hnew : d.fresh ∉ a ++ b := fun hmem => absurd (hbelow _ hmem) (lt_irrefl _)
    constructor
    · rw [hroot, hr]
      exact List.nodup_middle.mpr (List.nodup_cons.mpr ⟨hnew, hnd⟩)
    · rw [hroot, hfresh, hr, hf]
      intro x hx
      rcases List.mem_cons.mp (List.perm_middle.mem_iff.mp hx) with rfl | hx'
      · exact Nat.lt_succ_self _
      · exact Nat.lt_succ_of_lt (hbelow x hx')

theorem Identified.remove {d : Dictionary K V} (hd : Identified d) (k : K) :
    Identified (d.remove k).1 := by
  have hroot : (d.remove k).1.root.refs = (removeR k d.root d.toFields).1.refs :=
    refs_setParent _ _
  have hfresh : (d.remove k).1.fresh = (removeR k d.root d.toFields).2.fresh := rfl
  obtain ⟨hsub, hf⟩ := removeR_refs k d.root d.toFields
  constructor
  · rw [hroot]
    exact hd.nodup.sublist hsub
  · rw [hroot, hfresh, hf]
    exact fun x hx => hd.below x (hsub.subset hx)

theorem after_snoc (calls : List (FiniteMap.Call K V)) (c : FiniteMap.Call K V) :
    after (calls ++ [c]) = (call (after calls) c).1 :=
  Refinement.run_snoc call empty calls c

theorem valid_after (calls : List (FiniteMap.Call K V)) : Valid (after calls) :=
  refinesMap.run_inv valid_empty calls

theorem identified_after (calls : List (FiniteMap.Call K V)) : Identified (after calls) := by
  induction calls using List.reverseRecOn with
  | nil => exact identified_empty
  | append_singleton calls c ih =>
    rw [after_snoc]
    cases c with
    | insert k v => exact ih.insert k v
    | remove k => exact ih.remove k
    | search k => exact ih

theorem linked_insert {d : Dictionary K V} (hlink : Linked none d.root) (k : K) (v : V) :
    Linked none (d.insert k v).1.root :=
  linked_setParent.mpr (insertR_linked ⟨k, v⟩ hlink.children d.toFields)

theorem linked_remove {d : Dictionary K V} (hv : Valid d) (hi : Identified d)
    (hlink : Linked none d.root) (k : K) :
    Linked none (d.remove k).1.root ↔ removeKeepsLinks k d.root = true :=
  linked_setParent.trans (removeR_linked k hv.avl hi.nodup hlink.children d.toFields)

structure FollowsTree (d : Dictionary K V) : Prop where
  linked : Linked none d.root
  ascending : d.root.entries.Pairwise (·.key < ·.key)
  visited : ∀ fuel, d.root.entries.length < fuel → d.iterate fuel = .ok d.root.entries

theorem followsTree_iff {d : Dictionary K V} (hv : Valid d) (hi : Identified d) :
    FollowsTree d ↔ d.root ≠ null ∧ Linked none d.root := by
  constructor
  · intro h
    refine ⟨?_, h.linked⟩
    intro hr
    have hok := h.visited _ (Nat.lt_succ_self _)
    rw [iterate_empty hr] at hok
    cases hok
  · rintro ⟨hr, hlink⟩
    exact ⟨hlink, (searchTree_iff d.root).mp hv.ordered, fun _ hf => iterate_eq hi.nodup hlink hr hf⟩

def KeepsLinks (calls : List (FiniteMap.Call K V)) : Prop :=
  ∀ pre k, pre ++ [.remove k] <+: calls → removeKeepsLinks k (after pre).root = true

theorem linked_after {calls : List (FiniteMap.Call K V)} (h : KeepsLinks calls) :
    Linked none (after calls).root := by
  induction calls using List.reverseRecOn with
  | nil => trivial
  | append_singleton calls c ih =>
    have hlink := ih fun pre k hp => h pre k (hp.trans (List.prefix_append _ _))
    rw [after_snoc]
    cases c with
    | insert k v => exact linked_insert hlink k v
    | remove k =>
      exact (linked_remove (valid_after calls) (identified_after calls) hlink k).mpr
        (h calls k (List.prefix_refl _))
    | search k => exact hlink

theorem iteration_follows_tree (calls : List (FiniteMap.Call K V)) :
    (∀ pre, pre <+: calls → (FollowsTree (after pre) ↔ (after pre).root ≠ null)) ↔
      KeepsLinks calls := by
  constructor
  · intro h pre k hp
    have hbefore := h pre ((List.prefix_append _ _).trans hp)
    have hafter := h _ hp
    by_cases hr : (after pre).root = null
    · rw [hr]
      rfl
    have hlink := (hbefore.mpr hr).linked
    apply (linked_remove (valid_after pre) (identified_after pre) hlink k).mp
    have hroot : (after (pre ++ [.remove k])).root = ((after pre).remove k).1.root := by
      rw [after_snoc]
      rfl
    rw [← hroot]
    by_cases hr' : (after (pre ++ [.remove k])).root = null
    · rw [hr']
      trivial
    · exact (hafter.mpr hr').linked
  · intro h pre hp
    have hlink := linked_after fun q k hq => h q k (hq.trans hp)
    rw [followsTree_iff (valid_after pre) (identified_after pre)]
    exact and_iff_left hlink

-- 20 takes the place of 10, the freed node object keeps 30 as its child, and 30 climbs
-- into that object instead of ending the walk.
theorem stale_parent_after_remove :
    let calls : List (FiniteMap.Call ℕ ℕ) :=
      [.insert 10 0, .insert 5 0, .insert 20 0, .insert 30 0, .remove 10]
    (after calls).root ≠ null ∧ ¬ Linked none (after calls).root ∧
      ¬ FollowsTree (after calls) ∧ (after calls).iterate 16 = .error .outOfFuel := by
  intro calls
  have hroot : (after calls).root ≠ null := by decide
  have hlink : ¬ Linked none (after calls).root := by decide
  exact ⟨hroot, hlink, fun h => hlink h.linked, rfl⟩

end Dictionary

end BinaryTreeDictionary
