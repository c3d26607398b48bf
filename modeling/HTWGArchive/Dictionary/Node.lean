import Mathlib.Order.Basic
import Mathlib.Tactic
import HTWGArchive.Library.Refinement

namespace BinaryTreeDictionary

variable {K V : Type*}

-- A node object is identified by its reference; only `parent` links alias, so the
-- child links are the tree itself and `parent` is a reference.
abbrev Ref := Nat

structure Entry (K V : Type*) where
  key : K
  value : V
  deriving DecidableEq, Repr

inductive Node (K V : Type*) where
  | null : Node K V
  | node (ref : Ref) (parent : Option Ref) (height : Int) (e : Entry K V)
      (left right : Node K V) : Node K V
  deriving DecidableEq, Repr

structure Cell (K V : Type*) where
  ref : Ref
  parent : Option Ref
  left : Option Ref
  right : Option Ref
  e : Entry K V
  deriving DecidableEq, Repr

-- `unlinked` keeps the node objects that left the tree: no call writes to them any
-- more, but a stale `parent` link can still lead to them.
structure Fields (K V : Type*) where
  size : Int
  oldValue : Option V
  fresh : Ref
  unlinked : List (Cell K V)

namespace Node

def isNull : Node K V → Bool
  | null => true
  | node .. => false

def ref? : Node K V → Option Ref
  | null => none
  | node ref .. => some ref

def setParent (q : Option Ref) : Node K V → Node K V
  | null => null
  | node p _ h e l r => node p q h e l r

def getHeight : Node K V → Int
  | null => -1
  | node _ _ h _ _ _ => h

def getBalance : Node K V → Int
  | null => 0
  | node _ _ _ _ l r => r.getHeight - l.getHeight

@[simp] theorem getHeight_null : (null : Node K V).getHeight = -1 := rfl

@[simp] theorem getHeight_node {p : Ref} {pp : Option Ref} {h : Int} {e : Entry K V}
    {l r : Node K V} : (node p pp h e l r).getHeight = h := rfl

@[simp] theorem getBalance_node {p : Ref} {pp : Option Ref} {h : Int} {e : Entry K V}
    {l r : Node K V} : (node p pp h e l r).getBalance = r.getHeight - l.getHeight := rfl

def rotateRight : Node K V → Node K V
  | node p _ _ e (node q qp _ qe ql qr) r =>
    let t := node p (some q) (max qr.getHeight r.getHeight + 1) e (qr.setParent (some p)) r
    node q qp (max ql.getHeight t.getHeight + 1) qe ql t
  | t => t

def rotateLeft : Node K V → Node K V
  | node p _ _ e l (node q qp _ qe ql qr) =>
    let t := node p (some q) (max ql.getHeight l.getHeight + 1) e l (ql.setParent (some p))
    node q qp (max qr.getHeight t.getHeight + 1) qe t qr
  | t => t

def rotateLeftRight : Node K V → Node K V
  | null => null
  | node p pp h e l r => rotateRight (node p pp h e l.rotateLeft r)

def rotateRightLeft : Node K V → Node K V
  | null => null
  | node p pp h e l r => rotateLeft (node p pp h e l r.rotateRight)

def balance : Node K V → Node K V
  | null => null
  | node p pp _ e l r =>
    let t := node p pp (max l.getHeight r.getHeight + 1) e l r
    if t.getBalance = -2 then
      if l.getBalance ≤ 0 then t.rotateRight else t.rotateLeftRight
    else if t.getBalance = 2 then
      if 0 ≤ r.getBalance then t.rotateLeft else t.rotateRightLeft
    else t

def getRemMinR : Node K V → Option (Node K V × Entry K V × Cell K V)
  | null => none
  | node p pp h e l r =>
    if l.isNull then some (r.balance, e, ⟨p, pp, none, r.ref?, e⟩)
    else (getRemMinR l).map fun x => (balance (node p pp h e x.1 r), x.2)

theorem balance_cases (p : Ref) (pp : Option Ref) (h : Int) (e : Entry K V) (l r : Node K V) :
    let t := node p pp (max l.getHeight r.getHeight + 1) e l r
    (r.getHeight - l.getHeight = -2 ∧ l.getBalance ≤ 0 ∧
      balance (node p pp h e l r) = t.rotateRight) ∨
    (r.getHeight - l.getHeight = -2 ∧ 0 < l.getBalance ∧
      balance (node p pp h e l r) = t.rotateLeftRight) ∨
    (r.getHeight - l.getHeight = 2 ∧ 0 ≤ r.getBalance ∧
      balance (node p pp h e l r) = t.rotateLeft) ∨
    (r.getHeight - l.getHeight = 2 ∧ r.getBalance < 0 ∧
      balance (node p pp h e l r) = t.rotateRightLeft) ∨
    (r.getHeight - l.getHeight ≠ -2 ∧ r.getHeight - l.getHeight ≠ 2 ∧
      balance (node p pp h e l r) = t) := by
  intro t
  have hb : balance (node p pp h e l r) =
      if r.getHeight - l.getHeight = -2 then
        if l.getBalance ≤ 0 then t.rotateRight else t.rotateLeftRight
      else if r.getHeight - l.getHeight = 2 then
        if 0 ≤ r.getBalance then t.rotateLeft else t.rotateRightLeft
      else t := rfl
  rw [hb]
  by_cases hl : r.getHeight - l.getHeight = -2
  · by_cases hlb : l.getBalance ≤ 0
    · exact Or.inl ⟨hl, hlb, by rw [if_pos hl, if_pos hlb]⟩
    · exact Or.inr (Or.inl ⟨hl, by omega, by rw [if_pos hl, if_neg hlb]⟩)
  · by_cases hr : r.getHeight - l.getHeight = 2
    · by_cases hrb : 0 ≤ r.getBalance
      · exact Or.inr (Or.inr (Or.inl ⟨hr, hrb, by rw [if_neg hl, if_pos hr, if_pos hrb]⟩))
      · exact Or.inr (Or.inr (Or.inr (Or.inl
          ⟨hr, by omega, by rw [if_neg hl, if_pos hr, if_neg hrb]⟩)))
    · exact Or.inr (Or.inr (Or.inr (Or.inr ⟨hl, hr, by rw [if_neg hl, if_neg hr]⟩)))

theorem getRemMinR_left_null {p : Ref} {pp : Option Ref} {h : Int} {e : Entry K V}
    {r : Node K V} :
    getRemMinR (node p pp h e null r) = some (r.balance, e, ⟨p, pp, none, r.ref?, e⟩) := by
  simp [getRemMinR, isNull]

theorem getRemMinR_left {p : Ref} {pp : Option Ref} {h : Int} {e : Entry K V}
    {l r : Node K V} (hl : l ≠ null) :
    getRemMinR (node p pp h e l r) =
      (getRemMinR l).map fun x => (balance (node p pp h e x.1 r), x.2) := by
  cases l with
  | null => exact absurd rfl hl
  | node => simp [getRemMinR, isNull]

end Node

open Node

variable [LinearOrder K]

def insertR (e : Entry K V) : Node K V → Fields K V → Node K V × Fields K V
  | .null, f =>
    (balance (.node f.fresh none 0 e .null .null),
      { f with oldValue := none, size := f.size + 1, fresh := f.fresh + 1 })
  | .node p pp h pe l r, f =>
    if e.key < pe.key then
      let x := insertR e l f
      (balance (.node p pp h pe (x.1.setParent (some p)) r), x.2)
    else if pe.key < e.key then
      let x := insertR e r f
      (balance (.node p pp h pe l (x.1.setParent (some p))), x.2)
    else
      (balance (.node p pp h { pe with value := e.value } l r),
        { f with oldValue := some pe.value })

def searchR (key : K) : Node K V → Option V
  | .null => none
  | .node _ _ _ e l r =>
    if key < e.key then searchR key l
    else if e.key < key then searchR key r
    else some e.value

def removeR (key : K) : Node K V → Fields K V → Node K V × Fields K V
  | .null, f => (.null, { f with oldValue := none })
  | .node p pp h e l r, f =>
    if key < e.key then
      let x := removeR key l f
      (balance (.node p pp h e (x.1.setParent (some p)) r), x.2)
    else if e.key < key then
      let x := removeR key r f
      (balance (.node p pp h e l (x.1.setParent (some p))), x.2)
    else if l.isNull ∨ r.isNull then
      (balance (if l.isNull then r else l),
        { f with
          oldValue := some e.value, size := f.size - 1
          unlinked := ⟨p, pp, l.ref?, r.ref?, e⟩ :: f.unlinked })
    else
      match getRemMinR r with
      | none => (.node p pp h e l r, f)
      | some (r', min, gone) =>
        (balance (.node p pp h min l r'),
          { f with
            oldValue := some e.value, size := f.size - 1
            unlinked := gone :: f.unlinked })

section Branches

variable {p : Ref} {pp : Option Ref} {h : Int} {l r : Node K V} {f : Fields K V}

theorem insertR_lt {e pe : Entry K V} (hlt : e.key < pe.key) :
    insertR e (.node p pp h pe l r) f =
      (balance (.node p pp h pe ((insertR e l f).1.setParent (some p)) r), (insertR e l f).2) := by
  simp [insertR, hlt]

theorem insertR_gt {e pe : Entry K V} (hgt : pe.key < e.key) :
    insertR e (.node p pp h pe l r) f =
      (balance (.node p pp h pe l ((insertR e r f).1.setParent (some p))), (insertR e r f).2) := by
  simp [insertR, hgt, hgt.not_gt]

theorem insertR_eq {e pe : Entry K V} (heq : e.key = pe.key) :
    insertR e (.node p pp h pe l r) f =
      (balance (.node p pp h { pe with value := e.value } l r),
        { f with oldValue := some pe.value }) := by
  simp [insertR, heq]

theorem removeR_lt {k : K} {e : Entry K V} (hlt : k < e.key) :
    removeR k (.node p pp h e l r) f =
      (balance (.node p pp h e ((removeR k l f).1.setParent (some p)) r), (removeR k l f).2) := by
  simp [removeR, hlt]

theorem removeR_gt {k : K} {e : Entry K V} (hgt : e.key < k) :
    removeR k (.node p pp h e l r) f =
      (balance (.node p pp h e l ((removeR k r f).1.setParent (some p))), (removeR k r f).2) := by
  simp [removeR, hgt, hgt.not_gt]

theorem removeR_left_null {k : K} {e : Entry K V} (heq : k = e.key) :
    removeR k (.node p pp h e .null r) f =
      (balance r, { f with
        oldValue := some e.value, size := f.size - 1
        unlinked := ⟨p, pp, none, r.ref?, e⟩ :: f.unlinked }) := by
  simp [removeR, heq, isNull, ref?]

theorem removeR_right_null {k : K} {e : Entry K V} (heq : k = e.key) :
    removeR k (.node p pp h e l .null) f =
      (balance l, { f with
        oldValue := some e.value, size := f.size - 1
        unlinked := ⟨p, pp, l.ref?, none, e⟩ :: f.unlinked }) := by
  cases l <;> simp [removeR, heq, isNull, ref?]

theorem removeR_both {k : K} {e m : Entry K V} {r' : Node K V} {g : Cell K V} (heq : k = e.key)
    (hl : l ≠ .null) (hr : getRemMinR r = some (r', m, g)) :
    removeR k (.node p pp h e l r) f =
      (balance (.node p pp h m l r'), { f with
        oldValue := some e.value, size := f.size - 1
        unlinked := g :: f.unlinked }) := by
  cases l with
  | null => exact absurd rfl hl
  | node =>
    cases r with
    | null => simp [getRemMinR] at hr
    | node => simp [removeR, heq, isNull, hr]

end Branches

structure Dictionary (K V : Type*) extends Fields K V where
  root : Node K V

namespace Dictionary

def empty : Dictionary K V where
  root := .null
  size := 0
  oldValue := none
  fresh := 0
  unlinked := []

def insert (d : Dictionary K V) (key : K) (value : V) : Dictionary K V × Option V :=
  let x := insertR ⟨key, value⟩ d.root d.toFields
  (⟨x.2, x.1.setParent none⟩, x.2.oldValue)

def search (d : Dictionary K V) (key : K) : Option V :=
  searchR key d.root

def remove (d : Dictionary K V) (key : K) : Dictionary K V × Option V :=
  let x := removeR key d.root d.toFields
  (⟨x.2, x.1.setParent none⟩, x.2.oldValue)

def call (d : Dictionary K V) : FiniteMap.Call K V → Dictionary K V × Option V
  | .insert k v => d.insert k v
  | .remove k => d.remove k
  | .search k => (d, d.search k)

end Dictionary

end BinaryTreeDictionary
