import HTWGArchive.Dictionary.SearchTree

namespace BinaryTreeDictionary

variable {K V : Type*}

namespace Node

def realHeight : Node K V → Int
  | null => -1
  | node _ _ _ _ l r => max l.realHeight r.realHeight + 1

def HeightsStored : Node K V → Prop
  | null => True
  | t@(node _ _ h _ l r) => h = t.realHeight ∧ HeightsStored l ∧ HeightsStored r

def Balanced : Node K V → Prop
  | null => True
  | node _ _ _ _ l r => |l.realHeight - r.realHeight| ≤ 1 ∧ Balanced l ∧ Balanced r

structure Avl (t : Node K V) : Prop where
  stored : HeightsStored t
  balanced : Balanced t

theorem neg_one_le_realHeight (t : Node K V) : -1 ≤ t.realHeight := by
  induction t with
  | null => simp [realHeight]
  | node p o h e l r ihl _ =>
    simp only [realHeight]
    omega

theorem avl_null : Avl (null : Node K V) := ⟨trivial, trivial⟩

theorem avl_node {p : Ref} {o : Option Ref} {h : Int} {e : Entry K V} {l r : Node K V} :
    Avl (node p o h e l r) ↔ Avl l ∧ Avl r ∧ h = max l.realHeight r.realHeight + 1 ∧
      |l.realHeight - r.realHeight| ≤ 1 := by
  constructor
  · rintro ⟨⟨hh, hl, hr⟩, hb, hbl, hbr⟩
    exact ⟨⟨hl, hbl⟩, ⟨hr, hbr⟩, hh, hb⟩
  · rintro ⟨⟨hl, hbl⟩, ⟨hr, hbr⟩, hh, hb⟩
    exact ⟨⟨hh, hl, hr⟩, hb, hbl, hbr⟩

theorem Avl.getHeight_eq {t : Node K V} (h : Avl t) : t.getHeight = t.realHeight := by
  cases t with
  | null => rfl
  | node => exact h.stored.1

@[simp] theorem realHeight_setParent (t : Node K V) (q : Option Ref) :
    (t.setParent q).realHeight = t.realHeight := by
  cases t <;> rfl

@[simp] theorem getHeight_setParent (t : Node K V) (q : Option Ref) :
    (t.setParent q).getHeight = t.getHeight := by
  cases t <;> rfl

theorem Avl.setParent {t : Node K V} (h : Avl t) (q : Option Ref) : Avl (t.setParent q) := by
  cases t with
  | null => exact avl_null
  | node => exact avl_node.mpr (avl_node.mp h)

theorem avl_setParent {t : Node K V} {q : Option Ref} : Avl (t.setParent q) ↔ Avl t := by
  cases t with
  | null => rfl
  | node => simp only [Node.setParent, avl_node]

-- One rotation repairs a left-heavy node; in a deletion the left child may itself be
-- balanced, and then the height stays as it was.
theorem avl_rotateRight {p q : Ref} {o qp : Option Ref} {h qh : Int} {e qe : Entry K V}
    {ql qr r : Node K V} (hq : Avl (node q qp qh qe ql qr)) (hr : Avl r)
    (hle : qr.realHeight ≤ ql.realHeight)
    (heq : ql.realHeight = r.realHeight + 1) :
    Avl (rotateRight (node p o h e (node q qp qh qe ql qr) r)) ∧
      (rotateRight (node p o h e (node q qp qh qe ql qr) r)).realHeight =
        qr.realHeight + 2 := by
  obtain ⟨hql, hqr, -, hb⟩ := avl_node.mp hq
  have hmax : max qr.realHeight r.realHeight = qr.realHeight := by
    rw [abs_le] at hb
    omega
  simp only [rotateRight, avl_node, realHeight, realHeight_setParent, avl_setParent, getHeight_node,
    hql.getHeight_eq, hqr.getHeight_eq, hr.getHeight_eq, abs_le] at hb ⊢
  refine ⟨⟨hql, ⟨hqr, hr, trivial, ?_⟩, trivial, ?_⟩, ?_⟩ <;> omega

theorem avl_rotateLeft {p q : Ref} {o qp : Option Ref} {h qh : Int} {e qe : Entry K V}
    {l ql qr : Node K V} (hl : Avl l) (hq : Avl (node q qp qh qe ql qr))
    (hle : ql.realHeight ≤ qr.realHeight)
    (heq : qr.realHeight = l.realHeight + 1) :
    Avl (rotateLeft (node p o h e l (node q qp qh qe ql qr))) ∧
      (rotateLeft (node p o h e l (node q qp qh qe ql qr))).realHeight =
        ql.realHeight + 2 := by
  obtain ⟨hql, hqr, -, hb⟩ := avl_node.mp hq
  simp only [rotateLeft, avl_node, realHeight, realHeight_setParent, avl_setParent, getHeight_node,
    hql.getHeight_eq, hqr.getHeight_eq, hl.getHeight_eq, abs_le] at hb ⊢
  refine ⟨⟨⟨hl, hql, ?_, ?_⟩, hqr, ?_, ?_⟩, ?_⟩ <;> omega

theorem avl_rotateLeftRight {p : Ref} {o : Option Ref} {h : Int} {e : Entry K V}
    {l r : Node K V} (hl : Avl l) (hr : Avl r) (hpos : 0 < l.getBalance)
    (heq : l.realHeight = r.realHeight + 2) :
    Avl (rotateLeftRight (node p o h e l r)) ∧
      (rotateLeftRight (node p o h e l r)).realHeight = l.realHeight := by
  rcases l with _ | ⟨q, qp, qh, qe, ql, _ | ⟨s, sp, sh, se, sl, sr⟩⟩
  · simp [getBalance] at hpos
  · obtain ⟨hql, -, -, -⟩ := avl_node.mp hl
    have := neg_one_le_realHeight ql
    simp only [getBalance_node, getHeight_null, hql.getHeight_eq] at hpos
    omega
  · obtain ⟨hql, hs, -, hb⟩ := avl_node.mp hl
    obtain ⟨hsl, hsr, hsh, hsb⟩ := avl_node.mp hs
    simp only [getBalance_node, hs.getHeight_eq, hql.getHeight_eq] at hpos
    simp only [rotateLeftRight, rotateLeft, rotateRight, avl_node, realHeight,
      realHeight_setParent, avl_setParent, getHeight_node, hql.getHeight_eq, hsl.getHeight_eq,
      hsr.getHeight_eq, hr.getHeight_eq, abs_le] at hb hsb hpos heq ⊢
    refine ⟨⟨⟨hql, hsl, ?_, ?_⟩, ⟨hsr, hr, trivial, ?_⟩, ?_, ?_⟩, ?_⟩ <;> omega

theorem avl_rotateRightLeft {p : Ref} {o : Option Ref} {h : Int} {e : Entry K V}
    {l r : Node K V} (hl : Avl l) (hr : Avl r) (hneg : r.getBalance < 0)
    (heq : r.realHeight = l.realHeight + 2) :
    Avl (rotateRightLeft (node p o h e l r)) ∧
      (rotateRightLeft (node p o h e l r)).realHeight = r.realHeight := by
  rcases r with _ | ⟨q, qp, qh, qe, _ | ⟨s, sp, sh, se, sl, sr⟩, qr⟩
  · simp [getBalance] at hneg
  · obtain ⟨-, hqr, -, -⟩ := avl_node.mp hr
    have := neg_one_le_realHeight qr
    simp only [getBalance_node, getHeight_null, hqr.getHeight_eq] at hneg
    omega
  · obtain ⟨hs, hqr, -, hb⟩ := avl_node.mp hr
    obtain ⟨hsl, hsr, hsh, hsb⟩ := avl_node.mp hs
    simp only [getBalance_node, hs.getHeight_eq, hqr.getHeight_eq] at hneg
    simp only [rotateRightLeft, rotateRight, rotateLeft, avl_node, realHeight,
      realHeight_setParent, avl_setParent, getHeight_node, hqr.getHeight_eq, hsl.getHeight_eq,
      hsr.getHeight_eq, hl.getHeight_eq, abs_le] at hb hsb hneg heq ⊢
    refine ⟨⟨⟨hl, hsl, ?_, ?_⟩, ⟨hsr, hqr, trivial, ?_⟩, ?_, ?_⟩, ?_⟩ <;> omega

theorem avl_balance {p : Ref} {o : Option Ref} {h : Int} {e : Entry K V} {l r : Node K V}
    (hl : Avl l) (hr : Avl r) (hd : |l.realHeight - r.realHeight| ≤ 2) :
    Avl (balance (node p o h e l r)) ∧
      ((balance (node p o h e l r)).realHeight = max l.realHeight r.realHeight + 1 ∨
        (l.realHeight = r.realHeight + 2 ∨ r.realHeight = l.realHeight + 2) ∧
          (balance (node p o h e l r)).realHeight = max l.realHeight r.realHeight) := by
  rw [abs_le] at hd
  simp only [balance, getBalance_node, hl.getHeight_eq, hr.getHeight_eq]
  split_ifs with hleft hrot hright hrot
  · rcases l with _ | ⟨q, qp, qh, qe, ql, qr⟩
    · have := neg_one_le_realHeight r
      simp only [realHeight] at hleft
      omega
    · obtain ⟨hql, hqr, -, hb⟩ := avl_node.mp hl
      simp only [getBalance_node, hql.getHeight_eq, hqr.getHeight_eq] at hrot
      simp only [realHeight] at hleft hd ⊢
      obtain ⟨ha, hh⟩ := avl_rotateRight (p := p) (o := o)
        (h := max (max ql.realHeight qr.realHeight + 1) r.realHeight + 1) (e := e) hl hr
        (by omega) (by omega)
      refine ⟨ha, ?_⟩
      rw [hh]
      rw [abs_le] at hb
      omega
  · obtain ⟨ha, hh⟩ := avl_rotateLeftRight (p := p) (o := o)
      (h := max l.realHeight r.realHeight + 1) (e := e) hl hr (by omega) (by omega)
    exact ⟨ha, Or.inr ⟨by omega, by omega⟩⟩
  · rcases r with _ | ⟨q, qp, qh, qe, ql, qr⟩
    · have := neg_one_le_realHeight l
      simp only [realHeight] at hright
      omega
    · obtain ⟨hql, hqr, -, hb⟩ := avl_node.mp hr
      simp only [getBalance_node, hql.getHeight_eq, hqr.getHeight_eq] at hrot
      simp only [realHeight] at hright hd ⊢
      obtain ⟨ha, hh⟩ := avl_rotateLeft (p := p) (o := o)
        (h := max l.realHeight (max ql.realHeight qr.realHeight + 1) + 1) (e := e) hl hr
        (by omega) (by omega)
      refine ⟨ha, ?_⟩
      rw [hh]
      rw [abs_le] at hb
      omega
  · obtain ⟨ha, hh⟩ := avl_rotateRightLeft (p := p) (o := o)
      (h := max l.realHeight r.realHeight + 1) (e := e) hl hr (by omega) (by omega)
    exact ⟨ha, Or.inr ⟨by omega, by omega⟩⟩
  · exact ⟨avl_node.mpr ⟨hl, hr, rfl, by rw [abs_le]; omega⟩, Or.inl rfl⟩

end Node

end BinaryTreeDictionary
