import HTWGArchive.Dictionary.BinaryTree

namespace BinaryTreeDictionary

variable {K V : Type*}

namespace Node

def refs : Node K V → List Ref
  | null => []
  | node p _ _ _ l r => l.refs ++ p :: r.refs

def Linked : Option Ref → Node K V → Prop
  | _, null => True
  | q, node p pp _ _ l r => pp = q ∧ Linked (some p) l ∧ Linked (some p) r

instance decidableLinked : (q : Option Ref) → (t : Node K V) → Decidable (Linked q t)
  | _, null => inferInstanceAs (Decidable True)
  | q, node p pp _ _ l r =>
    have := decidableLinked (some p) l
    have := decidableLinked (some p) r
    inferInstanceAs (Decidable (pp = q ∧ Linked (some p) l ∧ Linked (some p) r))

def ChildrenLinked : Node K V → Prop
  | null => True
  | node p _ _ _ l r => Linked (some p) l ∧ Linked (some p) r

theorem Linked.children {q : Option Ref} {t : Node K V} (h : Linked q t) : ChildrenLinked t := by
  cases t with
  | null => trivial
  | node => exact h.2

theorem linked_setParent {q : Option Ref} {t : Node K V} :
    Linked q (t.setParent q) ↔ ChildrenLinked t := by
  cases t with
  | null => exact Iff.rfl
  | node => simp [setParent, Linked, ChildrenLinked]

@[simp] theorem refs_setParent (t : Node K V) (q : Option Ref) : (t.setParent q).refs = t.refs := by
  cases t <;> rfl

@[simp] theorem refs_rotateRight (t : Node K V) : t.rotateRight.refs = t.refs := by
  unfold rotateRight
  split <;> simp [refs]

@[simp] theorem refs_rotateLeft (t : Node K V) : t.rotateLeft.refs = t.refs := by
  unfold rotateLeft
  split <;> simp [refs]

@[simp] theorem refs_rotateLeftRight (t : Node K V) : t.rotateLeftRight.refs = t.refs := by
  cases t <;> simp [rotateLeftRight, refs]

@[simp] theorem refs_rotateRightLeft (t : Node K V) : t.rotateRightLeft.refs = t.refs := by
  cases t <;> simp [rotateRightLeft, refs]

@[simp] theorem refs_balance (t : Node K V) : t.balance.refs = t.refs := by
  cases t with
  | null => rfl
  | node p pp h e l r =>
    simp only [balance]
    split_ifs <;> simp [refs]

section Rotations

variable {p : Ref} {pp : Option Ref} {h : Int} {e : Entry K V} {l r : Node K V}

theorem childrenLinked_rotateRight (hl : ChildrenLinked l) (hr : Linked (some p) r) :
    ChildrenLinked (rotateRight (node p pp h e l r)) := by
  cases l with
  | null => exact ⟨trivial, hr⟩
  | node q qp qh qe ql qr => exact ⟨hl.1, rfl, linked_setParent.mpr hl.2.children, hr⟩

theorem childrenLinked_rotateLeft (hl : Linked (some p) l) (hr : ChildrenLinked r) :
    ChildrenLinked (rotateLeft (node p pp h e l r)) := by
  cases r with
  | null => exact ⟨hl, trivial⟩
  | node q qp qh qe ql qr => exact ⟨⟨rfl, hl, linked_setParent.mpr hr.1.children⟩, hr.2⟩

theorem childrenLinked_balance (hl : Linked (some p) l) (hr : Linked (some p) r) :
    ChildrenLinked (balance (node p pp h e l r)) := by
  rcases balance_cases p pp h e l r with ⟨-, -, hb⟩ | ⟨-, -, hb⟩ | ⟨-, -, hb⟩ | ⟨-, -, hb⟩ |
    ⟨-, -, hb⟩ <;> rw [hb]
  · exact childrenLinked_rotateRight hl.children hr
  · refine childrenLinked_rotateRight ?_ hr
    cases l with
    | null => trivial
    | node => exact childrenLinked_rotateLeft hl.2.1 hl.2.2.children
  · exact childrenLinked_rotateLeft hl hr.children
  · refine childrenLinked_rotateLeft hl ?_
    cases r with
    | null => trivial
    | node => exact childrenLinked_rotateRight hr.2.1.children hr.2.2
  · exact ⟨hl, hr⟩

theorem linked_right_of_rotateRight (hc : ChildrenLinked (rotateRight (node p pp h e l r))) :
    Linked (some p) r := by
  cases l with
  | null => exact hc.2
  | node => exact hc.2.2.2

theorem linked_left_of_rotateLeft (hc : ChildrenLinked (rotateLeft (node p pp h e l r))) :
    Linked (some p) l := by
  cases r with
  | null => exact hc.1
  | node => exact hc.1.2.1

theorem linked_right_of_balance (hc : ChildrenLinked (balance (node p pp h e l r)))
    (hb : r.getHeight - l.getHeight ≠ 2) : Linked (some p) r := by
  rcases balance_cases p pp h e l r with ⟨-, -, he⟩ | ⟨-, -, he⟩ | ⟨h2, -⟩ | ⟨h2, -⟩ |
    ⟨-, -, he⟩
  · exact linked_right_of_rotateRight (he ▸ hc)
  · exact linked_right_of_rotateRight (he ▸ hc)
  · exact absurd h2 hb
  · exact absurd h2 hb
  · exact (he ▸ hc).2

theorem linked_left_of_balance (hc : ChildrenLinked (balance (node p pp h e l r)))
    (hb : r.getHeight - l.getHeight ≠ -2) : Linked (some p) l := by
  rcases balance_cases p pp h e l r with ⟨h2, -⟩ | ⟨h2, -⟩ | ⟨-, -, he⟩ | ⟨-, -, he⟩ |
    ⟨-, -, he⟩
  · exact absurd h2 hb
  · exact absurd h2 hb
  · exact linked_left_of_rotateLeft (he ▸ hc)
  · exact linked_left_of_rotateLeft (he ▸ hc)
  · exact (he ▸ hc).1

-- A rotation to the left lifts a node whose own `parent` field nobody has written yet.
theorem not_linked_of_rotateLeft {q : Option Ref} (hr : Linked (some p) r) (hq : q ≠ some p)
    (hqr : ∀ x ∈ r.refs, q ≠ some x) (hb : r.getHeight - l.getHeight = 2)
    (hnull : r ≠ null) : ¬ Linked q (balance (node p pp h e l r)) := by
  rcases r with _ | ⟨s, sp, sh, se, sl, sr⟩
  · exact absurd rfl hnull
  rcases balance_cases p pp h e l (node s sp sh se sl sr) with ⟨hd, -⟩ | ⟨hd, -⟩ | ⟨-, -, he⟩ |
    ⟨-, -, he⟩ | ⟨-, hd, -⟩
  · omega
  · omega
  · rw [he]
    exact fun hc => hq (hc.1.symm.trans hr.1)
  · rw [he]
    rcases sl with _ | ⟨u, up, uh, ue, ul, ur⟩
    · exact fun hc => hq (hc.1.symm.trans hr.1)
    · exact fun hc => hqr s (by simp [refs]) (hc.1.symm.trans hr.2.1.1)
  · exact absurd hb hd

end Rotations

theorem getRemMinR_refs {t t' : Node K V} {m : Entry K V} {g : Cell K V}
    (h : getRemMinR t = some (t', m, g)) : t.refs = g.ref :: t'.refs := by
  induction t generalizing t' with
  | null => simp [getRemMinR] at h
  | node p pp ht e l r ihl _ =>
    by_cases hl : l = null
    · subst hl
      simp only [getRemMinR_left_null, Option.some.injEq, Prod.mk.injEq] at h
      obtain ⟨rfl, rfl, rfl⟩ := h
      simp [refs]
    · simp only [getRemMinR_left hl, Option.map_eq_some_iff, Prod.mk.injEq] at h
      obtain ⟨⟨l', x⟩, hx, rfl, rfl⟩ := h
      simp [refs, ihl hx]

def minShrinks : Node K V → Bool
  | null => false
  | node _ _ _ _ l r => l.isNull || (l.minShrinks && decide (r.getHeight < l.getHeight))

def minKeepsLinks : Node K V → Bool
  | null => true
  | node _ _ _ _ l r =>
    if l.isNull then r.isNull
    else l.minKeepsLinks && !(l.minShrinks && decide (l.getHeight < r.getHeight))

theorem balance_of_abs_le {p : Ref} {pp : Option Ref} {h : Int} {e : Entry K V} {l r : Node K V}
    (hl : r.getHeight - l.getHeight ≠ -2) (hr : r.getHeight - l.getHeight ≠ 2) :
    balance (node p pp h e l r) = node p pp (max l.getHeight r.getHeight + 1) e l r := by
  rcases balance_cases p pp h e l r with ⟨hd, -⟩ | ⟨hd, -⟩ | ⟨hd, -⟩ | ⟨hd, -⟩ | ⟨-, -, he⟩
  · exact absurd hd hl
  · exact absurd hd hl
  · exact absurd hd hr
  · exact absurd hd hr
  · exact he

theorem balance_self {t : Node K V} (h : Avl t) : t.balance = t := by
  cases t with
  | null => rfl
  | node p pp ht e l r =>
    obtain ⟨hl, hr, hh, hb⟩ := avl_node.mp h
    rw [abs_le] at hb
    rw [balance_of_abs_le (by rw [hl.getHeight_eq, hr.getHeight_eq]; omega)
      (by rw [hl.getHeight_eq, hr.getHeight_eq]; omega), hl.getHeight_eq, hr.getHeight_eq, hh]

theorem isNull_iff (t : Node K V) : t.isNull = true ↔ t = null := by
  cases t <;> simp [isNull]

theorem getRemMinR_linked {q : Option Ref} {t t' : Node K V} {m : Entry K V} {g : Cell K V}
    (ht : Avl t) (hlink : Linked q t) (hnd : t.refs.Nodup) (hq : ∀ x ∈ t.refs, q ≠ some x)
    (h : getRemMinR t = some (t', m, g)) :
    (Linked q t' ↔ t.minKeepsLinks = true) ∧ (t.minKeepsLinks = true →
      t'.realHeight = t.realHeight - if t.minShrinks then 1 else 0) := by
  induction t generalizing q t' with
  | null => simp [getRemMinR] at h
  | node p pp ht' e l r ihl _ =>
    obtain ⟨hl, hr, -, hb⟩ := avl_node.mp ht
    rw [abs_le] at hb
    obtain ⟨hpp, hll, hlr⟩ := hlink
    simp only [refs, List.nodup_append, List.nodup_cons, List.mem_cons] at hnd
    obtain ⟨hndl, ⟨hpr, hndr⟩, hdis⟩ := hnd
    simp only [refs, List.mem_append, List.mem_cons] at hq
    by_cases hln : l = null
    · subst hln
      simp only [getRemMinR_left_null, balance_self hr, Option.some.injEq, Prod.mk.injEq] at h
      obtain ⟨rfl, -, -⟩ := h
      have hm := neg_one_le_realHeight r
      refine ⟨?_, fun _ => ?_⟩
      · cases r with
        | null => simp [minKeepsLinks, isNull, Linked]
        | node s sp sh se sl sr =>
          simp only [minKeepsLinks, isNull, if_true, Bool.false_eq_true, iff_false]
          exact fun hc => hq p (by simp) (hc.1.symm.trans hlr.1)
      · simp only [minShrinks, isNull, Bool.true_or, if_true, realHeight]
        omega
    · have hln' : l.isNull = false := by simpa [← isNull_iff] using hln
      simp only [getRemMinR_left hln, Option.map_eq_some_iff, Prod.mk.injEq] at h
      obtain ⟨⟨l', x⟩, hx, rfl, rfl⟩ := h
      obtain ⟨hiff, hheight⟩ := ihl hl hll hndl (fun x hx hpx => by
        rw [Option.some.injEq] at hpx
        exact hdis x hx x (by simp [hpx]) rfl) hx
      obtain ⟨hl', hdrop⟩ := getRemMinR_avl hl hx
      simp only [minKeepsLinks, minShrinks, hln', Bool.false_eq_true, if_false, Bool.false_or,
        Bool.and_eq_true, Bool.not_eq_true', decide_eq_true_eq, hl.getHeight_eq, hr.getHeight_eq]
      by_cases hrot : r.realHeight - l'.realHeight = 2
      · have hrn : r ≠ null := by
          rintro rfl
          have := neg_one_le_realHeight l'
          simp only [realHeight] at hrot
          omega
        have hno : ¬Linked q (balance (node p pp ht' e l' r)) := not_linked_of_rotateLeft hlr
          (hq p (by simp)) (fun x hx => hq x (by simp [hx]))
          (by rwa [hr.getHeight_eq, hl'.getHeight_eq]) hrn
        refine ⟨iff_of_false hno ?_, ?_⟩
        all_goals
          rintro ⟨hk, hs⟩
          have hh := hheight hk
          cases hm : l.minShrinks
          · simp only [hm, Bool.false_eq_true, if_false] at hh
            omega
          · simp only [hm, Bool.true_and, decide_eq_false_iff_not] at hs
            simp only [hm, if_true] at hh
            omega
      · rw [balance_of_abs_le (by rw [hr.getHeight_eq, hl'.getHeight_eq]; omega)
          (by rw [hr.getHeight_eq, hl'.getHeight_eq]; omega)]
        constructor
        · simp only [Linked, hpp, true_and, hlr, and_true, hiff]
          refine ⟨fun hk => ⟨hk, ?_⟩, fun hk => hk.1⟩
          have hh := hheight hk
          cases hm : l.minShrinks
          · rfl
          · simp only [hm, if_true] at hh
            simp only [Bool.true_and, decide_eq_false_iff_not]
            omega
        · rintro ⟨hk, hs⟩
          have hh := hheight hk
          simp only [realHeight]
          cases hm : l.minShrinks
          · simp only [hm, Bool.false_eq_true, if_false] at hh
            simp [hh]
          · simp only [hm, if_true] at hh
            by_cases hlt : r.realHeight < l.realHeight
            · rw [if_pos ⟨rfl, hlt⟩]
              omega
            · rw [if_neg fun hc => hlt hc.2]
              omega

end Node

open Node

variable [LinearOrder K]

def removeKeepsLinks (k : K) : Node K V → Bool
  | .null => true
  | .node _ _ _ e l r =>
    if k < e.key then removeKeepsLinks k l
    else if e.key < k then removeKeepsLinks k r
    else l.isNull || r.isNull || r.minKeepsLinks

theorem insertR_linked (e : Entry K V) {t : Node K V} (ht : ChildrenLinked t)
    (f : Fields K V) : ChildrenLinked (insertR e t f).1 := by
  induction t generalizing f with
  | null => exact childrenLinked_balance (h := 0) (l := .null) (r := .null) trivial trivial
  | node p pp h pe l r ihl ihr =>
    rcases lt_trichotomy e.key pe.key with hk | hk | hk
    · rw [insertR_lt hk]
      exact childrenLinked_balance (h := h) (linked_setParent.mpr (ihl ht.1.children f)) ht.2
    · rw [insertR_eq hk]
      exact childrenLinked_balance (h := h) ht.1 ht.2
    · rw [insertR_gt hk]
      exact childrenLinked_balance (h := h) ht.1 (linked_setParent.mpr (ihr ht.2.children f))

theorem removeR_linked (k : K) {t : Node K V} (havl : Avl t) (hnd : t.refs.Nodup)
    (ht : ChildrenLinked t) (f : Fields K V) :
    ChildrenLinked (removeR k t f).1 ↔ removeKeepsLinks k t = true := by
  induction t generalizing f with
  | null => simp [removeR, removeKeepsLinks, ChildrenLinked]
  | node p pp h e l r ihl ihr =>
    obtain ⟨hl, hr, -, hb⟩ := avl_node.mp havl
    rw [abs_le] at hb
    obtain ⟨hll, hlr⟩ := ht
    simp only [refs, List.nodup_append, List.nodup_cons, List.mem_cons] at hnd
    obtain ⟨hndl, ⟨hpr, hndr⟩, hdis⟩ := hnd
    rcases lt_trichotomy k e.key with hk | hk | hk
    · obtain ⟨hl', hh⟩ := removeR_avl k hl f
      simp only [removeR_lt hk, removeKeepsLinks, if_pos hk, ← ihl hl hndl hll.children f]
      constructor
      · intro hc
        refine linked_setParent.mp (linked_left_of_balance hc ?_)
        rw [getHeight_setParent, hl'.getHeight_eq, hr.getHeight_eq]
        omega
      · intro hc
        exact childrenLinked_balance (h := h) (linked_setParent.mpr hc) hlr
    · subst hk
      simp only [removeKeepsLinks, lt_irrefl, if_false]
      by_cases hln : l = null
      · subst hln
        simpa [removeR_left_null, balance_self hr, isNull] using hlr.children
      by_cases hrn : r = null
      · subst hrn
        simpa [removeR_right_null, balance_self hl, isNull] using hll.children
      obtain ⟨r', m, g, hx⟩ := getRemMinR_isSome hrn
      obtain ⟨hr', hh⟩ := getRemMinR_avl hr hx
      have hkeep := (getRemMinR_linked hr hlr hndr
        (fun x hx hpx => hpr (by rw [Option.some.injEq] at hpx; exact hpx ▸ hx)) hx).1
      have hln' : l.isNull = false := by simpa [← isNull_iff] using hln
      have hrn' : r.isNull = false := by simpa [← isNull_iff] using hrn
      simp only [removeR_both rfl hln hx, hln', hrn', Bool.false_or, ← hkeep]
      constructor
      · intro hc
        refine linked_right_of_balance hc ?_
        rw [hl.getHeight_eq, hr'.getHeight_eq]
        omega
      · intro hc
        exact childrenLinked_balance (h := h) hll hc
    · obtain ⟨hr', hh⟩ := removeR_avl k hr f
      simp only [removeR_gt hk, removeKeepsLinks, if_neg hk.not_gt, if_pos hk,
        ← ihr hr hndr hlr.children f]
      constructor
      · intro hc
        refine linked_setParent.mp (linked_right_of_balance hc ?_)
        rw [getHeight_setParent, hl.getHeight_eq, hr'.getHeight_eq]
        omega
      · intro hc
        exact childrenLinked_balance (h := h) hll (linked_setParent.mpr hc)

theorem insertR_refs (e : Entry K V) (t : Node K V) (f : Fields K V) :
    ((insertR e t f).1.refs = t.refs ∧ (insertR e t f).2.fresh = f.fresh) ∨
      ∃ a b, t.refs = a ++ b ∧ (insertR e t f).1.refs = a ++ f.fresh :: b ∧
        (insertR e t f).2.fresh = f.fresh + 1 := by
  induction t generalizing f with
  | null => exact Or.inr ⟨[], [], rfl, by simp [insertR, refs], rfl⟩
  | node p pp h pe l r ihl ihr =>
    rcases lt_trichotomy e.key pe.key with hk | hk | hk
    · simp only [insertR_lt hk, refs_balance, refs, refs_setParent]
      rcases ihl f with ⟨hr, hf⟩ | ⟨a, b, hab, hr, hf⟩
      · exact Or.inl ⟨by rw [hr], hf⟩
      · exact Or.inr ⟨a, b ++ p :: r.refs, by simp [hab], by simp [hr], hf⟩
    · exact Or.inl (by simp [insertR_eq hk, refs])
    · simp only [insertR_gt hk, refs_balance, refs, refs_setParent]
      rcases ihr f with ⟨hr, hf⟩ | ⟨a, b, hab, hr, hf⟩
      · exact Or.inl ⟨by rw [hr], hf⟩
      · exact Or.inr ⟨l.refs ++ p :: a, b, by simp [hab], by simp [hr], hf⟩

theorem removeR_refs (k : K) (t : Node K V) (f : Fields K V) :
    (removeR k t f).1.refs.Sublist t.refs ∧ (removeR k t f).2.fresh = f.fresh := by
  induction t generalizing f with
  | null => exact ⟨List.Sublist.refl _, rfl⟩
  | node p pp h e l r ihl ihr =>
    rcases lt_trichotomy k e.key with hk | hk | hk
    · simp only [removeR_lt hk, refs_balance, refs, refs_setParent]
      exact ⟨(ihl f).1.append_right _, (ihl f).2⟩
    · by_cases hln : l = null
      · subst hln
        simp [removeR_left_null hk, refs]
      by_cases hrn : r = null
      · subst hrn
        simp [removeR_right_null hk, refs]
      obtain ⟨r', m, g, hx⟩ := getRemMinR_isSome hrn
      simp [removeR_both hk hln hx, refs, getRemMinR_refs hx]
    · simp only [removeR_gt hk, refs_balance, refs, refs_setParent]
      exact ⟨((ihr f).1.cons_cons p).append_left _, (ihr f).2⟩

end BinaryTreeDictionary
