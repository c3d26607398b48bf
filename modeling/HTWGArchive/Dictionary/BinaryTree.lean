import HTWGArchive.Dictionary.Balance

namespace BinaryTreeDictionary

open Node

variable {K V : Type*}

theorem avl_balance_self {t : Node K V} (h : Avl t) :
    Avl t.balance ∧ t.balance.realHeight = t.realHeight := by
  cases t with
  | null => exact ⟨h, rfl⟩
  | node p pp ht e l r =>
    obtain ⟨hl, hr, -, hb⟩ := avl_node.mp h
    obtain ⟨ha, hh⟩ := avl_balance (p := p) (o := pp) (h := ht) (e := e) hl hr
      (hb.trans (by norm_num))
    rw [abs_le] at hb
    exact ⟨ha, by simp only [realHeight]; omega⟩

theorem getRemMinR_avl {t t' : Node K V} {m : Entry K V} {g : Cell K V} (ht : Avl t)
    (h : getRemMinR t = some (t', m, g)) :
    Avl t' ∧ (t'.realHeight = t.realHeight ∨ t'.realHeight = t.realHeight - 1) := by
  induction t generalizing t' with
  | null => simp [getRemMinR] at h
  | node p pp ht' e l r ihl _ =>
    obtain ⟨hl, hr, -, hb⟩ := avl_node.mp ht
    rw [abs_le] at hb
    by_cases hln : l = null
    · subst hln
      simp only [getRemMinR_left_null, Option.some.injEq, Prod.mk.injEq] at h
      obtain ⟨rfl, rfl, rfl⟩ := h
      obtain ⟨ha, hh⟩ := avl_balance_self hr
      have := neg_one_le_realHeight r
      refine ⟨ha, ?_⟩
      simp only [realHeight]
      omega
    · simp only [getRemMinR_left hln, Option.map_eq_some_iff, Prod.mk.injEq] at h
      obtain ⟨⟨l', x⟩, hx, rfl, rfl⟩ := h
      obtain ⟨hl', hh⟩ := ihl hl hx
      obtain ⟨ha, hh'⟩ := avl_balance (p := p) (o := pp) (h := ht') (e := e) hl' hr
        (by rw [abs_le]; omega)
      refine ⟨ha, ?_⟩
      simp only [realHeight] at hh' ⊢
      omega

variable [LinearOrder K]

theorem insertR_avl (e : Entry K V) {t : Node K V} (ht : Avl t) (f : Fields K V) :
    Avl (insertR e t f).1 ∧ ((insertR e t f).1.realHeight = t.realHeight ∨
      (insertR e t f).1.realHeight = t.realHeight + 1) := by
  induction t generalizing f with
  | null =>
    obtain ⟨ha, hh⟩ := avl_balance (p := f.fresh) (o := none) (h := 0) (e := e)
      (avl_null (K := K) (V := V)) avl_null (by simp)
    refine ⟨ha, Or.inr ?_⟩
    simp only [insertR, realHeight] at hh ⊢
    simpa using hh
  | node p pp h pe l r ihl ihr =>
    obtain ⟨hl, hr, -, hb⟩ := avl_node.mp ht
    rw [abs_le] at hb
    rcases lt_trichotomy e.key pe.key with hk | hk | hk
    · rw [insertR_lt hk]
      obtain ⟨hl', hh⟩ := ihl hl f
      obtain ⟨ha, hh'⟩ := avl_balance (p := p) (o := pp) (h := h) (e := pe)
        (hl'.setParent (some p)) hr (by rw [abs_le, realHeight_setParent]; omega)
      refine ⟨ha, ?_⟩
      simp only [realHeight, realHeight_setParent] at hh' ⊢
      omega
    · rw [insertR_eq hk]
      have := avl_balance_self (t := node p pp h { pe with value := e.value } l r)
        (avl_node.mpr (avl_node.mp ht))
      exact ⟨this.1, Or.inl this.2⟩
    · rw [insertR_gt hk]
      obtain ⟨hr', hh⟩ := ihr hr f
      obtain ⟨ha, hh'⟩ := avl_balance (p := p) (o := pp) (h := h) (e := pe) hl
        (hr'.setParent (some p)) (by rw [abs_le, realHeight_setParent]; omega)
      refine ⟨ha, ?_⟩
      simp only [realHeight, realHeight_setParent] at hh' ⊢
      omega

theorem removeR_avl (k : K) {t : Node K V} (ht : Avl t) (f : Fields K V) :
    Avl (removeR k t f).1 ∧ ((removeR k t f).1.realHeight = t.realHeight ∨
      (removeR k t f).1.realHeight = t.realHeight - 1) := by
  induction t generalizing f with
  | null => exact ⟨avl_null, Or.inl rfl⟩
  | node p pp h e l r ihl ihr =>
    obtain ⟨hl, hr, -, hb⟩ := avl_node.mp ht
    rw [abs_le] at hb
    rcases lt_trichotomy k e.key with hk | hk | hk
    · rw [removeR_lt hk]
      obtain ⟨hl', hh⟩ := ihl hl f
      obtain ⟨ha, hh'⟩ := avl_balance (p := p) (o := pp) (h := h) (e := e)
        (hl'.setParent (some p)) hr (by rw [abs_le, realHeight_setParent]; omega)
      refine ⟨ha, ?_⟩
      simp only [realHeight, realHeight_setParent] at hh' ⊢
      omega
    · by_cases hln : l = null
      · subst hln
        rw [removeR_left_null hk]
        obtain ⟨ha, hh⟩ := avl_balance_self hr
        have := neg_one_le_realHeight r
        exact ⟨ha, by simp only [realHeight, hh]; omega⟩
      by_cases hrn : r = null
      · subst hrn
        rw [removeR_right_null hk]
        obtain ⟨ha, hh⟩ := avl_balance_self hl
        have := neg_one_le_realHeight l
        exact ⟨ha, by simp only [realHeight, hh]; omega⟩
      obtain ⟨r', m, g, hx⟩ := getRemMinR_isSome hrn
      rw [removeR_both hk hln hx]
      obtain ⟨hr', hh⟩ := getRemMinR_avl hr hx
      obtain ⟨ha, hh'⟩ := avl_balance (p := p) (o := pp) (h := h) (e := m) hl hr'
        (by rw [abs_le]; omega)
      refine ⟨ha, ?_⟩
      simp only [realHeight] at hh' ⊢
      omega
    · rw [removeR_gt hk]
      obtain ⟨hr', hh⟩ := ihr hr f
      obtain ⟨ha, hh'⟩ := avl_balance (p := p) (o := pp) (h := h) (e := e) hl
        (hr'.setParent (some p)) (by rw [abs_le, realHeight_setParent]; omega)
      refine ⟨ha, ?_⟩
      simp only [realHeight, realHeight_setParent] at hh' ⊢
      omega

namespace Dictionary

structure Valid (d : Dictionary K V) : Prop where
  ordered : SearchTree d.root
  avl : Avl d.root
  counted : d.size = d.root.entries.length

theorem valid_empty : Valid (empty : Dictionary K V) :=
  ⟨trivial, avl_null, rfl⟩

theorem Valid.insert {d : Dictionary K V} (hd : Valid d) (k : K) (v : V) :
    Valid (d.insert k v).1 where
  ordered := (insertR_searchTree ⟨k, v⟩ hd.ordered d.toFields).of_entries
    (entries_setParent _ _)
  avl := (insertR_avl ⟨k, v⟩ hd.avl d.toFields).1.setParent none
  counted := by
    have hs := insertR_size ⟨k, v⟩ d.root d.toFields
    have hc := hd.counted
    simp only [Dictionary.insert, entries_setParent]
    omega

theorem Valid.remove {d : Dictionary K V} (hd : Valid d) (k : K) : Valid (d.remove k).1 where
  ordered := (removeR_searchTree k hd.ordered d.toFields).of_entries (entries_setParent _ _)
  avl := (removeR_avl k hd.avl d.toFields).1.setParent none
  counted := by
    have hs := removeR_size k d.root d.toFields
    have hc := hd.counted
    simp only [Dictionary.remove, entries_setParent]
    omega

def refinesMap : Refinement.Simulation (call (K := K) (V := V)) FiniteMap.call where
  Inv := Valid
  abs d := contents d.root
  preserves d c hd := by
    cases c with
    | insert k v => exact hd.insert k v
    | remove k => exact hd.remove k
    | search k => exact hd
  commutes d c hd := by
    cases c with
    | insert k v =>
      exact (contents_setParent _ _).trans (insertR_contents ⟨k, v⟩ hd.ordered d.toFields)
    | remove k => exact (contents_setParent _ _).trans (removeR_contents k hd.ordered d.toFields)
    | search k => rfl
  answers d c hd := by
    cases c with
    | insert k v => exact insertR_oldValue ⟨k, v⟩ hd.ordered d.toFields
    | remove k => exact removeR_oldValue k hd.ordered d.toFields
    | search k => exact searchR_eq hd.ordered k

def after (calls : List (FiniteMap.Call K V)) : Dictionary K V :=
  (Refinement.run call empty calls).1

def answers (calls : List (FiniteMap.Call K V)) : List (Option V) :=
  (Refinement.run call empty calls).2

theorem avl_map (calls : List (FiniteMap.Call K V)) :
    SearchTree (after calls).root ∧ HeightsStored (after calls).root ∧
      Balanced (after calls).root ∧ (after calls).size = (after calls).root.entries.length ∧
      answers calls = FiniteMap.answers calls := by
  have h := refinesMap.run_inv (valid_empty (K := K) (V := V)) calls
  exact ⟨h.ordered, h.avl.stored, h.avl.balanced, h.counted, refinesMap.run_answers valid_empty calls⟩

end Dictionary

end BinaryTreeDictionary
