import Mathlib.Data.List.Pairwise
import HTWGArchive.Dictionary.Node

namespace BinaryTreeDictionary

variable {K V : Type*}

namespace Node

def entries : Node K V → List (Entry K V)
  | null => []
  | node _ _ _ e l r => l.entries ++ e :: r.entries

@[simp] theorem entries_setParent (t : Node K V) (q : Option Ref) :
    (t.setParent q).entries = t.entries := by
  cases t <;> rfl

@[simp] theorem entries_rotateRight (t : Node K V) : t.rotateRight.entries = t.entries := by
  unfold rotateRight
  split <;> simp [entries]

@[simp] theorem entries_rotateLeft (t : Node K V) : t.rotateLeft.entries = t.entries := by
  unfold rotateLeft
  split <;> simp [entries]

@[simp] theorem entries_rotateLeftRight (t : Node K V) :
    t.rotateLeftRight.entries = t.entries := by
  cases t <;> simp [rotateLeftRight, entries]

@[simp] theorem entries_rotateRightLeft (t : Node K V) :
    t.rotateRightLeft.entries = t.entries := by
  cases t <;> simp [rotateRightLeft, entries]

@[simp] theorem entries_balance (t : Node K V) : t.balance.entries = t.entries := by
  cases t with
  | null => rfl
  | node p pp h e l r =>
    simp only [balance]
    split_ifs <;> simp [entries]

theorem getRemMinR_isSome {t : Node K V} (h : t ≠ null) :
    ∃ t' m g, getRemMinR t = some (t', m, g) := by
  induction t with
  | null => exact absurd rfl h
  | node p pp ht e l r ihl _ =>
    by_cases hl : l = null
    · subst hl
      exact ⟨_, _, _, getRemMinR_left_null⟩
    · obtain ⟨l', m, g, hx⟩ := ihl hl
      exact ⟨_, _, _, by rw [getRemMinR_left hl, hx]; rfl⟩

theorem entries_getRemMinR {t t' : Node K V} {m : Entry K V} {g : Cell K V}
    (h : getRemMinR t = some (t', m, g)) : t.entries = m :: t'.entries := by
  induction t generalizing t' with
  | null => simp [getRemMinR] at h
  | node p pp ht e l r ihl _ =>
    by_cases hl : l = null
    · subst hl
      simp only [getRemMinR_left_null, Option.some.injEq, Prod.mk.injEq] at h
      obtain ⟨rfl, rfl, rfl⟩ := h
      simp [entries]
    · simp only [getRemMinR_left hl, Option.map_eq_some_iff, Prod.mk.injEq] at h
      obtain ⟨⟨l', x⟩, hx, rfl, rfl⟩ := h
      simp [entries, ihl hx]

variable [LinearOrder K]

def SearchTree : Node K V → Prop
  | null => True
  | node _ _ _ e l r => SearchTree l ∧ SearchTree r ∧
      (∀ x ∈ l.entries, x.key < e.key) ∧ ∀ x ∈ r.entries, e.key < x.key

theorem searchTree_iff (t : Node K V) :
    SearchTree t ↔ t.entries.Pairwise (fun x y => x.key < y.key) := by
  induction t with
  | null => simp [SearchTree, entries]
  | node p pp h e l r ihl ihr =>
    simp only [SearchTree, entries, ihl, ihr, List.pairwise_append, List.pairwise_cons,
      List.mem_cons, forall_eq_or_imp]
    constructor
    · rintro ⟨hl, hr, hle, her⟩
      exact ⟨hl, ⟨her, hr⟩, fun x hx => ⟨hle x hx, fun y hy => (hle x hx).trans (her y hy)⟩⟩
    · rintro ⟨hl, ⟨her, hr⟩, hx⟩
      exact ⟨hl, hr, fun x hm => (hx x hm).1, her⟩

theorem SearchTree.of_entries {s t : Node K V} (h : SearchTree t)
    (he : s.entries = t.entries) : SearchTree s := by
  rwa [searchTree_iff, he, ← searchTree_iff]

def contents (t : Node K V) (k : K) : Option V :=
  (t.entries.find? (fun x => x.key = k)).map Entry.value

theorem contents_congr {s t : Node K V} (h : s.entries = t.entries) :
    contents s = contents t := by
  funext k
  simp [contents, h]

@[simp] theorem contents_setParent (t : Node K V) (q : Option Ref) :
    contents (t.setParent q) = contents t := contents_congr (entries_setParent t q)

@[simp] theorem contents_balance (t : Node K V) : contents t.balance = contents t :=
  contents_congr (entries_balance t)

theorem contents_eq_none {t : Node K V} {k : K} (h : ∀ x ∈ t.entries, x.key ≠ k) :
    contents t k = none := by
  simp only [contents, Option.map_eq_none_iff, List.find?_eq_none, decide_eq_true_eq]
  exact h

theorem contents_node {p : Ref} {pp : Option Ref} {h : Int} {e : Entry K V} {l r : Node K V}
    (ht : SearchTree (node p pp h e l r)) (k : K) :
    contents (node p pp h e l r) k =
      if k < e.key then contents l k else if e.key < k then contents r k
      else some e.value := by
  obtain ⟨_, _, hl, hr⟩ := ht
  have split : contents (node p pp h e l r) k =
      (contents l k).or (if e.key = k then some e.value else contents r k) := by
    simp only [contents, entries, List.find?_append, List.find?_cons]
    by_cases he : e.key = k <;> cases l.entries.find? (fun x => x.key = k) <;> simp [he]
  rw [split]
  rcases lt_trichotomy k e.key with hk | hk | hk
  · have hn : contents r k = none := contents_eq_none fun x hx => (hk.trans (hr x hx)).ne'
    simp [hk, hk.ne', hn]
  · have hn : contents l k = none := contents_eq_none fun x hx => by
      rw [hk]
      exact (hl x hx).ne
    rw [hn, hk]
    simp
  · have hn : contents l k = none := contents_eq_none fun x hx => ((hl x hx).trans hk).ne
    simp [hk, hk.ne, hk.not_gt, hn]

end Node

open Node

variable [LinearOrder K]

theorem searchR_eq {t : Node K V} (h : SearchTree t) (k : K) : searchR k t = contents t k := by
  induction t with
  | null => rfl
  | node p pp ht e l r ihl ihr => rw [searchR, contents_node h, ihl h.1, ihr h.2.1]

theorem insertR_keys (e : Entry K V) (t : Node K V) (f : Fields K V) :
    ∀ x ∈ (insertR e t f).1.entries, x.key = e.key ∨ ∃ y ∈ t.entries, y.key = x.key := by
  induction t generalizing f with
  | null => simp [insertR, entries]
  | node p pp h pe l r ihl ihr =>
    intro x hx
    rcases lt_trichotomy e.key pe.key with hk | hk | hk
    · simp only [insertR_lt hk, entries_balance, entries, entries_setParent, List.mem_append,
        List.mem_cons] at hx ⊢
      rcases hx with hx | hx
      · rcases ihl f x hx with heq | ⟨y, hy, heq⟩
        · exact Or.inl heq
        · exact Or.inr ⟨y, Or.inl hy, heq⟩
      · exact Or.inr ⟨x, Or.inr hx, rfl⟩
    · simp only [insertR_eq hk, entries_balance, entries, List.mem_append,
        List.mem_cons] at hx ⊢
      rcases hx with hx | rfl | hx
      · exact Or.inr ⟨x, Or.inl hx, rfl⟩
      · exact Or.inr ⟨pe, Or.inr (Or.inl rfl), rfl⟩
      · exact Or.inr ⟨x, Or.inr (Or.inr hx), rfl⟩
    · simp only [insertR_gt hk, entries_balance, entries, entries_setParent, List.mem_append,
        List.mem_cons] at hx ⊢
      rcases hx with hx | rfl | hx
      · exact Or.inr ⟨x, Or.inl hx, rfl⟩
      · exact Or.inr ⟨x, Or.inr (Or.inl rfl), rfl⟩
      · rcases ihr f x hx with heq | ⟨y, hy, heq⟩
        · exact Or.inl heq
        · exact Or.inr ⟨y, Or.inr (Or.inr hy), heq⟩

theorem insertR_searchTree (e : Entry K V) {t : Node K V} (ht : SearchTree t) (f : Fields K V) :
    SearchTree (insertR e t f).1 := by
  induction t generalizing f with
  | null => simp [searchTree_iff, insertR, entries]
  | node p pp h pe l r ihl ihr =>
    obtain ⟨hl, hr, hle, her⟩ := ht
    rcases lt_trichotomy e.key pe.key with hk | hk | hk
    · rw [insertR_lt hk]
      refine SearchTree.of_entries (t := node p pp h pe (insertR e l f).1 r)
        ⟨ihl hl f, hr, fun x hx => ?_, her⟩ (by simp [entries])
      rcases insertR_keys e l f x hx with hx | ⟨y, hy, hx⟩
      · rwa [hx]
      · exact hx ▸ hle y hy
    · rw [insertR_eq hk]
      exact SearchTree.of_entries (t := node p pp h { pe with value := e.value } l r)
        ⟨hl, hr, hle, her⟩ (by simp)
    · rw [insertR_gt hk]
      refine SearchTree.of_entries (t := node p pp h pe l (insertR e r f).1)
        ⟨hl, ihr hr f, hle, fun x hx => ?_⟩ (by simp [entries])
      rcases insertR_keys e r f x hx with hx | ⟨y, hy, hx⟩
      · rwa [hx]
      · exact hx ▸ her y hy

theorem insertR_contents (e : Entry K V) {t : Node K V} (ht : SearchTree t) (f : Fields K V) :
    contents (insertR e t f).1 = Function.update (contents t) e.key (some e.value) := by
  induction t generalizing f with
  | null =>
    funext k
    by_cases hk : e.key = k
    · simp [insertR, contents, entries, hk]
    · simp [insertR, contents, entries, hk, Function.update_of_ne (Ne.symm hk)]
  | node p pp h pe l r ihl ihr =>
    have hs := insertR_searchTree e ht f
    funext k
    rcases lt_trichotomy e.key pe.key with he | he | he
    · rw [insertR_lt he] at hs ⊢
      rw [contents_balance, contents_node (hs.of_entries (by simp)), contents_setParent,
        ihl ht.1 f]
      by_cases hk : k = e.key
      · subst hk
        simp [he]
      · simp [Function.update_of_ne hk, contents_node ht]
    · rw [insertR_eq he] at hs ⊢
      rw [contents_balance, contents_node (hs.of_entries (by simp))]
      by_cases hk : k = e.key
      · subst hk
        simp [he]
      · rw [Function.update_of_ne hk, contents_node ht]
        have hne : k < pe.key ∨ pe.key < k := lt_or_gt_of_ne (he ▸ hk)
        rcases hne with hne | hne <;> simp [hne, hne.not_gt]
    · rw [insertR_gt he] at hs ⊢
      rw [contents_balance, contents_node (hs.of_entries (by simp)), contents_setParent,
        ihr ht.2.1 f]
      by_cases hk : k = e.key
      · subst hk
        simp [he, he.not_gt]
      · simp [Function.update_of_ne hk, contents_node ht]

theorem insertR_oldValue (e : Entry K V) {t : Node K V} (ht : SearchTree t) (f : Fields K V) :
    (insertR e t f).2.oldValue = contents t e.key := by
  induction t generalizing f with
  | null => rfl
  | node p pp h pe l r ihl ihr =>
    rw [contents_node ht]
    rcases lt_trichotomy e.key pe.key with hk | hk | hk
    · simp [insertR_lt hk, hk, ihl ht.1 f]
    · simp [insertR_eq hk, hk]
    · simp [insertR_gt hk, hk, hk.not_gt, ihr ht.2.1 f]

theorem insertR_size (e : Entry K V) (t : Node K V) (f : Fields K V) :
    (insertR e t f).2.size - f.size =
      ((insertR e t f).1.entries.length : Int) - t.entries.length := by
  induction t generalizing f with
  | null => simp [insertR, entries]
  | node p pp h pe l r ihl ihr =>
    rcases lt_trichotomy e.key pe.key with hk | hk | hk
    · have := ihl f
      simp only [insertR_lt hk, entries_balance, entries, entries_setParent, List.length_append,
        List.length_cons]
      omega
    · simp [insertR_eq hk, entries]
    · have := ihr f
      simp only [insertR_gt hk, entries_balance, entries, entries_setParent, List.length_append,
        List.length_cons]
      omega

theorem filter_ne_eq_self {xs : List (Entry K V)} {k : K} (h : ∀ x ∈ xs, x.key ≠ k) :
    xs.filter (fun x => x.key ≠ k) = xs :=
  List.filter_eq_self.mpr fun x hx => by simpa using h x hx

theorem removeR_entries (k : K) {t : Node K V} (ht : SearchTree t) (f : Fields K V) :
    (removeR k t f).1.entries = t.entries.filter (fun x => x.key ≠ k) := by
  induction t generalizing f with
  | null => rfl
  | node p pp h e l r ihl ihr =>
    obtain ⟨hl, hr, hle, her⟩ := ht
    rcases lt_trichotomy k e.key with hk | hk | hk
    · have hfr := filter_ne_eq_self fun x hx => (hk.trans (her x hx)).ne'
      simp only [removeR_lt hk, entries_balance, entries, entries_setParent, ihl hl f,
        List.filter_append, List.filter_cons, hfr]
      simp [hk.ne']
    · have hfl := filter_ne_eq_self fun x hx => hk ▸ (hle x hx).ne
      have hfr := filter_ne_eq_self fun x hx => hk ▸ (her x hx).ne'
      simp only [entries, List.filter_append, List.filter_cons, hfl, hfr, ← hk]
      by_cases hln : l = null
      · subst hln
        simp [removeR_left_null hk, entries]
      by_cases hrn : r = null
      · subst hrn
        simp [removeR_right_null hk, entries]
      obtain ⟨r', m, g, hx⟩ := getRemMinR_isSome hrn
      simp [removeR_both hk hln hx, entries, entries_getRemMinR hx]
    · have hfl := filter_ne_eq_self fun x hx => ((hle x hx).trans hk).ne
      simp only [removeR_gt hk, entries_balance, entries, entries_setParent, ihr hr f,
        List.filter_append, List.filter_cons, hfl]
      simp [hk.ne]

theorem removeR_contents (k : K) {t : Node K V} (ht : SearchTree t) (f : Fields K V) :
    contents (removeR k t f).1 = Function.update (contents t) k none := by
  funext x
  by_cases hx : x = k
  · subst hx
    rw [Function.update_self]
    refine contents_eq_none fun y hy => ?_
    rw [removeR_entries x ht f] at hy
    simpa using (List.mem_filter.mp hy).2
  · rw [Function.update_of_ne hx]
    simp only [contents, removeR_entries k ht f, List.find?_filter]
    congr 2
    funext y
    by_cases hy : y.key = x
    · simp [hy, hx]
    · simp [hy]

theorem removeR_searchTree (k : K) {t : Node K V} (ht : SearchTree t) (f : Fields K V) :
    SearchTree (removeR k t f).1 := by
  rw [searchTree_iff, removeR_entries k ht f]
  exact ((searchTree_iff t).mp ht).filter _

theorem removeR_oldValue (k : K) {t : Node K V} (ht : SearchTree t) (f : Fields K V) :
    (removeR k t f).2.oldValue = contents t k := by
  induction t generalizing f with
  | null => rfl
  | node p pp h e l r ihl ihr =>
    rw [contents_node ht]
    rcases lt_trichotomy k e.key with hk | hk | hk
    · simp [removeR_lt hk, hk, ihl ht.1 f]
    · rw [if_neg hk.not_lt, if_neg hk.not_gt]
      by_cases hln : l = null
      · subst hln
        rw [removeR_left_null hk]
      by_cases hrn : r = null
      · subst hrn
        rw [removeR_right_null hk]
      obtain ⟨r', m, g, hx⟩ := getRemMinR_isSome hrn
      rw [removeR_both hk hln hx]
    · simp [removeR_gt hk, hk, hk.not_gt, ihr ht.2.1 f]

theorem removeR_size (k : K) (t : Node K V) (f : Fields K V) :
    (removeR k t f).2.size - f.size =
      ((removeR k t f).1.entries.length : Int) - t.entries.length := by
  induction t generalizing f with
  | null => simp [removeR, entries]
  | node p pp h e l r ihl ihr =>
    rcases lt_trichotomy k e.key with hk | hk | hk
    · have := ihl f
      simp only [removeR_lt hk, entries_balance, entries, entries_setParent, List.length_append,
        List.length_cons]
      omega
    · by_cases hln : l = null
      · subst hln
        simp only [removeR_left_null hk, entries_balance, entries, List.length_append,
          List.length_cons, List.length_nil]
        omega
      by_cases hrn : r = null
      · subst hrn
        simp only [removeR_right_null hk, entries_balance, entries, List.length_append,
          List.length_cons, List.length_nil]
        omega
      obtain ⟨r', m, g, hx⟩ := getRemMinR_isSome hrn
      simp only [removeR_both hk hln hx, entries_balance, entries, entries_getRemMinR hx,
        List.length_append, List.length_cons]
      omega
    · have := ihr f
      simp only [removeR_gt hk, entries_balance, entries, entries_setParent, List.length_append,
        List.length_cons]
      omega

end BinaryTreeDictionary
