import Mathlib.Data.List.Perm.Basic
import Mathlib.Tactic

set_option linter.unusedSectionVars false

namespace PriorityQueue

variable {α : Type*} [DecidableEq α]

-- `less a b` is `compare(a, b) < 0`; the list is the prefix of the array that is in use.
def siftUp (less : α → α → Bool) : ℕ → ℕ → α → List α → List α
  | 0, k, x, es => es.set k x
  | fuel + 1, k, x, es =>
    if k = 0 then es.set k x
    else
      match es[(k - 1) / 2]? with
      | none => es.set k x
      | some e =>
        if less x e then siftUp less fuel ((k - 1) / 2) x (es.set k e) else es.set k x

def smallerChild (less : α → α → Bool) (k : ℕ) (es : List α) : Option (ℕ × α) :=
  match es[2 * k + 1]?, es[2 * k + 2]? with
  | none, _ => none
  | some c, none => some (2 * k + 1, c)
  | some c, some r => if less r c then some (2 * k + 2, r) else some (2 * k + 1, c)

def siftDown (less : α → α → Bool) : ℕ → ℕ → α → List α → List α
  | 0, k, x, es => es.set k x
  | fuel + 1, k, x, es =>
    if k < es.length / 2 then
      match smallerChild less k es with
      | none => es.set k x
      | some (child, c) =>
        if less c x then siftDown less fuel child x (es.set k c) else es.set k x
    else es.set k x

def add (less : α → α → Bool) (es : List α) (x : α) : List α :=
  siftUp less es.length es.length x (es ++ [x])

def poll (less : α → α → Bool) : List α → Option (α × List α)
  | [] => none
  | r :: es =>
    match es.getLast? with
    | none => some (r, [])
    | some x => some (r, siftDown less es.length 0 x ((r :: es).dropLast))

def removeAt (less : α → α → Bool) (es : List α) (i : ℕ) : List α :=
  match es.getLast? with
  | none => es
  | some moved =>
    let s := es.length - 1
    if s = i then es.dropLast
    else
      let es' := siftDown less s i moved es.dropLast
      if es'[i]? = some moved then siftUp less s i moved es' else es'

def remove (less : α → α → Bool) (es : List α) (x : α) : List α :=
  match es.idxOf? x with
  | none => es
  | some i => removeAt less es i

theorem set_parent_perm {es : List α} {k p : ℕ} {x e : α} (hk : k < es.length)
    (hp : es[p]? = some e) (hne : p ≠ k) : ((es.set k e).set p x).Perm (es.set k x) := by
  obtain ⟨hp', rfl⟩ := List.getElem?_eq_some_iff.mp hp
  have hswap := List.set_set_perm (i := k) (j := p)
    (show k < (es.set k x).length by rwa [List.length_set]) (by rwa [List.length_set])
  rwa [List.getElem_set_self, List.getElem_set_ne hne.symm, List.set_set] at hswap

theorem siftUp_perm (less : α → α → Bool) (fuel k : ℕ) (x : α) (es : List α)
    (hk : k < es.length) : (siftUp less fuel k x es).Perm (es.set k x) := by
  induction fuel generalizing k es with
  | zero => exact List.Perm.refl _
  | succ fuel ih =>
    rw [siftUp]
    split
    · exact List.Perm.refl _
    · rename_i hk0
      split
      · exact List.Perm.refl _
      · rename_i e he
        split
        · have hp : (k - 1) / 2 < (es.set k e).length := by
            rw [List.length_set]
            omega
          exact (ih _ _ hp).trans (set_parent_perm hk he (by omega))
        · exact List.Perm.refl _

theorem smallerChild_spec {less : α → α → Bool} {k : ℕ} {es : List α} {child : ℕ} {c : α}
    (h : smallerChild less k es = some (child, c)) : es[child]? = some c ∧ k < child := by
  unfold smallerChild at h
  split at h
  · cases h
  · rename_i hc _
    obtain ⟨rfl, rfl⟩ := Prod.mk.inj (Option.some.inj h)
    exact ⟨hc, by omega⟩
  · rename_i hc hr
    split at h
    · obtain ⟨rfl, rfl⟩ := Prod.mk.inj (Option.some.inj h)
      exact ⟨hr, by omega⟩
    · obtain ⟨rfl, rfl⟩ := Prod.mk.inj (Option.some.inj h)
      exact ⟨hc, by omega⟩

theorem siftDown_perm (less : α → α → Bool) (fuel k : ℕ) (x : α) (es : List α)
    (hk : k < es.length) : (siftDown less fuel k x es).Perm (es.set k x) := by
  induction fuel generalizing k es with
  | zero => exact List.Perm.refl _
  | succ fuel ih =>
    rw [siftDown]
    split
    · split
      · exact List.Perm.refl _
      · rename_i child c hc
        obtain ⟨hchild, hlt⟩ := smallerChild_spec hc
        split
        · have hlen : child < (es.set k c).length := by
            rw [List.length_set]
            exact (List.getElem?_eq_some_iff.mp hchild).1
          exact (ih _ _ hlen).trans (set_parent_perm hk hchild hlt.ne')
        · exact List.Perm.refl _
    · exact List.Perm.refl _

theorem add_perm (less : α → α → Bool) (es : List α) (x : α) :
    (add less es x).Perm (es ++ [x]) := by
  have h := siftUp_perm less es.length es.length x (es ++ [x]) (by simp)
  rwa [List.set_append_right _ _ (le_refl _), Nat.sub_self, List.set_cons_zero] at h

theorem poll_eq_none {less : α → α → Bool} {es : List α} : poll less es = none ↔ es = [] := by
  cases es with
  | nil => simp [poll]
  | cons r es =>
    simp only [poll, reduceCtorEq, iff_false]
    split <;> simp

theorem poll_perm {less : α → α → Bool} {es rest : List α} {r : α}
    (h : poll less es = some (r, rest)) : es.Perm (r :: rest) := by
  cases es with
  | nil => cases h
  | cons a as =>
    simp only [poll] at h
    split at h
    · rename_i hlast
      obtain ⟨rfl, rfl⟩ := Prod.mk.inj (Option.some.inj h)
      rw [List.getLast?_eq_none_iff.mp hlast]
    · rename_i x hlast
      obtain ⟨rfl, rfl⟩ := Prod.mk.inj (Option.some.inj h)
      obtain ⟨bs, rfl⟩ := List.getLast?_eq_some_iff.mp hlast
      have hdrop : (a :: (bs ++ [x])).dropLast = a :: bs := by
        rw [← List.cons_append, List.dropLast_concat]
      rw [hdrop]
      have hd := siftDown_perm less (bs ++ [x]).length 0 x (a :: bs) (by simp)
      rw [List.set_cons_zero] at hd
      refine List.Perm.cons a ?_
      exact List.perm_append_singleton x bs |>.trans hd.symm

theorem removeAt_perm (less : α → α → Bool) (es : List α) {i : ℕ} {x : α}
    (hi : es[i]? = some x) : es.Perm (x :: removeAt less es i) := by
  obtain ⟨hlt, hx⟩ := List.getElem?_eq_some_iff.mp hi
  unfold removeAt
  cases hlast : es.getLast? with
  | none =>
    rw [List.getLast?_eq_none_iff.mp hlast] at hlt
    cases hlt
  | some moved =>
    obtain ⟨bs, rfl⟩ := List.getLast?_eq_some_iff.mp hlast
    have hlen : (bs ++ [moved]).length - 1 = bs.length := by simp
    simp only [hlen, List.dropLast_concat]
    split
    · rename_i hs
      subst hs
      rw [List.getElem?_append_right (le_refl _), Nat.sub_self] at hi
      obtain rfl : moved = x := Option.some.inj hi
      exact List.perm_append_singleton moved bs
    · rename_i hs
      have hib : i < bs.length := by
        rw [List.length_append, List.length_singleton] at hlt
        omega
      have hd := siftDown_perm less bs.length i moved bs hib
      have hset : (bs ++ [moved]).Perm (x :: bs.set i moved) := by
        rw [List.getElem?_append_left hib] at hi
        obtain ⟨_, rfl⟩ := List.getElem?_eq_some_iff.mp hi
        have h1 := List.set_perm_cons_eraseIdx hib moved
        have h2 := List.getElem_cons_eraseIdx_perm hib
        calc (bs ++ [moved]).Perm (moved :: bs) := List.perm_append_singleton moved bs
          _ |>.Perm (moved :: bs[i] :: bs.eraseIdx i) := (h2.symm).cons moved
          _ |>.Perm (bs[i] :: moved :: bs.eraseIdx i) := List.Perm.swap _ _ _
          _ |>.Perm (bs[i] :: bs.set i moved) := h1.symm.cons _
      split
      · rename_i hmoved
        have hil : i < (siftDown less bs.length i moved bs).length :=
          (List.getElem?_eq_some_iff.mp hmoved).1
        have hu := siftUp_perm less bs.length i moved _ hil
        have hsame : (siftDown less bs.length i moved bs).set i moved =
            siftDown less bs.length i moved bs := by
          generalize siftDown less bs.length i moved bs = ds at hmoved hil
          obtain ⟨_, rfl⟩ := List.getElem?_eq_some_iff.mp hmoved
          exact List.set_getElem_self _
        rw [hsame] at hu
        exact hset.trans ((hu.trans hd).symm.cons x)
      · exact hset.trans (hd.symm.cons x)

theorem remove_perm (less : α → α → Bool) {es : List α} {x : α} (hx : x ∈ es) :
    es.Perm (x :: remove less es x) := by
  unfold remove
  cases hi : es.idxOf? x with
  | none => exact absurd hx (List.idxOf?_eq_none_iff.mp hi)
  | some i =>
    obtain ⟨hlt, hget, -⟩ := List.idxOf?_eq_some_iff.mp hi
    exact removeAt_perm less es (List.getElem?_eq_some_iff.mpr ⟨hlt, hget⟩)

section Map

variable {β : Type*} [DecidableEq β]

theorem siftUp_map (f : α → β) (less : β → β → Bool) (fuel k : ℕ) (x : α) (es : List α) :
    (siftUp (fun a b => less (f a) (f b)) fuel k x es).map f =
      siftUp less fuel k (f x) (es.map f) := by
  induction fuel generalizing k es with
  | zero => exact List.map_set
  | succ fuel ih =>
    rw [siftUp, siftUp]
    split
    · exact List.map_set
    · rw [List.getElem?_map]
      cases es[(k - 1) / 2]? with
      | none => exact List.map_set
      | some e =>
        simp only [Option.map_some]
        split
        · rw [ih, List.map_set]
        · exact List.map_set

theorem add_map (f : α → β) (less : β → β → Bool) (es : List α) (x : α) :
    (add (fun a b => less (f a) (f b)) es x).map f = add less (es.map f) (f x) := by
  rw [add, siftUp_map, add, List.map_append, List.length_map]
  rfl

theorem smallerChild_map (f : α → β) (less : β → β → Bool) (k : ℕ) (es : List α) :
    (smallerChild (fun a b => less (f a) (f b)) k es).map (fun c => (c.1, f c.2)) =
      smallerChild less k (es.map f) := by
  unfold smallerChild
  rw [List.getElem?_map, List.getElem?_map]
  cases es[2 * k + 1]? with
  | none => rfl
  | some c =>
    cases es[2 * k + 2]? with
    | none => rfl
    | some r =>
      simp only [Option.map_some]
      split <;> rfl

theorem siftDown_map (f : α → β) (less : β → β → Bool) (fuel k : ℕ) (x : α) (es : List α) :
    (siftDown (fun a b => less (f a) (f b)) fuel k x es).map f =
      siftDown less fuel k (f x) (es.map f) := by
  induction fuel generalizing k es with
  | zero => exact List.map_set
  | succ fuel ih =>
    rw [siftDown, siftDown, List.length_map, ← smallerChild_map]
    split
    · cases smallerChild (fun a b => less (f a) (f b)) k es with
      | none => exact List.map_set
      | some c =>
        simp only [Option.map_some]
        split
        · rw [ih, List.map_set]
        · exact List.map_set
    · exact List.map_set

theorem poll_map (f : α → β) (less : β → β → Bool) (es : List α) :
    (poll (fun a b => less (f a) (f b)) es).map (fun r => (f r.1, r.2.map f)) =
      poll less (es.map f) := by
  cases es with
  | nil => rfl
  | cons r es =>
    rw [List.map_cons, poll, poll, List.getLast?_map]
    cases es.getLast? with
    | none => rfl
    | some x =>
      simp only [Option.map_some, siftDown_map, List.map_dropLast, List.map_cons, List.length_map]

theorem removeAt_map {f : α → β} (less : β → β → Bool) {es : List α} {i : ℕ} (hi : i < es.length)
    (hf : ∀ a ∈ es, ∀ b ∈ es, f a = f b → a = b) :
    (removeAt (fun a b => less (f a) (f b)) es i).map f = removeAt less (es.map f) i := by
  rw [removeAt, removeAt, List.getLast?_map]
  cases hlast : es.getLast? with
  | none => rfl
  | some moved =>
    simp only [Option.map_some, List.length_map]
    split
    · exact List.map_dropLast
    · rename_i hne
      have hlen : i < es.dropLast.length := by
        rw [List.length_dropLast]
        omega
      have hperm := siftDown_perm (fun a b => less (f a) (f b)) (es.length - 1) i moved _ hlen
      have hmoved : moved ∈ es := List.mem_of_getLast? hlast
      rw [← List.map_dropLast, ← siftDown_map, List.getElem?_map]
      generalize siftDown (fun a b => less (f a) (f b)) (es.length - 1) i moved es.dropLast = ds
        at hperm
      have hiff : ds[i]?.map f = some (f moved) ↔ ds[i]? = some moved := by
        constructor
        · intro hmap
          obtain ⟨y, hy, heq⟩ := Option.map_eq_some_iff.mp hmap
          have hmem : y ∈ es.dropLast.set i moved :=
            hperm.mem_iff.mp (List.mem_of_getElem? hy)
          have hyes : y ∈ es := by
            rcases List.mem_or_eq_of_mem_set hmem with hm | rfl
            · exact (List.dropLast_sublist es).subset hm
            · exact hmoved
          rw [hy, hf y hyes moved hmoved heq]
        · intro h
          rw [h]
          rfl
      simp only [hiff]
      split
      · exact siftUp_map f less _ _ _ _
      · rfl

end Map

end PriorityQueue
