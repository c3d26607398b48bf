import Mathlib.Data.List.Basic
import Mathlib.Data.List.Sublists
import Mathlib.Order.Lattice

namespace ShrinkingSelection

variable {α κ : Type*} [LinearOrder κ] {key : α → κ}

-- Every round takes the smallest element and keeps, of those before it, the last one only.
inductive Rounds (key : α → κ) : List α → List α → Prop where
  | done : Rounds key [] []
  | pick {front back out : List α} {x : α} (hmin : ∀ y ∈ front ++ back, key x < key y)
      (hrest : Rounds key (front.getLast?.toList ++ back) out) :
      Rounds key (front ++ x :: back) (x :: out)

-- No element stands behind two larger ones.
def InOrder (key : α → κ) (l : List α) : Prop :=
  ∀ a b c, [a, b, c].Sublist l → key a ≤ key c ∨ key b ≤ key c

theorem InOrder.sublist {l l' : List α} (h : InOrder key l) (hsub : l'.Sublist l) :
    InOrder key l' :=
  fun a b c habc => h a b c (habc.trans hsub)

theorem InOrder.front {front back : List α} {x : α} (h : InOrder key (front ++ x :: back))
    (hmin : ∀ y ∈ front ++ back, key x < key y) : front.length ≤ 1 := by
  rcases front with _ | ⟨a, _ | ⟨b, front⟩⟩
  · exact Nat.zero_le 1
  · exact le_refl 1
  · have hsub : [a, b, x].Sublist (a :: b :: front ++ x :: back) := by
      have hx : [x].Sublist (front ++ x :: back) := List.singleton_sublist.mpr (by simp)
      exact (hx.cons_cons b).cons_cons a
    rcases h a b x hsub with hle | hle
    · exact absurd (hmin a (by simp)) (not_lt.mpr hle)
    · exact absurd (hmin b (by simp)) (not_lt.mpr hle)

theorem getLast_toList {front : List α} (h : front.length ≤ 1) : front.getLast?.toList = front := by
  rcases front with _ | ⟨a, _ | ⟨b, front⟩⟩
  · rfl
  · rfl
  · simp only [List.length_cons] at h
    omega

theorem inOrder_insert {front back : List α} {x : α} (h : InOrder key (front ++ back))
    (hfront : front.length ≤ 1) (hmin : ∀ y ∈ front ++ back, key x < key y) :
    InOrder key (front ++ x :: back) := by
  intro a b c hsub
  obtain ⟨l₁, l₂, heq, h₁, h₂⟩ := List.sublist_append_iff.mp hsub
  rcases List.sublist_cons_iff.mp h₂ with hback | ⟨l₃, rfl, h₃⟩
  · apply h a b c
    rw [heq]
    exact h₁.append hback
  · have hlen := h₁.length_le.trans hfront
    rcases l₁ with _ | ⟨y, _ | ⟨z, l₁⟩⟩
    · obtain ⟨rfl, htail⟩ := List.cons.inj heq
      have hc : c ∈ l₃ := by
        rw [← htail]
        simp
      exact Or.inl (hmin c (List.mem_append_right _ (h₃.subset hc))).le
    · obtain ⟨_, htail⟩ := List.cons.inj heq
      obtain ⟨rfl, hrest⟩ := List.cons.inj htail
      have hc : c ∈ l₃ := by
        rw [← hrest]
        simp
      exact Or.inr (hmin c (List.mem_append_right _ (h₃.subset hc))).le
    · simp only [List.length_cons] at hlen
      omega

theorem kept_sublist (front back : List α) :
    (front.getLast?.toList ++ back).Sublist (front ++ back) := by
  apply List.Sublist.append_right
  cases hlast : front.getLast? with
  | none => exact List.nil_sublist front
  | some y => exact List.singleton_sublist.mpr (List.mem_of_getLast? hlast)

theorem next_sublist (front back : List α) (x : α) :
    (front.getLast?.toList ++ back).Sublist (front ++ x :: back) :=
  (kept_sublist front back).trans
    ((List.Sublist.refl front).append (List.sublist_cons_self x back))

namespace Rounds

variable {l out : List α}

theorem length_le (h : Rounds key l out) : out.length ≤ l.length := by
  induction h with
  | done => exact le_refl 0
  | @pick front back out x _ _ ih =>
    have hkept := ih.trans (kept_sublist front back).length_le
    simp only [List.length_append, List.length_cons] at hkept ⊢
    omega

theorem perm (h : Rounds key l out) (horder : InOrder key l) : out.Perm l := by
  induction h with
  | done => exact List.Perm.refl []
  | @pick front back out x hmin _ ih =>
    have hfront := getLast_toList (horder.front hmin)
    rw [hfront] at ih
    have hrest : (front ++ back).Sublist (front ++ x :: back) :=
      (List.Sublist.refl front).append (List.sublist_cons_self x back)
    exact ((ih (horder.sublist hrest)).cons x).trans List.perm_middle.symm

theorem inOrder (h : Rounds key l out) (hlen : out.length = l.length) : InOrder key l := by
  induction h with
  | done => exact fun a b c hsub => absurd hsub (by simp)
  | @pick front back out x hmin hrest ih =>
    have hle := hrest.length_le
    simp only [List.length_append, List.length_cons] at hle hlen
    have hone : front.getLast?.toList.length ≤ 1 := by
      cases front.getLast? <;> simp
    have hfront : front.length ≤ 1 := by omega
    rw [getLast_toList hfront, List.length_append] at ih
    exact inOrder_insert (ih (by omega)) hfront hmin

end Rounds

end ShrinkingSelection
