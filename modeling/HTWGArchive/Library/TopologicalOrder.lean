import Mathlib.Data.Set.Finite.Basic
import Mathlib.Logic.Relation
import Mathlib.Order.WellFounded
import Mathlib.Order.Preorder.Finite
import Mathlib.Tactic

namespace TopologicalOrder

variable {V : Type*} {R : V → V → Prop}

inductive Ordered (R : V → V → Prop) : List V → Prop
  | nil : Ordered R []
  | append {ts v} : Ordered R ts → (∀ u, R u v → u ∈ ts) → Ordered R (ts ++ [v])

def Cyclic (R : V → V → Prop) : Prop :=
  ∃ v, Relation.TransGen R v v

def Before (ts : List V) (u v : V) : Prop :=
  ∃ i j : ℕ, i < j ∧ ts[i]? = some u ∧ ts[j]? = some v

theorem before_or_before {order : List V} {v w : V} (hv : v ∈ order) (hw : w ∈ order)
    (hne : v ≠ w) : Before order v w ∨ Before order w v := by
  obtain ⟨i,hi⟩ := List.mem_iff_getElem?.mp hv
  obtain ⟨j,hj⟩ := List.mem_iff_getElem?.mp hw
  rcases lt_trichotomy i j with hij | rfl | hij
  · exact .inl ⟨i,j,hij,hi,hj⟩
  · exact absurd (Option.some.inj (hi.symm.trans hj)) hne
  · exact .inr ⟨j,i,hij,hj,hi⟩

theorem Before.reverse {order : List V} {v w : V} (h : Before order v w) :
    Before order.reverse w v := by
  obtain ⟨i,j,hij,hi,hj⟩ := h
  obtain ⟨hil,-⟩ := List.getElem?_eq_some_iff.mp hi
  obtain ⟨hjl,-⟩ := List.getElem?_eq_some_iff.mp hj
  refine ⟨order.length - 1 - j,order.length - 1 - i,by omega,?_,?_⟩
  · rw [List.getElem?_reverse (by omega), ← hj]
    congr 1
    omega
  · rw [List.getElem?_reverse (by omega), ← hi]
    congr 1
    omega

theorem Ordered.pred_mem {ts : List V} (h : Ordered R ts) {u v : V} (hv : v ∈ ts) (hr : R u v) :
    u ∈ ts := by
  induction h with
  | nil => cases hv
  | append _ hp ih =>
    rcases List.mem_append.mp hv with hv | hv
    · exact List.mem_append_left _ (ih hv)
    · obtain rfl := List.mem_singleton.mp hv
      exact List.mem_append_left _ (hp u hr)

theorem Ordered.ancestor_mem {ts : List V} (h : Ordered R ts) {u v : V} (hv : v ∈ ts)
    (hr : Relation.TransGen R u v) : u ∈ ts := by
  induction hr using Relation.TransGen.head_induction_on with
  | single hr => exact h.pred_mem hv hr
  | head hr _ ih => exact h.pred_mem ih hr

theorem Ordered.not_cyclic {ts : List V} (h : Ordered R ts) (hn : ts.Nodup) {v : V}
    (hv : v ∈ ts) : ¬ Relation.TransGen R v v := by
  induction h with
  | nil => cases hv
  | @append ts w hts hp ih =>
    obtain ⟨hn,-,hd⟩ := List.nodup_append.mp hn
    rcases List.mem_append.mp hv with hv | hv
    · exact ih hn hv
    · obtain rfl := List.mem_singleton.mp hv
      intro hc
      obtain ⟨u,hu,huv⟩ := Relation.TransGen.tail'_iff.mp hc
      have huts : u ∈ ts := hp u huv
      have hvts : v ∈ ts := by
        rcases Relation.reflTransGen_iff_eq_or_transGen.mp hu with rfl | hvu
        · exact huts
        · exact hts.ancestor_mem huts hvu
      exact hd v hvts v (List.mem_singleton_self v) rfl

theorem Ordered.before {ts : List V} (h : Ordered R ts) {u v : V} (hv : v ∈ ts) (hr : R u v) :
    Before ts u v := by
  induction h with
  | nil => cases hv
  | @append ts w hts hp ih =>
    rcases List.mem_append.mp hv with hv | hv
    · obtain ⟨i,j,hij,hi,hj⟩ := ih hv
      have hjl : j < ts.length := (List.getElem?_eq_some_iff.mp hj).1
      exact ⟨i,j,hij,by rw [List.getElem?_append_left (by omega), hi],
        by rw [List.getElem?_append_left hjl, hj]⟩
    · obtain rfl := List.mem_singleton.mp hv
      obtain ⟨i,hil,hi⟩ := List.mem_iff_getElem.mp (hp u hr)
      exact ⟨i,ts.length,hil,by rw [List.getElem?_append_left hil, List.getElem?_eq_getElem hil, hi],
        by simp⟩

-- A finite set in which every element has a predecessor cannot be well-founded.
theorem cyclic_of_no_source {s : Set V} (hs : s.Finite) (hne : s.Nonempty)
    (hp : ∀ v ∈ s, ∃ u ∈ s, R u v) : Cyclic R := by
  by_contra hac
  have hirr : ∀ v, ¬ Relation.TransGen R v v := fun v hv => hac ⟨v,hv⟩
  have := hs.to_subtype
  let T : s → s → Prop := fun a b => Relation.TransGen R a b
  have : IsTrans s T := ⟨fun a b c hab hbc => hab.trans hbc⟩
  have : Std.Irrefl T := ⟨fun a => hirr a⟩
  have hwf : WellFounded T := Finite.wellFounded_of_trans_of_irrefl T
  obtain ⟨v,hv⟩ := hne
  obtain ⟨m,-,hmin⟩ := hwf.has_min Set.univ ⟨⟨v,hv⟩,trivial⟩
  obtain ⟨u,hu,hum⟩ := hp m m.2
  exact hmin ⟨u,hu⟩ trivial (.single hum)

end TopologicalOrder
