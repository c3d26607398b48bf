import HTWGArchive.DirectedGraph.Degrees
import HTWGArchive.Library.TopologicalOrder

open Std (TreeMap TreeSet)
open AdjacencyListDirectedGraph
open TopologicalOrder (Ordered Before Cyclic)

namespace TopologicalSort

variable {V : Type} [LinearOrder V]

structure State (V : Type) [LinearOrder V] where
  ts : List V
  inDegree : TreeMap V ℤ
  q : List V

def count (g : AdjacencyListDirectedGraph V) (s : State V) (v : V) : Option (State V) := do
  let ins ← g.getInDegree v
  some { s with
    inDegree := s.inDegree.insert v ins, q := if ins = 0 then s.q ++ [v] else s.q }

def release (s : State V) (w : V) : Option (State V) := do
  let d ← s.inDegree[w]?
  some { s with
    inDegree := s.inDegree.insert w (d - 1), q := if d - 1 = 0 then s.q ++ [w] else s.q }

def remove (g : AdjacencyListDirectedGraph V) (s : State V) (v : V) (q : List V) :
    Option (State V) := do
  let ws ← g.getSuccessorVertexSet v
  ws.foldlM release { s with ts := s.ts ++ [v], q := q }

-- `none` is a NullPointerException, or a run that has not ended within the fuel.
def loop (g : AdjacencyListDirectedGraph V) : ℕ → State V → Option (State V)
  | 0, s => if s.q = [] then some s else none
  | fuel + 1, s =>
    match s.q with
    | [] => some s
    | v :: q => (remove g s v q).bind (loop g fuel)

def topologicalSortedList (g : AdjacencyListDirectedGraph V) : Option (Option (List V)) := do
  let s ← g.getVertexSet.foldlM (count g) ⟨[], {}, []⟩
  let s ← loop g g.getNumberOfVertexes s
  some (if s.ts.length ≠ g.getNumberOfVertexes then none else some s.ts)

section Degrees

variable {g : AdjacencyListDirectedGraph V}

def remaining (g : AdjacencyListDirectedGraph V) (ts : List V) (w : V) : ℕ :=
  {e ∈ g.pairs | e.2 = w ∧ e.1 ∉ ts}.card

theorem remaining_eq_zero {ts : List V} {w : V} :
    remaining g ts w = 0 ↔ ∀ u, g.Edge u w → u ∈ ts := by
  rw [remaining, Finset.card_eq_zero, Finset.filter_eq_empty_iff]
  constructor
  · intro h u hu
    by_contra hn
    exact h (mem_pairs.mpr hu) ⟨rfl,hn⟩
  · rintro h ⟨u,a⟩ he ⟨rfl,hn⟩
    exact hn (h u (mem_pairs.mp he))

theorem remaining_append {ts : List V} {v : V} (hv : v ∉ ts) (w : V) :
    remaining g ts w = remaining g (ts ++ [v]) w + if g.Edge v w then 1 else 0 := by
  have hsplit : {e ∈ g.pairs | e.2 = w ∧ e.1 ∉ ts} =
      {e ∈ g.pairs | e.2 = w ∧ e.1 ∉ ts ++ [v]} ∪ {e ∈ g.pairs | e = (v, w)} := by
    ext ⟨a,b⟩
    simp only [Finset.mem_filter, Finset.mem_union, List.mem_append, List.mem_singleton,
      Prod.mk.injEq]
    by_cases hav : a = v
    · subst hav
      tauto
    · tauto
  have hdisj : Disjoint {e ∈ g.pairs | e.2 = w ∧ e.1 ∉ ts ++ [v]} {e ∈ g.pairs | e = (v, w)} := by
    rw [Finset.disjoint_left]
    rintro ⟨a,b⟩ h h'
    obtain ⟨-,he⟩ := Finset.mem_filter.mp h'
    obtain ⟨rfl,rfl⟩ := Prod.mk.inj he
    exact (Finset.mem_filter.mp h).2.2 (by simp)
  rw [remaining, hsplit, Finset.card_union_of_disjoint hdisj, ← remaining]
  congr 1
  by_cases he : g.Edge v w
  · rw [if_pos he, Finset.filter_eq', if_pos (mem_pairs.mpr he), Finset.card_singleton]
  · rw [if_neg he, Finset.filter_eq', if_neg (mt mem_pairs.mp he), Finset.card_empty]

theorem getInDegree_remaining (hg : WellFormed g) {v : V} (hv : v ∈ g.succ) :
    g.getInDegree v = some (remaining g [] v) := by
  rw [hg.getInDegree_eq ((hg.domains v).mp hv), remaining]
  simp

end Degrees

section Folds

variable {g : AdjacencyListDirectedGraph V}

theorem foldlM_count (hg : WellFormed g) {vs : List V} (hvs : ∀ v ∈ vs, v ∈ g.succ)
    (s : State V) :
    ∃ s', vs.foldlM (count g) s = some s' ∧ s'.ts = s.ts ∧
      s'.q = s.q ++ vs.filter (fun v => remaining g [] v = 0) ∧
      ∀ a, s'.inDegree[a]? =
        if a ∈ vs then some (remaining g [] a : ℤ) else s.inDegree[a]? := by
  induction vs generalizing s with
  | nil => exact ⟨s,rfl,rfl,by simp,fun a => by simp⟩
  | cons v vs ih =>
    have hv := getInDegree_remaining hg (hvs v List.mem_cons_self)
    obtain ⟨s',hs',hts,hq,hd⟩ := ih (fun a ha => hvs a (List.mem_cons_of_mem v ha))
      { s with
        inDegree := s.inDegree.insert v (remaining g [] v : ℤ)
        q := if remaining g [] v = 0 then s.q ++ [v] else s.q }
    refine ⟨s',by simpa [count, hv] using hs',hts,?_,fun a => ?_⟩
    · rw [hq, List.filter_cons]
      by_cases h0 : remaining g [] v = 0 <;> simp [h0]
    · rw [hd, getElem?_insert_eq]
      by_cases hav : v = a
      · subst hav
        simp
      · simp [hav, Ne.symm hav]

theorem foldlM_release {ws : List V} (hn : ws.Nodup) {d : V → ℤ} (s : State V)
    (hd : ∀ w ∈ ws, s.inDegree[w]? = some (d w)) :
    ∃ s', ws.foldlM release s = some s' ∧ s'.ts = s.ts ∧
      s'.q = s.q ++ ws.filter (fun w => d w = 1) ∧
      ∀ a, s'.inDegree[a]? = if a ∈ ws then some (d a - 1) else s.inDegree[a]? := by
  induction ws generalizing s with
  | nil => exact ⟨s,rfl,rfl,by simp,fun a => by simp⟩
  | cons w ws ih =>
    obtain ⟨hw,hn⟩ := List.nodup_cons.mp hn
    have hdw := hd w List.mem_cons_self
    obtain ⟨s',hs',hts,hq,hd'⟩ := ih hn
      { s with
        inDegree := s.inDegree.insert w (d w - 1)
        q := if d w - 1 = 0 then s.q ++ [w] else s.q } (by
      intro a ha
      have hne : w ≠ a := fun he => hw (he ▸ ha)
      rw [getElem?_insert_eq, if_neg hne, hd a (List.mem_cons_of_mem w ha)])
    refine ⟨s',by simpa [release, hdw] using hs',hts,?_,fun a => ?_⟩
    · rw [hq, List.filter_cons]
      by_cases h1 : d w = 1
      · simp [h1]
      · simp [h1, sub_eq_zero]
    · rw [hd', getElem?_insert_eq]
      by_cases hwa : w = a
      · subst hwa
        simp [hw]
      · simp [hwa, Ne.symm hwa]

end Folds

section Run

variable {g : AdjacencyListDirectedGraph V}

structure Progress (g : AdjacencyListDirectedGraph V) (s : State V) : Prop where
  degrees : ∀ v ∈ g.succ, s.inDegree[v]? = some (remaining g s.ts v : ℤ)
  ordered : Ordered g.Edge s.ts
  nodup : (s.ts ++ s.q).Nodup
  ready : ∀ v, v ∈ s.ts ++ s.q ↔ v ∈ g.succ ∧ remaining g s.ts v = 0

theorem mem_released {v w : V} {m : TreeMap V ℚ} (hm : g.succ[v]? = some m) (ts : List V) :
    w ∈ m.keys.filter (fun w => (remaining g ts w : ℤ) = 1) ↔
      g.Edge v w ∧ remaining g ts w = 1 := by
  have hkeys : w ∈ m.keys ↔ g.Edge v w := by
    rw [← mem_successors, getSuccessorVertexSet, hm]
    rfl
  rw [List.mem_filter, hkeys, decide_eq_true_iff, Nat.cast_eq_one]

theorem ready_remove (hg : WellFormed g) {ts q : List V} {v : V} {m : TreeMap V ℚ}
    (hm : g.succ[v]? = some m) (hv : v ∉ ts)
    (hr : ∀ w, w ∈ ts ++ v :: q ↔ w ∈ g.succ ∧ remaining g ts w = 0) (w : V) :
    w ∈ ts ++ v :: q ++ m.keys.filter (fun w => (remaining g ts w : ℤ) = 1) ↔
      w ∈ g.succ ∧ remaining g (ts ++ [v]) w = 0 := by
  have hdrop := remaining_append (g := g) hv w
  rw [List.mem_append, hr, mem_released hm]
  constructor
  · rintro (⟨hw,h0⟩ | ⟨he,h1⟩)
    · exact ⟨hw,by omega⟩
    · rw [if_pos he] at hdrop
      exact ⟨hg.targets v w he,by omega⟩
  · rintro ⟨hw,h0⟩
    by_cases he : g.Edge v w
    · rw [if_pos he] at hdrop
      exact .inr ⟨he,by omega⟩
    · rw [if_neg he] at hdrop
      exact .inl ⟨hw,by omega⟩

theorem nodup_remove {ts q : List V} {v : V} {m : TreeMap V ℚ} (hm : g.succ[v]? = some m)
    (hn : (ts ++ v :: q).Nodup)
    (hr : ∀ w, w ∈ ts ++ v :: q ↔ w ∈ g.succ ∧ remaining g ts w = 0) :
    (ts ++ v :: q ++ m.keys.filter (fun w => (remaining g ts w : ℤ) = 1)).Nodup := by
  have hkeys : m.keys.Nodup := TreeMap.nodup_keys
  refine List.nodup_append.mpr ⟨hn,hkeys.filter _,fun a ha b hb hab => ?_⟩
  have h0 := ((hr a).mp ha).2
  have h1 := ((mem_released hm ts).mp hb).2
  subst hab
  omega

theorem Progress.remove (hg : WellFormed g) {s : State V} (h : Progress g s) {v : V} {q : List V}
    (hq : s.q = v :: q) :
    ∃ s', remove g s v q = some s' ∧ s'.ts = s.ts ++ [v] ∧ Progress g s' := by
  obtain ⟨hd,ho,hn,hr⟩ := h
  rw [hq] at hn hr
  obtain ⟨hv,hv0⟩ := (hr v).mp (by simp)
  have hvts : v ∉ s.ts := fun hm => (List.nodup_append.mp hn).2.2 v hm v List.mem_cons_self rfl
  obtain ⟨m,hm⟩ := (mem_iff_getElem? _ _).mp hv
  have hmem : ∀ w, w ∈ m.keys ↔ g.Edge v w := fun w => by
    rw [← mem_successors, getSuccessorVertexSet, hm]
    rfl
  obtain ⟨s',hs',hts,hq',hd'⟩ := foldlM_release TreeMap.nodup_keys
    (d := fun w => (remaining g s.ts w : ℤ)) { s with ts := s.ts ++ [v], q := q }
    fun w hw => hd w (hg.targets v w ((hmem w).mp hw))
  have happ : s'.ts ++ s'.q =
      s.ts ++ v :: q ++ m.keys.filter (fun w => (remaining g s.ts w : ℤ) = 1) := by
    rw [hts, hq']
    simp
  refine ⟨s',by simpa [TopologicalSort.remove, getSuccessorVertexSet, hm] using hs',hts,
    fun w hw => ?_,?_,?_,fun w => ?_⟩
  · have hdrop := remaining_append (g := g) hvts w
    rw [hd', hts]
    by_cases he : g.Edge v w
    · rw [if_pos he] at hdrop
      rw [if_pos ((hmem w).mpr he), hdrop]
      simp
    · rw [if_neg he] at hdrop
      rw [if_neg (mt (hmem w).mp he), hd w hw, hdrop, Nat.add_zero]
  · rw [hts]
    exact .append ho (remaining_eq_zero.mp hv0)
  · rw [happ]
    exact nodup_remove hm hn hr
  · rw [happ, hts]
    exact ready_remove hg hm hvts hr w

theorem Progress.length_le {s : State V} (h : Progress g s) :
    (s.ts ++ s.q).length ≤ g.getNumberOfVertexes := by
  have hsub : s.ts ++ s.q ⊆ g.getVertexSet := fun v hv =>
    (mem_getVertexSet g v).mpr ((h.ready v).mp hv).1
  calc (s.ts ++ s.q).length ≤ g.getVertexSet.length := (h.nodup.subperm hsub).length_le
    _ = g.getNumberOfVertexes := TreeMap.length_keys

theorem Progress.loop (hg : WellFormed g) {s : State V} (h : Progress g s) {fuel : ℕ}
    (hf : g.getNumberOfVertexes ≤ s.ts.length + fuel) :
    ∃ s', loop g fuel s = some s' ∧ s'.q = [] ∧ Progress g s' := by
  induction fuel generalizing s with
  | zero =>
    have hlen := h.length_le
    rw [List.length_append] at hlen
    have hq : s.q = [] := List.length_eq_zero_iff.mp (by omega)
    exact ⟨s,by simp [TopologicalSort.loop, hq],hq,h⟩
  | succ fuel ih =>
    cases hq : s.q with
    | nil => exact ⟨s,by simp [TopologicalSort.loop, hq],hq,h⟩
    | cons v q =>
      obtain ⟨s₁,hs₁,hts,h₁⟩ := h.remove hg hq
      have hlen : s₁.ts.length = s.ts.length + 1 := by rw [hts, List.length_append]; rfl
      obtain ⟨s',hs',hq',h'⟩ := ih h₁ (by omega)
      exact ⟨s',by simp [TopologicalSort.loop, hq, hs₁, hs'],hq',h'⟩

theorem progress_start (hg : WellFormed g) :
    ∃ s, g.getVertexSet.foldlM (count g) ⟨[], {}, []⟩ = some s ∧ s.ts = [] ∧ Progress g s := by
  have hvs : ∀ v ∈ g.getVertexSet, v ∈ g.succ := fun v => (mem_getVertexSet g v).mp
  have hnd : g.getVertexSet.Nodup := TreeMap.nodup_keys
  obtain ⟨s,hs,hts,hq,hd⟩ := foldlM_count hg hvs ⟨[], {}, []⟩
  refine ⟨s,hs,hts,fun v hv => ?_,?_,?_,fun v => ?_⟩
  · rw [hd, if_pos ((mem_getVertexSet g v).mpr hv), hts]
  · rw [hts]
    exact .nil
  · rw [hts, hq]
    simpa using hnd.filter _
  · rw [hts, hq]
    simp [mem_getVertexSet]

theorem topologicalSortedList_eq (hg : WellFormed g) :
    ∃ s : State V, topologicalSortedList g =
        some (if s.ts.length ≠ g.getNumberOfVertexes then none else some s.ts) ∧
      s.q = [] ∧ Progress g s := by
  obtain ⟨s,hs,hts,h⟩ := progress_start hg
  obtain ⟨s',hs',hq,h'⟩ := h.loop hg (Nat.le_add_left _ _)
  exact ⟨s',by simp [topologicalSortedList, hs, hs'],hq,h'⟩

theorem Progress.complete {s : State V} (h : Progress g s) (hq : s.q = [])
    (hl : s.ts.length = g.getNumberOfVertexes) (v : V) : v ∈ s.ts ↔ v ∈ g.getVertexSet := by
  have hn := h.nodup
  have hr := h.ready
  rw [hq, List.append_nil] at hn hr
  have hsub : s.ts ⊆ g.getVertexSet := fun v hv => (mem_getVertexSet g v).mpr ((hr v).mp hv).1
  have hlen : g.getVertexSet.length = g.getNumberOfVertexes := TreeMap.length_keys
  exact ((hn.subperm hsub).perm_of_length_le (by omega)).mem_iff

theorem Progress.acyclic {s : State V} (h : Progress g s) (hq : s.q = [])
    (hl : s.ts.length = g.getNumberOfVertexes) : ¬ Cyclic g.Edge := by
  rintro ⟨v,hv⟩
  have hn := h.nodup
  rw [hq, List.append_nil] at hn
  obtain ⟨w,hw,-⟩ := Relation.TransGen.head'_iff.mp hv
  exact h.ordered.not_cyclic hn
    ((h.complete hq hl v).mpr ((mem_getVertexSet g v).mpr hw.source)) hv

theorem Progress.cyclic {s : State V} (h : Progress g s) (hq : s.q = [])
    (hl : s.ts.length ≠ g.getNumberOfVertexes) : Cyclic g.Edge := by
  have hle := h.length_le
  have hr := h.ready
  rw [hq, List.append_nil] at hle hr
  have hlen : g.getVertexSet.length = g.getNumberOfVertexes := TreeMap.length_keys
  have hnd : g.getVertexSet.Nodup := TreeMap.nodup_keys
  have hleft : ∃ v ∈ g.getVertexSet, v ∉ s.ts := by
    by_contra hnone
    push Not at hnone
    have := (hnd.subperm hnone).length_le
    omega
  have hfin : {v | v ∈ g.getVertexSet ∧ v ∉ s.ts}.Finite :=
    g.getVertexSet.finite_toSet.subset fun v hv => hv.1
  refine TopologicalOrder.cyclic_of_no_source hfin hleft ?_
  rintro v ⟨hv,hvts⟩
  have hblocked : ¬ ∀ u, g.Edge u v → u ∈ s.ts := fun hall =>
    hvts ((hr v).mpr ⟨(mem_getVertexSet g v).mp hv,remaining_eq_zero.mpr hall⟩)
  push Not at hblocked
  obtain ⟨u,hu,huts⟩ := hblocked
  exact ⟨u,⟨(mem_getVertexSet g u).mpr hu.source,huts⟩,hu⟩

end Run

theorem decides_acyclicity (calls : List (Call V)) :
    ∃ r, topologicalSortedList (build calls) = some r ∧
      (r = none ↔ Cyclic (build calls).Edge) ∧
      ∀ ts, r = some ts → ts.Nodup ∧ (∀ v, v ∈ ts ↔ v ∈ (build calls).getVertexSet) ∧
        ∀ v w, (build calls).Edge v w → Before ts v w := by
  have hg := wellFormed_build calls
  obtain ⟨s,hs,hq,h⟩ := topologicalSortedList_eq hg
  refine ⟨_,hs,?_,fun ts hts => ?_⟩
  · split_ifs with hl
    · exact ⟨fun _ => h.cyclic hq hl,fun _ => rfl⟩
    · exact iff_of_false not_false (h.acyclic hq (not_ne_iff.mp hl))
  · split_ifs at hts with hl
    obtain rfl := Option.some.inj hts
    have hmem := h.complete hq (not_ne_iff.mp hl)
    have hn := h.nodup
    rw [hq, List.append_nil] at hn
    exact ⟨hn,hmem,fun v w he => h.ordered.before
      ((hmem w).mpr ((mem_getVertexSet _ w).mpr (hg.targets v w he))) he⟩

end TopologicalSort
