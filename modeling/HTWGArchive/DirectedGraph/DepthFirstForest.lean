import HTWGArchive.DirectedGraph.StrongComponents
import HTWGArchive.Library.TopologicalOrder
import Mathlib.Data.Set.Card

open Std (TreeMap TreeSet)
open AdjacencyListDirectedGraph
open TopologicalOrder (Before Cyclic)
open StrongComponents (Reachable)

namespace DepthFirstOrder

open DepthFirst

variable {V : Type} [LinearOrder V] {g : AdjacencyListDirectedGraph V}

def leaders (g : AdjacencyListDirectedGraph V) (done vs : List V) : Set V :=
  {v | ∃ earlier later, vs = earlier ++ v :: later ∧
    ∀ u ∈ done ++ earlier, ¬ Reach g.adjacent u v}

theorem leaders_nil (done : List V) : leaders g done [] = ∅ := by
  ext v
  simp [leaders]

theorem leaders_finite (done vs : List V) : (leaders g done vs).Finite := by
  refine vs.finite_toSet.subset ?_
  rintro v ⟨earlier,later,rfl,-⟩
  simp

theorem mem_leaders_cons {done vs : List V} {v x : V} :
    x ∈ leaders g done (v :: vs) ↔
      x = v ∧ (∀ u ∈ done, ¬ Reach g.adjacent u v) ∨ x ∈ leaders g (done ++ [v]) vs := by
  constructor
  · rintro ⟨earlier,later,heq,h⟩
    cases earlier with
    | nil =>
      obtain ⟨rfl,rfl⟩ := List.cons.inj heq
      exact .inl ⟨rfl,by simpa using h⟩
    | cons w earlier =>
      obtain ⟨rfl,rfl⟩ := List.cons.inj heq
      exact .inr ⟨earlier,later,rfl,by simpa using h⟩
  · rintro (⟨rfl,h⟩ | ⟨earlier,later,rfl,h⟩)
    · exact ⟨[],vs,rfl,by simpa using h⟩
    · exact ⟨v :: earlier,later,rfl,by simpa using h⟩

theorem leaders_reached {done vs : List V} {v : V} (h : ∃ u ∈ done, Reach g.adjacent u v) :
    leaders g done (v :: vs) = leaders g (done ++ [v]) vs := by
  obtain ⟨u,hu,hpath⟩ := h
  ext x
  rw [mem_leaders_cons, or_iff_right]
  exact fun hx => hx.2 u hu hpath

theorem leaders_fresh {done vs : List V} {v : V} (h : ¬ ∃ u ∈ done, Reach g.adjacent u v) :
    (leaders g done (v :: vs)).ncard = (leaders g (done ++ [v]) vs).ncard + 1 := by
  push Not at h
  have hins : leaders g done (v :: vs) = insert v (leaders g (done ++ [v]) vs) := by
    ext x
    rw [mem_leaders_cons, Set.mem_insert_iff, and_iff_left h]
  have hv : v ∉ leaders g (done ++ [v]) vs := by
    rintro ⟨earlier,later,-,hn⟩
    exact hn v (by simp) .refl
  rw [hins, Set.ncard_insert_of_notMem hv (leaders_finite _ _)]

def Closure (g : AdjacencyListDirectedGraph V) (done : List V) (s : Visit V) : Prop :=
  ∀ x, x ∈ seenBy seen s ↔ ∃ u ∈ done, Reach g.adjacent u x

theorem Closure.seen_snoc {done : List V} {s : Visit V} {v : V} (h : Closure g done s)
    (hv : v ∈ seenBy seen s) : Closure g (done ++ [v]) s := by
  intro x
  rw [h x]
  constructor
  · rintro ⟨u,hu,hpath⟩
    exact ⟨u,List.mem_append_left _ hu,hpath⟩
  · rintro ⟨u,hu,hpath⟩
    rcases List.mem_append.mp hu with hu | hu
    · exact ⟨u,hu,hpath⟩
    · obtain rfl := List.mem_singleton.mp hu
      obtain ⟨w,hw,hwv⟩ := (h u).mp hv
      exact ⟨w,hw,hwv.trans hpath⟩

theorem Closure.explored {done : List V} {s s' : Visit V} {v : V} {es : List (Event V)}
    (h : Closure g done s) (hex : Explore g.adjacent (seenBy seen s) [v] (seenBy seen s') es) :
    Closure g (done ++ [v]) s' := by
  have hclosed : ∀ x ∈ seenBy seen s, ∀ y ∈ g.adjacent x, y ∈ seenBy seen s := by
    intro x hx y hy
    obtain ⟨u,hu,hpath⟩ := (h x).mp hx
    exact (h y).mpr ⟨u,hu,hpath.tail hy⟩
  intro x
  rw [hex.visited_iff hclosed, h x]
  simp only [List.mem_append, List.mem_singleton, or_and_right, exists_or, exists_eq_left]

theorem visitAll_trees (hg : WellFormed g) (vs : List V) (hvs : ∀ v ∈ vs, v ∈ g.succ)
    (done : List V) (s : Visit V) (n : ℕ) (hs : Closure g done s) :
    ∃ s', visitAll g vs (s, n) = some (s', n + (leaders g done vs).ncard) := by
  induction vs generalizing s n done with
  | nil => exact ⟨s,by simp [visitAll, leaders_nil]⟩
  | cons v vs ih =>
    have hrest : ∀ x ∈ vs, x ∈ g.succ := fun x hx => hvs x (List.mem_cons_of_mem v hx)
    have hv : v ∈ g.vertices := mem_vertices.mpr (hvs v List.mem_cons_self)
    cases hseen : seen s v with
    | true =>
      obtain ⟨s',hs'⟩ := ih hrest (done ++ [v]) s n (hs.seen_snoc hseen)
      rw [leaders_reached ((hs v).mp hseen)]
      exact ⟨s',(visitAll_seen hseen).trans hs'⟩
    | false =>
      have hnot : v ∉ seenBy seen s := by simp [seenBy, hseen]
      obtain ⟨es,hes,hex⟩ := (marking hg).search_eq hv hseen (unseen_card_le s)
      obtain ⟨s',hs'⟩ := ih hrest (done ++ [v]) _ (n + 1) (hs.explored (.visit hnot hex .nil))
      refine ⟨s',(visitAll_fresh (s := (s, n)) hseen hes).trans ?_⟩
      rw [hs', leaders_fresh (mt (hs v).mpr hnot)]
      congr 2
      omega

theorem new_numberOfDFTrees (hg : WellFormed g) {d : DepthFirstOrder V} (hd : new g = some d) :
    d.numberOfDFTrees = {v | ∃ earlier later, g.getVertexSet = earlier ++ v :: later ∧
      ∀ u ∈ earlier, ¬ Reachable g u v}.ncard := by
  have hvs : ∀ v ∈ g.getVertexSet, v ∈ g.succ := fun v hv => (mem_getVertexSet g v).mp hv
  have hnone : Closure g [] ⟨{}, [], []⟩ := fun x => by simp [seenBy, seen]
  obtain ⟨s',hs'⟩ := visitAll_trees hg _ hvs [] _ 0 hnone
  have hcount : d.numberOfDFTrees = 0 + (leaders g [] g.getVertexSet).ncard := by
    rw [new, hs'] at hd
    obtain rfl := Option.some.inj hd
    rfl
  rw [hcount, Nat.zero_add]
  congr 1
  ext v
  simp only [leaders, List.nil_append, StrongComponents.reach_iff, Set.mem_ofPred_eq]

theorem depth_first_orders (calls : List (AdjacencyListDirectedGraph.Call V)) :
    ∃ d, new (build calls) = some d ∧
      d.preOrder.Perm (build calls).getVertexSet ∧
      d.postOrder.Perm (build calls).getVertexSet ∧
      (∀ v w, (build calls).Edge v w → Before d.postOrder v w → Reachable (build calls) w v) ∧
      (¬ Cyclic (build calls).Edge →
        ∀ v w, (build calls).Edge v w → Before d.postOrder.reverse v w) ∧
      d.numberOfDFTrees =
        {v | ∃ earlier later, (build calls).getVertexSet = earlier ++ v :: later ∧
          ∀ u ∈ earlier, ¬ Reachable (build calls) u v}.ncard := by
  have hg := wellFormed_build calls
  obtain ⟨d,vis,es,hd,hex,hpre,hpost⟩ := new_explores hg
  have hmem : ∀ v, v ∈ post es ↔ v ∈ (build calls).getVertexSet := fun v =>
    (postOrder_mem hex hg v).trans (mem_getVertexSet _ v).symm
  have hperm : (post es).Perm (build calls).getVertexSet :=
    (List.perm_ext_iff_of_nodup hex.nodup TreeMap.nodup_keys).mpr hmem
  have hback : ∀ v w, (build calls).Edge v w → Before d.postOrder v w →
      Reachable (build calls) w v := by
    rintro v w he ⟨i,j,hij,hi,hj⟩
    rw [hpost] at hi hj
    exact (StrongComponents.reach_iff _ _ _).mp
      (hex.laced i j v w hi hj hij (mem_adjacent.mpr he) i v le_rfl hij hi)
  refine ⟨d,hd,hpre ▸ hex.perm.trans hperm,hpost ▸ hperm,hback,fun hac v w he => ?_,
    new_numberOfDFTrees hg hd⟩
  have hne : v ≠ w := fun hvw => hac ⟨v,.single (hvw ▸ he)⟩
  have hv : v ∈ d.postOrder := by
    rw [hpost, hmem, mem_getVertexSet]
    exact he.source
  have hw : w ∈ d.postOrder := by
    rw [hpost, hmem, mem_getVertexSet]
    exact hg.targets v w he
  rcases TopologicalOrder.before_or_before hv hw hne with hb | hb
  · exact absurd ⟨v,Relation.TransGen.head' he (hback v w he hb)⟩ hac
  · exact hb.reverse

end DepthFirstOrder
