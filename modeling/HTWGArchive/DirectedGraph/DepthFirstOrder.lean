import HTWGArchive.DirectedGraph.AdjacencyList
import HTWGArchive.Library.DepthFirst

open Std (TreeMap TreeSet)
open AdjacencyListDirectedGraph

structure DepthFirstOrder (V : Type) where
  preOrder : List V
  postOrder : List V
  numberOfDFTrees : ℕ

namespace DepthFirstOrder

variable {V : Type} [LinearOrder V]

structure Visit (V : Type) [LinearOrder V] where
  besucht : TreeSet V
  preOrder : List V
  postOrder : List V

def seen (s : Visit V) (v : V) : Bool :=
  s.besucht.contains v

def enter (v : V) (s : Visit V) : Visit V :=
  { s with besucht := s.besucht.insert v, preOrder := s.preOrder ++ [v] }

def leave (v : V) (s : Visit V) : Visit V :=
  { s with postOrder := s.postOrder ++ [v] }

def visitPrePost (g : AdjacencyListDirectedGraph V) (fuel : ℕ) (v : V) (s : Visit V) :
    Option (Visit V) :=
  DepthFirst.search g.getSuccessorVertexSet seen enter leave fuel v s

def visitAll (g : AdjacencyListDirectedGraph V) (vs : List V) (s : Visit V × ℕ) :
    Option (Visit V × ℕ) :=
  vs.foldlM (fun s v =>
    if s.1.besucht.contains v then some s
    else do
      let s' ← visitPrePost g g.getNumberOfVertexes v s.1
      some (s', s.2 + 1)) s

def new (g : AdjacencyListDirectedGraph V) : Option (DepthFirstOrder V) := do
  let s ← visitAll g g.getVertexSet (⟨{}, [], []⟩, 0)
  some ⟨s.1.preOrder, s.1.postOrder, s.2⟩

end DepthFirstOrder

namespace AdjacencyListDirectedGraph

variable {V : Type} [LinearOrder V]

def adjacent (g : AdjacencyListDirectedGraph V) (v : V) : List V :=
  DepthFirst.successors g.getSuccessorVertexSet v

theorem mem_adjacent {g : AdjacencyListDirectedGraph V} {v w : V} :
    w ∈ g.adjacent v ↔ g.Edge v w :=
  mem_successors v w

def vertices (g : AdjacencyListDirectedGraph V) : Finset V :=
  g.getVertexSet.toFinset

theorem mem_vertices {g : AdjacencyListDirectedGraph V} {v : V} :
    v ∈ g.vertices ↔ v ∈ g.succ := by
  rw [vertices, List.mem_toFinset, mem_getVertexSet]

theorem card_vertices_le (g : AdjacencyListDirectedGraph V) :
    g.vertices.card ≤ g.getNumberOfVertexes := by
  calc g.vertices.card ≤ g.getVertexSet.length := List.toFinset_card_le _
    _ = g.getNumberOfVertexes := TreeMap.length_keys

theorem WellFormed.closed {g : AdjacencyListDirectedGraph V} (hg : WellFormed g) (v : V)
    (hv : v ∈ g.vertices) :
    ∃ ws, g.getSuccessorVertexSet v = some ws ∧ ∀ w ∈ ws, w ∈ g.vertices := by
  obtain ⟨ws, hws⟩ := getSuccessorVertexSet_isSome (mem_vertices.mp hv)
  refine ⟨ws, hws, ?_⟩
  intro w hw
  have hedge : g.Edge v w := by
    apply (mem_successors v w).mp
    rw [hws]
    exact hw
  exact mem_vertices.mpr (hg.targets v w hedge)

end AdjacencyListDirectedGraph

namespace DepthFirstOrder

open DepthFirst

variable {V : Type} [LinearOrder V] {g : AdjacencyListDirectedGraph V}

theorem marking (hg : WellFormed g) :
    Marking g.getSuccessorVertexSet g.vertices (seen (V := V)) enter leave where
  enters v s w := by
    simp only [seen, enter, TreeSet.contains_insert, Bool.or_eq_true, beq_iff_eq,
      compare_eq_iff_eq]
    exact or_congr_left eq_comm
  leaves v s w := rfl
  closed := hg.closed

theorem foldl_preOrder (es : List (Event V)) (s : Visit V) :
    (es.foldl (apply enter leave) s).preOrder = s.preOrder ++ pre es := by
  induction es generalizing s with
  | nil => simp [pre]
  | cons e es ih => cases e <;> simp [ih, apply, enter, leave, pre]

theorem foldl_postOrder (es : List (Event V)) (s : Visit V) :
    (es.foldl (apply enter leave) s).postOrder = s.postOrder ++ post es := by
  induction es generalizing s with
  | nil => simp [post]
  | cons e es ih => cases e <;> simp [ih, apply, enter, leave, post]

theorem unseen_card_le (s : Visit V) :
    (unseen g.vertices seen s).card ≤ g.getNumberOfVertexes :=
  (Finset.card_filter_le _ _).trans g.card_vertices_le

theorem visitAll_seen {v : V} {vs : List V} {s : Visit V × ℕ} (hs : seen s.1 v = true) :
    visitAll g (v :: vs) s = visitAll g vs s := by
  have hs' : v ∈ s.1.besucht := hs
  simp [visitAll, hs']

theorem visitAll_fresh {v : V} {vs : List V} {s : Visit V × ℕ} {s' : Visit V}
    (hs : seen s.1 v = false) (hv : visitPrePost g g.getNumberOfVertexes v s.1 = some s') :
    visitAll g (v :: vs) s = visitAll g vs (s', s.2 + 1) := by
  have hs' : v ∉ s.1.besucht := Bool.eq_false_iff.mp hs
  simp [visitAll, hs', hv]

theorem visitAll_explores (hg : WellFormed g) (vs : List V) (hvs : ∀ v ∈ vs, v ∈ g.succ)
    (s : Visit V) (n : ℕ) :
    ∃ es m, visitAll g vs (s, n) = some (es.foldl (apply enter leave) s, m) ∧
      Explore g.adjacent (seenBy seen s) vs (seenBy seen (es.foldl (apply enter leave) s)) es := by
  induction vs generalizing s n with
  | nil => exact ⟨[], n, rfl, .nil⟩
  | cons v vs ih =>
    have hrest : ∀ x ∈ vs, x ∈ g.succ := fun x hx => hvs x (List.mem_cons_of_mem v hx)
    have hv : v ∈ g.vertices := mem_vertices.mpr (hvs v List.mem_cons_self)
    cases hs : seen s v with
    | true =>
      obtain ⟨es, m, hes, hex⟩ := ih hrest s n
      exact ⟨es, m, (visitAll_seen hs).trans hes, hex.skip hs⟩
    | false =>
      obtain ⟨es₁, hes₁, hex₁⟩ := (marking hg).search_eq hv hs (unseen_card_le s)
      obtain ⟨es₂, m, hes₂, hex₂⟩ := ih hrest (leave v (es₁.foldl (apply enter leave) (enter v s)))
        (n + 1)
      have hfold : (Event.enter v :: es₁ ++ .leave v :: es₂).foldl (apply enter leave) s =
          es₂.foldl (apply enter leave) (leave v (es₁.foldl (apply enter leave) (enter v s))) := by
        simp [apply]
      have hnot : v ∉ seenBy seen s := by simp [seenBy, hs]
      refine ⟨.enter v :: es₁ ++ .leave v :: es₂, m, ?_, ?_⟩
      · rw [hfold]
        exact (visitAll_fresh (g := g) (s := (s, n)) hs hes₁).trans hes₂
      · rw [hfold]
        exact Explore.visit hnot hex₁ hex₂

theorem new_explores (hg : WellFormed g) :
    ∃ d vis es, new g = some d ∧ Explore g.adjacent ∅ g.getVertexSet vis es ∧
      d.preOrder = pre es ∧ d.postOrder = post es := by
  have hvs : ∀ v ∈ g.getVertexSet, v ∈ g.succ := fun v hv => (mem_getVertexSet g v).mp hv
  obtain ⟨es, m, hes, hex⟩ := visitAll_explores hg g.getVertexSet hvs ⟨{}, [], []⟩ 0
  have hnone : seenBy seen (⟨{}, [], []⟩ : Visit V) = ∅ := by
    ext v
    simp [seenBy, seen]
  rw [hnone] at hex
  refine ⟨_, _, es, by rw [new, hes]; rfl, hex, ?_, ?_⟩
  · exact foldl_preOrder es _
  · exact foldl_postOrder es _

theorem postOrder_mem {vis : Set V} {es : List (Event V)}
    (h : Explore g.adjacent ∅ g.getVertexSet vis es) (hg : WellFormed g) (v : V) :
    v ∈ post es ↔ v ∈ g.succ := by
  constructor
  · intro hv
    obtain ⟨w, hw, hpath⟩ := h.reach hv
    rcases hpath.cases_tail with rfl | ⟨u, -, hu⟩
    · exact (mem_getVertexSet g v).mp hw
    · exact hg.targets u v (mem_adjacent.mp hu)
  · intro hv
    have hmem := h.worklist ((mem_getVertexSet g v).mpr hv)
    rcases (h.mem_iff v).mp hmem with hv | hv
    · cases hv
    · exact hv

end DepthFirstOrder
