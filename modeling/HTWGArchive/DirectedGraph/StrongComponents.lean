import HTWGArchive.DirectedGraph.DepthFirstOrder
import HTWGArchive.Library.Kosaraju

open Std (TreeMap TreeSet)
open AdjacencyListDirectedGraph

namespace StrongComponents

variable {V : Type} [LinearOrder V]

structure Visit (V : Type) [LinearOrder V] where
  besucht : TreeSet V
  components : TreeSet V

def seen (s : Visit V) (v : V) : Bool :=
  s.besucht.contains v

def enter (v : V) (s : Visit V) : Visit V :=
  { s with besucht := s.besucht.insert v }

def leave (v : V) (s : Visit V) : Visit V :=
  { s with components := s.components.insert v }

def visitPost (g : AdjacencyListDirectedGraph V) (fuel : ℕ) (v : V) (s : Visit V) :
    Option (Visit V) :=
  DepthFirst.search g.getSuccessorVertexSet seen enter leave fuel v s

structure Numbering (V : Type) [LinearOrder V] where
  besucht : TreeSet V
  compCounter : ℕ
  comp : TreeMap ℕ (TreeSet V)

def visitAll (g : AdjacencyListDirectedGraph V) (reihenfolge : List V) (s : Numbering V) :
    Option (Numbering V) :=
  reihenfolge.foldlM (fun s v =>
    if s.besucht.contains v then some s
    else do
      let s' ← visitPost g g.getNumberOfVertexes v ⟨s.besucht, {}⟩
      some ⟨s'.besucht, s.compCounter + 1, s.comp.insert s.compCounter s'.components⟩) s

def reverseOrder (g : AdjacencyListDirectedGraph V) : Option (List V) := do
  let d ← DepthFirstOrder.new g
  some d.postOrder.reverse

def new (g : AdjacencyListDirectedGraph V) : Option (TreeMap ℕ (TreeSet V)) := do
  let order ← reverseOrder g
  let s ← visitAll g.invert order ⟨{}, 0, {}⟩
  some s.comp

section Phases

open DepthFirst

variable {g : AdjacencyListDirectedGraph V}

theorem marking (hg : WellFormed g) :
    Marking g.getSuccessorVertexSet g.vertices (seen (V := V)) enter leave where
  enters v s w := by
    simp only [seen, enter, TreeSet.contains_insert, Bool.or_eq_true, beq_iff_eq,
      compare_eq_iff_eq]
    exact or_congr_left eq_comm
  leaves v s w := rfl
  closed := hg.closed

theorem foldl_components (es : List (Event V)) (s : Visit V) (x : V) :
    x ∈ (es.foldl (apply enter leave) s).components ↔ x ∈ s.components ∨ x ∈ post es := by
  induction es generalizing s with
  | nil => simp [post]
  | cons e es ih =>
    cases e with
    | enter v => simp [ih, apply, enter, post]
    | leave v =>
      simp only [List.foldl_cons, ih, apply, leave, post, List.mem_cons, TreeSet.mem_insert,
        compare_eq_iff_eq]
      constructor
      · rintro ((rfl | h) | h)
        · exact Or.inr (Or.inl rfl)
        · exact Or.inl h
        · exact Or.inr (Or.inr h)
      · rintro (h | rfl | h)
        · exact Or.inl (Or.inr h)
        · exact Or.inl (Or.inl rfl)
        · exact Or.inr h

def SameMembers (t : TreeSet V) (c : List V) : Prop :=
  ∀ x, x ∈ t ↔ x ∈ c

def Numbered (comp : TreeMap ℕ (TreeSet V)) (n : ℕ) (cs : List (List V)) : Prop :=
  ∀ k : ℕ, Option.Rel SameMembers comp[n + k]? cs[k]?

def visited (s : Numbering V) : Set V :=
  {v | v ∈ s.besucht}

theorem visitAll_seen {v : V} {vs : List V} {s : Numbering V} (hs : v ∈ s.besucht) :
    visitAll g (v :: vs) s = visitAll g vs s := by
  simp [visitAll, hs]

theorem visitAll_fresh {v : V} {vs : List V} {s : Numbering V} {s' : Visit V}
    (hs : v ∉ s.besucht)
    (hv : visitPost g g.getNumberOfVertexes v ⟨s.besucht, {}⟩ = some s') :
    visitAll g (v :: vs) s = visitAll g vs
      ⟨s'.besucht, s.compCounter + 1, s.comp.insert s.compCounter s'.components⟩ := by
  simp [visitAll, hs, hv]

theorem unseen_card_le (s : Visit V) :
    (unseen g.vertices seen s).card ≤ g.getNumberOfVertexes :=
  (Finset.card_filter_le _ _).trans g.card_vertices_le

theorem visitAll_forest (hg : WellFormed g) (vs : List V) (hvs : ∀ v ∈ vs, v ∈ g.succ)
    (s : Numbering V) :
    ∃ s' cs, visitAll g vs s = some s' ∧ Forest g.adjacent (visited s) vs cs ∧
      (∀ i < s.compCounter, s'.comp[i]? = s.comp[i]?) ∧
      ((∀ i, s.compCounter ≤ i → s.comp[i]? = none) →
        Numbered s'.comp s.compCounter cs) := by
  induction vs generalizing s with
  | nil =>
    refine ⟨s, [], rfl, .nil, fun i _ => rfl, ?_⟩
    intro hnone k
    rw [hnone _ (Nat.le_add_right _ k)]
    exact .none
  | cons v vs ih =>
    have hrest : ∀ x ∈ vs, x ∈ g.succ := fun x hx => hvs x (List.mem_cons_of_mem v hx)
    have hv : v ∈ g.vertices := mem_vertices.mpr (hvs v List.mem_cons_self)
    by_cases hs : v ∈ s.besucht
    · obtain ⟨s', cs, hrun, hforest, hold, hnew⟩ := ih hrest s
      exact ⟨s', cs, (visitAll_seen hs).trans hrun, hforest.skip hs, hold, hnew⟩
    · have hseen : seen (⟨s.besucht, {}⟩ : Visit V) v = false := Bool.eq_false_iff.mpr hs
      obtain ⟨es, hes, hex⟩ := (marking hg).search_eq hv hseen (unseen_card_le _)
      let t : Visit V := leave v (es.foldl (apply enter leave) (enter v ⟨s.besucht, {}⟩))
      have hmembers : SameMembers t.components (post es ++ [v]) := by
        intro x
        simp only [t, leave, TreeSet.mem_insert, compare_eq_iff_eq, foldl_components, enter,
          List.mem_append, List.mem_singleton]
        constructor
        · rintro (h | h | h)
          · exact Or.inr h.symm
          · exact absurd h TreeSet.not_mem_emptyc
          · exact Or.inl h
        · rintro (h | h)
          · exact Or.inr (Or.inr h)
          · exact Or.inl h.symm
      obtain ⟨s', cs, hrun, hforest, hold, hnew⟩ := ih hrest
        ⟨t.besucht, s.compCounter + 1, s.comp.insert s.compCounter t.components⟩
      refine ⟨s', (post es ++ [v]) :: cs, (visitAll_fresh hs hes).trans hrun, ?_, ?_, ?_⟩
      · exact .tree hs hex hforest
      · intro i hi
        rw [hold i (Nat.lt_succ_of_lt hi), TreeMap.getElem?_insert, if_neg]
        rw [compare_eq_iff_eq]
        exact Nat.ne_of_gt hi
      · intro hnone k
        cases k with
        | zero =>
          have hcur := hold s.compCounter (Nat.lt_succ_self _)
          rw [TreeMap.getElem?_insert_self] at hcur
          rw [Nat.add_zero, hcur]
          exact .some hmembers
        | succ k =>
          have hk := hnew (by
            intro i hi
            rw [TreeMap.getElem?_insert, if_neg, hnone i (Nat.le_of_succ_le hi)]
            rw [compare_eq_iff_eq]
            exact Nat.ne_of_lt hi) k
          rw [Nat.add_right_comm] at hk
          rw [List.getElem?_cons_succ, ← Nat.add_assoc]
          exact hk

end Phases

def InComponent (comp : TreeMap ℕ (TreeSet V)) (i : ℕ) (v : V) : Prop :=
  ∃ c, comp[i]? = some c ∧ v ∈ c

theorem inComponent_iff {comp : TreeMap ℕ (TreeSet V)} {cs : List (List V)}
    (h : Numbered comp 0 cs) (i : ℕ) (v : V) :
    InComponent comp i v ↔ ∃ c, cs[i]? = some c ∧ v ∈ c := by
  have hi := h i
  rw [Nat.zero_add] at hi
  unfold InComponent
  generalize comp[i]? = t at hi
  generalize cs[i]? = c at hi
  cases hi with
  | none => simp
  | some hm => simp [hm v]

theorem numbered_inhabited {comp : TreeMap ℕ (TreeSet V)} {cs : List (List V)}
    (h : Numbered comp 0 cs) (hcs : ∀ c ∈ cs, ∃ v, v ∈ c) {i : ℕ} {t : TreeSet V}
    (ht : comp[i]? = some t) : ∃ v, v ∈ t := by
  have hi := h i
  rw [Nat.zero_add, ht] at hi
  generalize hc : cs[i]? = c at hi
  cases hi with
  | some hm =>
    obtain ⟨v, hv⟩ := hcs _ (List.mem_of_getElem? hc)
    exact ⟨v, (hm v).mpr hv⟩

def Reachable (g : AdjacencyListDirectedGraph V) : V → V → Prop :=
  Relation.ReflTransGen g.Edge

theorem reach_iff (g : AdjacencyListDirectedGraph V) (v w : V) :
    DepthFirst.Reach g.adjacent v w ↔ Reachable g v w := by
  have hstep : DepthFirst.Step g.adjacent = g.Edge := by
    ext a b
    exact mem_adjacent
  rw [DepthFirst.Reach, Reachable, hstep]

theorem finished {g : AdjacencyListDirectedGraph V} (hg : WellFormed g) {vis : Set V}
    {es : List (DepthFirst.Event V)}
    (h : DepthFirst.Explore g.adjacent ∅ g.getVertexSet vis es) :
    DepthFirst.Finished g.adjacent g.invert.adjacent (DepthFirst.post es) where
  inverse x y := by
    rw [mem_adjacent, mem_adjacent]
    exact edge_invert g y x
  laced := h.laced
  nodup := h.nodup
  vertices x y hxy := by
    have hedge : g.Edge x y := mem_adjacent.mp hxy
    rw [DepthFirstOrder.postOrder_mem h hg, DepthFirstOrder.postOrder_mem h hg]
    exact ⟨hedge.source, hg.targets x y hedge⟩

theorem new_components {g : AdjacencyListDirectedGraph V} (hg : WellFormed g)
    (hinc : ∀ v ∈ g.succ, g.Incident v) :
    ∃ comp cs ws, new g = some comp ∧ DepthFirst.Components g.adjacent ∅ ws cs ∧
      (∀ v, v ∈ ws ↔ v ∈ g.succ) ∧ (∀ c ∈ cs, ∀ v ∈ c, v ∈ g.succ) ∧ Numbered comp 0 cs := by
  obtain ⟨d, vis, es, hd, hex, -, hpost⟩ := DepthFirstOrder.new_explores hg
  have hmem : ∀ v, v ∈ d.postOrder.reverse ↔ v ∈ g.succ := by
    intro v
    rw [List.mem_reverse, hpost]
    exact DepthFirstOrder.postOrder_mem hex hg v
  have hinv : ∀ v ∈ d.postOrder.reverse, v ∈ g.invert.succ := by
    intro v hv
    exact (mem_invert g v).mpr (hinc v ((hmem v).mp hv))
  obtain ⟨s, cs, hs, hforest, -, hnew⟩ :=
    visitAll_forest (wellFormed_invert g) d.postOrder.reverse hinv ⟨{}, 0, {}⟩
  have hnone : visited (⟨{}, 0, {}⟩ : Numbering V) = ∅ := by
    ext v
    simp [visited]
  rw [hnone] at hforest
  have hnum : Numbered s.comp 0 cs := hnew fun i _ => TreeMap.getElem?_emptyc
  refine ⟨s.comp, cs, d.postOrder.reverse, ?_, ?_, hmem, ?_, hnum⟩
  · simp [new, reverseOrder, hd, hs]
  · refine hforest.components (finished hg hex) ?_
      (show _ = d.postOrder.reverse.reverse ++ [] by
        rw [List.append_nil, List.reverse_reverse, hpost]) ?_
    · intro x hx
      cases hx
    · intro x hx
      cases hx
  · intro c hc v hv
    obtain ⟨w, hw, hpath⟩ := hforest.reach hc hv
    rcases hpath.cases_tail with rfl | ⟨u, -, hu⟩
    · exact (hmem v).mp hw
    · have hedge : g.Edge v u := (edge_invert g v u).mp (mem_adjacent.mp hu)
      exact hedge.source

theorem kosaraju (calls : List (AdjacencyListDirectedGraph.Call V))
    (hinc : ∀ v ∈ (build calls).getVertexSet, (build calls).Incident v) :
    ∃ comp, new (build calls) = some comp ∧
      (∀ (i : ℕ) (c : TreeSet V), comp[i]? = some c → ∃ v, v ∈ c) ∧
      (∀ v, v ∈ (build calls).getVertexSet ↔ ∃ i, InComponent comp i v) ∧
      (∀ i j v, InComponent comp i v → InComponent comp j v → i = j) ∧
      (∀ v ∈ (build calls).getVertexSet, ∀ w ∈ (build calls).getVertexSet,
        (∃ i, InComponent comp i v ∧ InComponent comp i w) ↔
          Reachable (build calls) v w ∧ Reachable (build calls) w v) ∧
      ∀ v w i j, (build calls).Edge v w → InComponent comp i v → InComponent comp j w →
        i ≠ j → i < j := by
  have hinc' : ∀ v ∈ (build calls).succ, (build calls).Incident v := by
    intro v hv
    exact hinc v ((mem_getVertexSet _ v).mpr hv)
  obtain ⟨comp, cs, ws, hnew, hcs, hws, hvert, hnum⟩ :=
    new_components (wellFormed_build calls) hinc'
  have hin := inComponent_iff hnum
  have hcover : ∀ v ∈ (build calls).getVertexSet, ∃ i, InComponent comp i v := by
    intro v hv
    rcases hcs.covers v ((hws v).mpr ((mem_getVertexSet _ v).mp hv)) with he | ⟨c, hc, hvc⟩
    · cases he
    · obtain ⟨i, hi⟩ := List.mem_iff_getElem?.mp hc
      exact ⟨i, (hin i v).mpr ⟨c, hi, hvc⟩⟩
  have hunique : ∀ i j v, InComponent comp i v → InComponent comp j v → i = j := by
    intro i j v hi hj
    obtain ⟨c, hc, hvc⟩ := (hin i v).mp hi
    obtain ⟨d, hd, hvd⟩ := (hin j v).mp hj
    exact hcs.unique hc hvc hd hvd
  have hle : ∀ i j v w, InComponent comp i v → InComponent comp j w →
      Reachable (build calls) v w → i ≤ j := by
    intro i j v w hi hj hpath
    obtain ⟨c, hc, hvc⟩ := (hin i v).mp hi
    obtain ⟨d, hd, hwd⟩ := (hin j w).mp hj
    exact hcs.index_le hc hvc hd hwd ((reach_iff _ v w).mpr hpath)
  refine ⟨comp, hnew, ?_, ?_, hunique, ?_, ?_⟩
  · intro i c hc
    exact numbered_inhabited hnum hcs.inhabited hc
  · intro v
    refine ⟨hcover v, ?_⟩
    rintro ⟨i, hi⟩
    obtain ⟨c, hc, hvc⟩ := (hin i v).mp hi
    exact (mem_getVertexSet _ v).mpr (hvert c (List.mem_of_getElem? hc) v hvc)
  · intro v hv w hw
    constructor
    · rintro ⟨i, hi, hj⟩
      obtain ⟨c, hc, hvc⟩ := (hin i v).mp hi
      obtain ⟨d, hd, hwd⟩ := (hin i w).mp hj
      obtain rfl : c = d := Option.some.inj (hc.symm.trans hd)
      have hmem := List.mem_of_getElem? hc
      exact ⟨(reach_iff _ v w).mp (hcs.strong c hmem v hvc w hwd),
        (reach_iff _ w v).mp (hcs.strong c hmem w hwd v hvc)⟩
    · rintro ⟨hvw, hwv⟩
      obtain ⟨i, hi⟩ := hcover v hv
      obtain ⟨j, hj⟩ := hcover w hw
      obtain rfl : i = j := le_antisymm (hle i j v w hi hj hvw) (hle j i w v hj hi hwv)
      exact ⟨i, hi, hj⟩
  · intro v w i j hedge hi hj hij
    exact lt_of_le_of_ne (hle i j v w hi hj (Relation.ReflTransGen.single hedge)) hij

-- The graph 1 ⇄ 2 → 3.
theorem kosaraju_cycle_and_tail :
    let calls : List (AdjacencyListDirectedGraph.Call ℕ) :=
      [.addEdge 1 2 1, .addEdge 2 1 1, .addEdge 2 3 1]
    (∀ v ∈ (build calls).getVertexSet, (build calls).Incident v) ∧
      ∃ comp, new (build calls) = some comp ∧
        ∀ v ∈ (build calls).getVertexSet, ∃ i, InComponent comp i v := by
  intro calls
  have hinc : ∀ v ∈ (build calls).getVertexSet, (build calls).Incident v := by
    have hset : (build calls).getVertexSet = [1, 2, 3] := by decide
    have h12 : (build calls).Edge 1 2 := by decide
    have h23 : (build calls).Edge 2 3 := by decide
    intro v hv
    rw [hset] at hv
    rcases List.mem_cons.mp hv with rfl | hv
    · exact ⟨2, Or.inl h12⟩
    · rcases List.mem_cons.mp hv with rfl | hv
      · exact ⟨1, Or.inr h12⟩
      · obtain rfl : v = 3 := List.mem_singleton.mp hv
        exact ⟨2, Or.inr h23⟩
  obtain ⟨comp, hnew, -, hcover, -⟩ := kosaraju calls hinc
  exact ⟨hinc, comp, hnew, fun v hv => (hcover v).mp hv⟩

end StrongComponents
