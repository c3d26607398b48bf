import HTWGArchive.DirectedGraph.AdjacencyList

open Std (TreeMap TreeSet)

namespace AdjacencyListDirectedGraph

variable {V : Type*} [LinearOrder V]

def containsVertex (g : AdjacencyListDirectedGraph V) (v : V) : Bool :=
  g.succ.contains v

def containsEdge (g : AdjacencyListDirectedGraph V) (v w : V) : Bool :=
  (g.succ[v]?).any fun m => m[w]?.isSome

-- `none` is the NullPointerException of a vertex that is not in the graph.
def getInDegree (g : AdjacencyListDirectedGraph V) (v : V) : Option ℕ :=
  (g.pred[v]?).map (·.size)

def getOutDegree (g : AdjacencyListDirectedGraph V) (v : V) : Option ℕ :=
  (g.succ[v]?).map (·.size)

def getNumberOfEdges (g : AdjacencyListDirectedGraph V) : ℕ :=
  g.numberEdge

def Call.weightGiven (v w : V) : Call V → Option ℚ
  | .addVertex _ => none
  | .addEdge a b weight => if a = v ∧ b = w then some weight else none

theorem containsVertex_iff {g : AdjacencyListDirectedGraph V} {v : V} :
    g.containsVertex v = true ↔ v ∈ g.succ :=
  Iff.rfl

theorem containsEdge_iff {g : AdjacencyListDirectedGraph V} {v w : V} :
    g.containsEdge v w = true ↔ g.Edge v w := by
  unfold containsEdge Edge getWeight
  cases g.succ[v]? <;> simp

theorem WellFormed.pred_iff {g : AdjacencyListDirectedGraph V} (hg : WellFormed g) (v w : V)
    (x : ℚ) :
    (∃ m : TreeMap V ℚ, g.succ[v]? = some m ∧ m[w]? = some x) ↔
      ∃ m : TreeMap V ℚ, g.pred[w]? = some m ∧ m[v]? = some x := by
  rw [← Option.bind_eq_some_iff, ← Option.bind_eq_some_iff, ← hg.mirrored v w]
  rfl

section Degrees

variable {g : AdjacencyListDirectedGraph V}

def pairs (g : AdjacencyListDirectedGraph V) : Finset (V × V) :=
  (g.edges.map fun e => (e.1, e.2.1)).toFinset

theorem mem_pairs {v w : V} : (v, w) ∈ g.pairs ↔ g.Edge v w := by
  simp only [pairs, List.mem_toFinset, List.mem_map, Prod.exists, Prod.mk.injEq, mem_edges, Edge,
    Option.isSome_iff_exists]
  constructor
  · rintro ⟨a,b,x,hx,rfl,rfl⟩
    exact ⟨x,hx⟩
  · rintro ⟨x,hx⟩
    exact ⟨v,w,x,hx,rfl,rfl⟩

theorem size_eq_card {m : TreeMap V ℚ} {s : Finset V} (h : ∀ a, a ∈ m ↔ a ∈ s) :
    m.size = s.card := by
  have hs : m.keys.toFinset = s := by
    ext a
    rw [List.mem_toFinset, TreeMap.mem_keys, h]
  rw [← TreeMap.length_keys, ← hs, List.toFinset_card_of_nodup TreeMap.nodup_keys]

theorem getOutDegree_eq {v : V} (hv : v ∈ g.succ) :
    g.getOutDegree v = some {e ∈ g.pairs | e.1 = v}.card := by
  obtain ⟨m,hm⟩ := (mem_iff_getElem? _ _).mp hv
  have himage : {e ∈ g.pairs | e.1 = v}.card = ({e ∈ g.pairs | e.1 = v}.image Prod.snd).card := by
    refine (Finset.card_image_of_injOn ?_).symm
    rintro ⟨a,b⟩ ha ⟨c,d⟩ hc hbd
    obtain ⟨-,rfl⟩ := Finset.mem_filter.mp ha
    obtain ⟨-,rfl⟩ := Finset.mem_filter.mp hc
    exact Prod.ext rfl hbd
  rw [getOutDegree, hm, Option.map_some, himage, size_eq_card]
  intro w
  simp only [Finset.mem_image, Finset.mem_filter, Prod.exists, mem_pairs, Edge, getWeight]
  constructor
  · intro hw
    exact ⟨v,w,⟨by simpa [hm] using hw,rfl⟩,rfl⟩
  · rintro ⟨a,b,⟨hab,rfl⟩,rfl⟩
    simpa [hm] using hab

theorem WellFormed.getInDegree_eq (hg : WellFormed g) {v : V} (hv : v ∈ g.pred) :
    g.getInDegree v = some {e ∈ g.pairs | e.2 = v}.card := by
  obtain ⟨m,hm⟩ := (mem_iff_getElem? _ _).mp hv
  have himage : {e ∈ g.pairs | e.2 = v}.card = ({e ∈ g.pairs | e.2 = v}.image Prod.fst).card := by
    refine (Finset.card_image_of_injOn ?_).symm
    rintro ⟨a,b⟩ ha ⟨c,d⟩ hc hac
    obtain ⟨-,rfl⟩ := Finset.mem_filter.mp ha
    obtain ⟨-,rfl⟩ := Finset.mem_filter.mp hc
    exact Prod.ext hac rfl
  rw [getInDegree, hm, Option.map_some, himage, size_eq_card]
  intro w
  simp only [Finset.mem_image, Finset.mem_filter, Prod.exists, mem_pairs, Edge, hg.mirrored]
  constructor
  · intro hw
    exact ⟨w,v,⟨by simpa [hm] using hw,rfl⟩,rfl⟩
  · rintro ⟨a,b,⟨hab,rfl⟩,rfl⟩
    simpa [hm] using hab

theorem sum_degrees {degree : V → Option ℕ} {f : V × V → V}
    (hd : ∀ v ∈ g.succ, degree v = some {e ∈ g.pairs | f e = v}.card)
    (hf : ∀ e ∈ g.pairs, f e ∈ g.succ) :
    (g.getVertexSet.map fun v => (degree v).getD 0).sum = g.pairs.card := by
  have hmaps : (g.pairs : Set (V × V)).MapsTo f (g.getVertexSet.toFinset : Set V) := fun e he =>
    List.mem_toFinset.mpr ((mem_getVertexSet g (f e)).mpr (hf e he))
  have hnd : g.getVertexSet.Nodup := TreeMap.nodup_keys
  rw [Finset.card_eq_sum_card_fiberwise hmaps, List.sum_toFinset _ hnd]
  congr 1
  refine List.map_congr_left fun v hv => ?_
  rw [hd v ((mem_getVertexSet g v).mp hv), Option.getD_some]

theorem sum_outDegrees (g : AdjacencyListDirectedGraph V) :
    (g.getVertexSet.map fun v => (g.getOutDegree v).getD 0).sum = g.pairs.card := by
  refine sum_degrees (fun v hv => getOutDegree_eq hv) ?_
  rintro ⟨v,w⟩ he
  exact (mem_pairs.mp he).source

theorem WellFormed.sum_inDegrees (hg : WellFormed g) :
    (g.getVertexSet.map fun v => (g.getInDegree v).getD 0).sum = g.pairs.card := by
  refine sum_degrees (fun v hv => hg.getInDegree_eq ((hg.domains v).mp hv)) ?_
  rintro ⟨v,w⟩ he
  exact hg.targets v w (mem_pairs.mp he)

end Degrees

section Counter

variable {g : AdjacencyListDirectedGraph V}

theorem WellFormed.addVertex_returns (hg : WellFormed g) (v : V) :
    (g.addVertex v).2 = true ↔ g.containsVertex v = false := by
  rw [← Bool.not_eq_true, containsVertex_iff, AdjacencyListDirectedGraph.addVertex]
  split_ifs with hv
  · simp [hv.1]
  · simpa using fun h => hv ⟨h,(hg.domains v).mp h⟩

theorem WellFormed.known_iff (hg : WellFormed g) (v w : V) :
    ((((g.addVertex v).1.addVertex w).1.succ[v]?).any (·.contains w)) = true ↔ g.Edge v w := by
  rw [Edge, ← hg.getWeight_addVertex v v w, ← (hg.addVertex v).getWeight_addVertex w v w, getWeight]
  cases ((g.addVertex v).1.addVertex w).1.succ[v]? <;> simp

theorem WellFormed.addEdge_returns (hg : WellFormed g) (v w : V) (weight : ℚ) :
    (g.addEdge v w weight).2 = true ↔ g.containsEdge v w = false := by
  rw [← Bool.not_eq_true, containsEdge_iff, ← hg.known_iff v w,
    AdjacencyListDirectedGraph.addEdge]
  split_ifs with hk <;> simp [hk]

theorem numberEdge_addVertex (g : AdjacencyListDirectedGraph V) (v : V) :
    (g.addVertex v).1.numberEdge = g.numberEdge := by
  unfold addVertex
  split_ifs <;> rfl

theorem WellFormed.numberEdge_addEdge (hg : WellFormed g) (v w : V) (weight : ℚ) :
    (g.addEdge v w weight).1.numberEdge = if g.Edge v w then g.numberEdge else g.numberEdge + 1 := by
  have hk := hg.known_iff v w
  have hn : ((g.addVertex v).1.addVertex w).1.numberEdge = g.numberEdge := by
    rw [numberEdge_addVertex, numberEdge_addVertex]
  unfold AdjacencyListDirectedGraph.addEdge
  by_cases h : g.Edge v w
  · simp only [hk.mpr h, if_true, h, hn]
  · simp only [mt hk.mp h, if_false, h, hn, Bool.false_eq_true]

theorem WellFormed.pairs_addEdge (hg : WellFormed g) (v w : V) (weight : ℚ) :
    (g.addEdge v w weight).1.pairs = insert (v, w) g.pairs := by
  ext ⟨a,b⟩
  rw [Finset.mem_insert, mem_pairs, mem_pairs, hg.edge_addEdge, Prod.mk.injEq]

theorem WellFormed.pairs_addVertex (hg : WellFormed g) (v : V) :
    (g.addVertex v).1.pairs = g.pairs := by
  ext ⟨a,b⟩
  rw [mem_pairs, mem_pairs, Edge, hg.getWeight_addVertex, Edge]

theorem WellFormed.counted_call (hg : WellFormed g) (h : g.numberEdge = g.pairs.card)
    (c : Call V) : (g.call c).1.numberEdge = (g.call c).1.pairs.card := by
  cases c with
  | addVertex v =>
    rw [AdjacencyListDirectedGraph.call, numberEdge_addVertex, hg.pairs_addVertex, h]
  | addEdge v w weight =>
    rw [AdjacencyListDirectedGraph.call, hg.numberEdge_addEdge, hg.pairs_addEdge, h]
    by_cases he : g.Edge v w
    · rw [if_pos he, Finset.insert_eq_of_mem (mem_pairs.mpr he)]
    · rw [if_neg he, Finset.card_insert_of_notMem (mt mem_pairs.mp he)]

end Counter

section Builds

variable {calls : List (Call V)}

theorem build_append (calls : List (Call V)) (c : Call V) :
    build (calls ++ [c]) = ((build calls).call c).1 := by
  simp [build]

theorem counted (calls : List (Call V)) :
    (build calls).numberEdge = (build calls).pairs.card := by
  induction calls using List.reverseRecOn with
  | nil =>
    have hnil : (empty : AdjacencyListDirectedGraph V).edges = [] := by simp [empty, edges]
    rw [build, List.foldl_nil, pairs, hnil]
    rfl
  | append_singleton calls c ih =>
    rw [build_append]
    exact (wellFormed_build calls).counted_call ih c

theorem last_weight (calls : List (Call V)) (v w : V) :
    (build calls).getWeight v w = (calls.filterMap (Call.weightGiven v w)).getLast? := by
  induction calls using List.reverseRecOn with
  | nil => simp [build, empty, getWeight]
  | append_singleton calls c ih =>
    rw [build_append, List.filterMap_append]
    cases c with
    | addVertex a =>
      rw [call, (wellFormed_build calls).getWeight_addVertex, ih]
      simp [Call.weightGiven]
    | addEdge a b weight =>
      rw [call, (wellFormed_build calls).getWeight_addEdge, ih]
      by_cases h : v = a ∧ w = b
      · obtain ⟨rfl,rfl⟩ := h
        simp [Call.weightGiven]
      · have h' : ¬ (a = v ∧ b = w) := fun he => h ⟨he.1.symm,he.2.symm⟩
        simp [Call.weightGiven, h, h']

end Builds

theorem directions_in_step (calls : List (Call V)) :
    (∀ v, v ∈ (build calls).succ ↔ v ∈ (build calls).pred) ∧
    (∀ (v w : V) (x : ℚ), (∃ m : TreeMap V ℚ, (build calls).succ[v]? = some m ∧ m[w]? = some x) ↔
      ∃ m : TreeMap V ℚ, (build calls).pred[w]? = some m ∧ m[v]? = some x) ∧
    (∀ v ∈ (build calls).getVertexSet,
      ((build calls).getOutDegree v).isSome ∧ ((build calls).getInDegree v).isSome) ∧
    ((build calls).getVertexSet.map fun v => ((build calls).getOutDegree v).getD 0).sum =
      (build calls).getNumberOfEdges ∧
    ((build calls).getVertexSet.map fun v => ((build calls).getInDegree v).getD 0).sum =
      (build calls).getNumberOfEdges ∧
    (∀ v, ((build calls).addVertex v).2 = true ↔ (build calls).containsVertex v = false) ∧
    (∀ v w x, ((build calls).addEdge v w x).2 = true ↔ (build calls).containsEdge v w = false) ∧
    (∀ v w x a b, ((build calls).addEdge v w x).1.getWeight a b =
      if a = v ∧ b = w then some x else (build calls).getWeight a b) ∧
    ∀ v w, (build calls).getWeight v w = (calls.filterMap (Call.weightGiven v w)).getLast? := by
  have hg := wellFormed_build calls
  refine ⟨hg.domains,hg.pred_iff,fun v hv => ?_,?_,?_,hg.addVertex_returns,hg.addEdge_returns,
    fun v w x a b => hg.getWeight_addEdge v w a b x,last_weight calls⟩
  · have hs := (mem_getVertexSet _ v).mp hv
    rw [getOutDegree_eq hs, hg.getInDegree_eq ((hg.domains v).mp hs)]
    exact ⟨rfl,rfl⟩
  · rw [sum_outDegrees, getNumberOfEdges, counted]
  · rw [hg.sum_inDegrees, getNumberOfEdges, counted]

end AdjacencyListDirectedGraph
