import HTWGArchive.DirectedGraph.Degrees

open Std (TreeMap TreeSet)

namespace AdjacencyListDirectedGraph

variable {V : Type*} [LinearOrder V]

structure SameGraph (g g' : AdjacencyListDirectedGraph V) : Prop where
  vertices : ∀ v, v ∈ g.getVertexSet ↔ v ∈ g'.getVertexSet
  edges : ∀ v w, g.containsEdge v w = g'.containsEdge v w
  weights : ∀ v w, g.getWeight v w = g'.getWeight v w

structure Inverts (g : AdjacencyListDirectedGraph V) : Prop where
  vertices : ∀ v, v ∈ g.invert.getVertexSet ↔ v ∈ g.getVertexSet
  edges : ∀ v w x, g.invert.containsEdge w v = true ∧ g.invert.getWeight w v = some x ↔
    g.containsEdge v w = true ∧ g.getWeight v w = some x
  involutive : SameGraph g.invert.invert g

theorem weight_addInverted {es : List (V × V × ℚ)} {g : AdjacencyListDirectedGraph V}
    (hg : WellFormed g) {a b : V} {x : ℚ}
    (h : (es.foldl addInverted g).getWeight a b = some x) :
    (b, a, x) ∈ es ∨ g.getWeight a b = some x := by
  induction es generalizing g with
  | nil => exact .inr h
  | cons e es ih =>
    rcases ih (hg.addEdge e.2.1 e.1 e.2.2) h with hmem | hw
    · exact .inl (List.mem_cons_of_mem e hmem)
    · rw [hg.getWeight_addEdge] at hw
      split_ifs at hw with hab
      · obtain ⟨rfl,rfl⟩ := hab
        obtain rfl := Option.some.inj hw
        exact .inl List.mem_cons_self
      · exact .inr hw

theorem getWeight_of_invert {g : AdjacencyListDirectedGraph V} {v w : V} {x : ℚ}
    (h : g.invert.getWeight w v = some x) : g.getWeight v w = some x := by
  rw [invert_eq_foldl] at h
  rcases weight_addInverted wellFormed_empty h with hmem | hnone
  · exact (mem_edges g v w x).mp hmem
  · simp [empty, getWeight] at hnone

theorem getWeight_invert (g : AdjacencyListDirectedGraph V) (v w : V) :
    g.invert.getWeight w v = g.getWeight v w := by
  cases hi : g.invert.getWeight w v with
  | some x => exact (getWeight_of_invert hi).symm
  | none =>
    cases hw : g.getWeight v w with
    | none => rfl
    | some x =>
      have hedge : g.invert.Edge w v := (edge_invert g v w).mpr (by simp [Edge, hw])
      simp [Edge, hi] at hedge

theorem containsEdge_invert (g : AdjacencyListDirectedGraph V) (v w : V) :
    g.invert.containsEdge w v = g.containsEdge v w := by
  rw [Bool.eq_iff_iff, containsEdge_iff, containsEdge_iff, edge_invert]

theorem incident_mem {g : AdjacencyListDirectedGraph V} (hg : WellFormed g) {v : V}
    (h : g.Incident v) : v ∈ g.getVertexSet := by
  rw [mem_getVertexSet]
  obtain ⟨w,h | h⟩ := h
  · exact h.source
  · exact hg.targets w v h

theorem incident_invert {g : AdjacencyListDirectedGraph V} {v : V} :
    g.invert.Incident v ↔ g.Incident v := by
  simp only [Incident, edge_invert]
  exact exists_congr fun w => or_comm

theorem mem_getVertexSet_invert {g : AdjacencyListDirectedGraph V} {v : V} :
    v ∈ g.invert.getVertexSet ↔ g.Incident v := by
  rw [mem_getVertexSet, mem_invert]

theorem WellFormed.inverts {g : AdjacencyListDirectedGraph V} (hg : WellFormed g)
    (h : ∀ v ∈ g.getVertexSet, g.Incident v) : Inverts g where
  vertices v := mem_getVertexSet_invert.trans ⟨incident_mem hg,h v⟩
  edges v w x := by rw [containsEdge_invert, getWeight_invert]
  involutive :=
    { vertices := fun v => by
        rw [mem_getVertexSet_invert, incident_invert]
        exact ⟨incident_mem hg,h v⟩
      edges := fun v w => by rw [containsEdge_invert, containsEdge_invert]
      weights := fun v w => by rw [getWeight_invert, getWeight_invert] }

theorem inverts_iff (calls : List (Call V)) :
    Inverts (build calls) ↔ ∀ v ∈ (build calls).getVertexSet, (build calls).Incident v :=
  ⟨fun h v hv => mem_getVertexSet_invert.mp ((h.vertices v).mpr hv),(wellFormed_build calls).inverts⟩

theorem isolated_vertex_lost :
    ¬ Inverts (build [.addVertex 1] : AdjacencyListDirectedGraph ℕ) := by
  intro h
  have hv := (h.vertices 1).mpr (by decide)
  exact absurd hv (by decide)

end AdjacencyListDirectedGraph
