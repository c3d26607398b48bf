import HTWGArchive.ShortestPath.Search

open AdjacencyListDirectedGraph

namespace ShortestPath

section Graphs

variable {V : Type} [LinearOrder V]

theorem forall_weight {myGraph : AdjacencyListDirectedGraph V} {p : V → V → ℚ → Prop}
    (h : ∀ e ∈ myGraph.edges, p e.1 e.2.1 e.2.2) (v w : V) (x : ℚ)
    (hx : myGraph.getWeight v w = some x) : p v w x :=
  h (v, w, x) ((mem_edges myGraph v w x).mpr hx)

theorem lengthsBelow_of_edges {myGraph : AdjacencyListDirectedGraph V} {m top : ℚ} (s : V)
    (hm : ∀ e ∈ myGraph.edges, e.2.2 ≤ m) (hm0 : 0 ≤ m)
    (htop : myGraph.getNumberOfVertexes * m < top) :
    LabelSetting.LengthsBelow myGraph.getWeight s top := by
  have hsource : ∀ v w, (myGraph.getWeight v w).isSome → v ∈ myGraph.vertices := by
    intro v w hedge
    exact mem_vertices.mpr (Edge.source hedge)
  apply LabelSetting.lengthsBelow_of_le (forall_weight (p := fun _ _ x => x ≤ m) hm) hm0 hsource
  · calc (myGraph.vertices.card : ℚ) * m ≤ myGraph.getNumberOfVertexes * m :=
          mul_le_mul_of_nonneg_right (Nat.cast_le.mpr myGraph.card_vertices_le) hm0
      _ < top := htop

theorem problem_of_build (calls : List (Call V)) {s g : V}
    (hs : s ∈ (build calls).getVertexSet) (hg : g ∈ (build calls).getVertexSet)
    (hpos : LabelSetting.NonNegative (build calls).getWeight)
    (hlen : LabelSetting.LengthsBelow (build calls).getWeight s maxValue) :
    Problem (build calls) s g where
  wellFormed := wellFormed_build calls
  start := (mem_getVertexSet _ s).mp hs
  goal := (mem_getVertexSet _ g).mp hg
  nonNegative := hpos
  lengths := hlen

theorem aStar_exact (calls : List (Call V)) (estimatedCost : V → V → ℚ) (s g : V)
    (hs : s ∈ (build calls).getVertexSet) (hg : g ∈ (build calls).getVertexSet)
    (hpos : LabelSetting.NonNegative (build calls).getWeight)
    (hlen : LabelSetting.LengthsBelow (build calls).getWeight s maxValue)
    (hcons : LabelSetting.Consistent (build calls).getWeight (estimatedCost · g)) :
    ∃ final, searchShortestPathMain (build calls) (some estimatedCost) s g = some final ∧
      final.besucht.Nodup ∧ ReturnsDistance (build calls) s g final ∧
      (getDistance final g = some maxValue ↔
        ¬ LabelSetting.Reachable (build calls).getWeight s g) := by
  have hp := problem_of_build calls hs hg hpos hlen
  obtain ⟨final, last, hfinal, hlast, hends⟩ := search_ends hp (some estimatedCost)
  have hsearch := Reached.searching hp hlast
  have hget := hends.getDistance hp hsearch
  refine ⟨final, hfinal, ?_, ?_, ?_⟩
  · rw [hends.besucht]
    exact (List.nodup_append.mp hsearch.inv.nodup).1
  · rw [hends.returnsDistance_iff hp hsearch]
    by_cases hreach : LabelSetting.Reachable (build calls).getWeight s g
    · obtain ⟨rest, ht⟩ := hends.taken hp hsearch hreach
      exact Or.inr (hlast.goal_distance hp hcons (fun _ _ _ _ h => takeCandidate_selects h) ht)
    · exact Or.inl hreach
  · rw [hget, Option.some.injEq]
    constructor
    · intro hmax hreach
      obtain ⟨rest, ht⟩ := hends.taken hp hsearch hreach
      have hgw := (hsearch.candidate hp ht).1
      exact hsearch.inv.discovered_waiting hgw hmax
    · exact hsearch.inv.unreachable

end Graphs

def detour : List (Call ℕ) :=
  [.addEdge 0 1 10, .addEdge 0 2 1, .addEdge 2 1 1]

theorem detour_nonNegative : LabelSetting.NonNegative (build detour).getWeight :=
  forall_weight (p := fun _ _ x => 0 ≤ x) (by decide +kernel)

theorem detour_lengths : LabelSetting.LengthsBelow (build detour).getWeight 0 maxValue :=
  lengthsBelow_of_edges (m := 10) 0 (by decide +kernel) (by norm_num) (by decide +kernel)

def detourEstimate (v _ : ℕ) : ℚ :=
  if v = 0 then 2 else if v = 2 then 1 else 0

theorem aStar_exact_detour :
    ∃ final, searchShortestPathMain (build detour) (some detourEstimate) 0 1 = some final ∧
      final.besucht.Nodup ∧ ReturnsDistance (build detour) 0 1 final ∧
      (getDistance final 1 = some maxValue ↔
        ¬ LabelSetting.Reachable (build detour).getWeight 0 1) :=
  aStar_exact detour detourEstimate 0 1 (by decide) (by decide) detour_nonNegative detour_lengths
    (forall_weight (p := fun v w x => detourEstimate v 1 ≤ x + detourEstimate w 1)
      (by decide +kernel))

end ShortestPath
