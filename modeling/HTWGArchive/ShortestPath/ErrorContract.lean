import HTWGArchive.ShortestPath.Reconstruction

open AdjacencyListDirectedGraph

set_option linter.unusedSectionVars false

namespace ShortestPath

variable {V O : Type} [LinearOrder V] [DecidableEq O]

structure ConsistentHeuristic (myGraph : AdjacencyListDirectedGraph V)
    (estimatedCost : V → V → ℚ) (g : V) : Prop where
  goal : estimatedCost g g = 0
  nonNegative : ∀ v, 0 ≤ estimatedCost v g
  consistent : LabelSetting.Consistent myGraph.getWeight (estimatedCost · g)

namespace ObjectSearch

variable {objects : Vertices V O} {myGraph : AdjacencyListDirectedGraph V} {s g : O}
  {estimatedCost : V → V → ℚ} {final : ObjectSearch V O}

structure Succeeds (objects : Vertices V O) (final : ObjectSearch V O) (s g : O) : Prop where
  path : ∃ path, Returns (getShortestPath objects final s g) (.ok path) ∧
    (objects.value s = objects.value g → path.map objects.value = [objects.value s])
  distance : ∃ d, getDistance objects final g = .ok d ∧ (objects.value s = objects.value g → d = 0)

structure Rejects (objects : Vertices V O) (final : ObjectSearch V O) (s g : O) : Prop where
  path : Returns (getShortestPath objects final s g) (.error .illegalArgument)
  distance : getDistance objects final g = .error .illegalArgument

def KeepsContract (objects : Vertices V O) (myGraph : AdjacencyListDirectedGraph V)
    (estimatedCost : V → V → ℚ) (s g : O) : Prop :=
  ∃ final, Returns (searchShortestPathMain objects myGraph (some estimatedCost) s g) final ∧
    (LabelSetting.Reachable myGraph.getWeight (objects.value s) (objects.value g) →
      Succeeds objects final s g) ∧
    (¬ LabelSetting.Reachable myGraph.getWeight (objects.value s) (objects.value g) →
      Rejects objects final s g)

theorem returns_unique {α : Type} {run : ℕ → Option α} {a b : α} (ha : Returns run a)
    (hb : Returns run b) : a = b := by
  obtain ⟨n, hn⟩ := ha
  obtain ⟨m, hm⟩ := hb
  exact Option.some.inj ((hn (max n m) (le_max_left n m)).symm.trans (hm _ (le_max_right n m)))

theorem returns_of_isSome {h : Option (V → V → ℚ)} {n : ℕ}
    (hn : (searchShortestPathMain objects myGraph h s g n).isSome) :
    ∃ final, Returns (searchShortestPathMain objects myGraph h s g) final := by
  obtain ⟨final, hfinal⟩ := Option.isSome_iff_exists.mp hn
  exact ⟨final, n, fun m hm => loop_mono hm hfinal⟩

theorem run_of_returns {h : Option (V → V → ℚ)} (hp : Setting objects myGraph s g)
    (hret : Returns (searchShortestPathMain objects myGraph h s g) final) :
    Run objects myGraph s final := by
  obtain ⟨n, hn⟩ := hret
  exact hp.initial.loop hp n (hn n le_rfl)

theorem nullPointer_of_unlinked (hnone : parent objects final (objects.value g) = none) :
    Returns (getShortestPath objects final s g) (.error .nullPointer) := by
  have hpred : (final.pred[objects.value g]?).join = none := Option.map_eq_none_iff.mp hnone
  refine ⟨2, ?_⟩
  intro fuel hfuel
  obtain ⟨n, rfl⟩ := Nat.exists_eq_add_of_le hfuel
  rw [Nat.add_comm]
  simp [getShortestPath, collect, hpred]

theorem Run.dist_of_far (hr : Run objects myGraph s final)
    (hfar : ¬ Near myGraph (objects.value s) (objects.value g)) :
    distOf final.dist (objects.value g) = maxValue := by
  by_contra hne
  obtain ⟨vs, hpath⟩ := hr.labelled.realized _ hne
  exact hfar ⟨vs, _, hpath, lt_of_le_of_ne (hr.labelled.le_top _) hne⟩

theorem Run.unlinked (hr : Run objects myGraph s final)
    (h : objects.value s = objects.value g ∨ ¬ Near myGraph (objects.value s) (objects.value g)) :
    parent objects final (objects.value g) = none := by
  rcases h with heq | hfar
  · rw [← heq]
    exact hr.labelled.root
  · exact hr.labelled.unlinked _ (hr.dist_of_far hfar)

theorem not_keepsContract (hp : Setting objects myGraph s g)
    (h : objects.value s = objects.value g ∨ ¬ Near myGraph (objects.value s) (objects.value g)) :
    ¬ KeepsContract objects myGraph estimatedCost s g := by
  rintro ⟨final, hret, hsucceeds, hrejects⟩
  have hnull := nullPointer_of_unlinked (s := s) ((run_of_returns hp hret).unlinked h)
  by_cases hreach :
    LabelSetting.Reachable myGraph.getWeight (objects.value s) (objects.value g)
  · obtain ⟨path, hpath, -⟩ := (hsucceeds hreach).path
    cases returns_unique hnull hpath
  · cases returns_unique hnull (hrejects hreach).path

theorem guard_of_near (hp : Setting objects myGraph s g)
    (hnear : Near myGraph (objects.value s) (objects.value g))
    (hh : ConsistentHeuristic myGraph estimatedCost (objects.value g)) :
    Guard objects myGraph estimatedCost s g fun _ => True where
  labelled st u rest hs _ ht := by
    apply hs.tree.not_top hs.settled hp.nonNegative hh.consistent (takeCandidate_selects ht)
      hs.open_goal hnear
    rw [hh.goal]
    exact hh.nonNegative _
  keeps _ _ _ _ _ _ _ := trivial

theorem keepsContract_iff (calls : List (Call V)) (objects : Vertices V O)
    (estimatedCost : V → V → ℚ) (s g : O)
    (hs : objects.value s ∈ (build calls).getVertexSet)
    (hg : objects.value g ∈ (build calls).getVertexSet)
    (hpos : LabelSetting.NonNegative (build calls).getWeight)
    (hh : ConsistentHeuristic (build calls) estimatedCost (objects.value g)) :
    KeepsContract objects (build calls) estimatedCost s g ↔
      objects.value s ≠ objects.value g ∧
        Near (build calls) (objects.value s) (objects.value g) := by
  have hp := setting_of_build calls hs hg hpos
  constructor
  · intro hkeeps
    by_contra hno
    exact not_keepsContract hp (by tauto) hkeeps
  · rintro ⟨hne, hnear⟩
    obtain ⟨final, d, vs, hret, hget, -, hc, -, hrefs⟩ :=
      search_finds hp hnear hh.consistent (guard_of_near hp hnear hh) trivial
    obtain ⟨path, hpath, -⟩ := getShortestPath_chain hrefs hc hne
    refine ⟨final, hret, ?_, ?_⟩
    · intro _
      exact ⟨⟨path, hpath, fun h => absurd h hne⟩, ⟨d, hget, fun h => absurd h hne⟩⟩
    · intro hun
      exact absurd ⟨vs, d, hc.path⟩ hun

theorem detour_consistent : ConsistentHeuristic (build detour) detourEstimate 1 where
  goal := by decide
  nonNegative v := by
    unfold detourEstimate
    split_ifs <;> norm_num
  consistent := forall_weight (p := fun v w x => detourEstimate v 1 ≤ x + detourEstimate w 1)
    (by decide +kernel)

theorem keepsContract_iff_detour :
    KeepsContract detourVertices (build detour) detourEstimate (0, 0) (1, 0) ↔
      (0 : ℕ) ≠ 1 ∧ Near (build detour) 0 1 :=
  keepsContract_iff detour detourVertices detourEstimate (0, 0) (1, 0) (by decide) (by decide)
    detour_nonNegative detour_consistent

def islands : List (Call ℕ) :=
  [.addVertex 0, .addVertex 1]

theorem islands_nonNegative : LabelSetting.NonNegative (build islands).getWeight :=
  forall_weight (p := fun _ _ x => 0 ≤ x) (by decide +kernel)

theorem islands_consistent (g : ℕ) : ConsistentHeuristic (build islands) (fun _ _ => 0) g where
  goal := rfl
  nonNegative _ := le_refl 0
  consistent v w x hx := by
    rw [add_zero]
    exact islands_nonNegative v w x hx

theorem islands_unreachable : ¬ LabelSetting.Reachable (build islands).getWeight 0 1 := by
  rintro ⟨vs, l, hpath⟩
  cases hpath with
  | snoc _ hx =>
    exact forall_weight (p := fun _ _ _ => False) (by decide +kernel) _ _ _ hx

theorem islands_setting (g : ℕ × ℕ) (hg : g.1 ∈ (build islands).getVertexSet) :
    Setting detourVertices (build islands) (0, 0) g :=
  setting_of_build islands (by decide) hg islands_nonNegative

-- For s = g and for an unreachable g the links end in null before they reach the start.
theorem null_pointer_breaks_contract :
    LabelSetting.NonNegative (build islands).getWeight ∧
      (∀ g, ConsistentHeuristic (build islands) (fun _ _ => 0) g) ∧
      (∃ final, Returns (searchShortestPathMain detourVertices (build islands)
            (some fun _ _ => 0) (0, 0) (0, 0)) final ∧
          Returns (getShortestPath detourVertices final (0, 0) (0, 0)) (.error .nullPointer)) ∧
      ¬ KeepsContract detourVertices (build islands) (fun _ _ => 0) (0, 0) (0, 0) ∧
      ¬ LabelSetting.Reachable (build islands).getWeight 0 1 ∧
      (∃ final, Returns (searchShortestPathMain detourVertices (build islands)
            (some fun _ _ => 0) (0, 0) (1, 0)) final ∧
          Returns (getShortestPath detourVertices final (0, 0) (1, 0)) (.error .nullPointer) ∧
          getDistance detourVertices final (1, 0) = .ok 2147483647) ∧
      ¬ KeepsContract detourVertices (build islands) (fun _ _ => 0) (0, 0) (1, 0) := by
  have hstart := islands_setting (0, 0) (by decide)
  have hother := islands_setting (1, 0) (by decide)
  have hfar : ¬ Near (build islands) 0 1 := by
    rintro ⟨vs, l, hpath, -⟩
    exact islands_unreachable ⟨vs, l, hpath⟩
  refine ⟨islands_nonNegative, islands_consistent, ?_, ?_, islands_unreachable, ?_, ?_⟩
  · have hends : (searchShortestPathMain detourVertices (build islands)
        (some fun _ _ => 0) (0, 0) (0, 0) 1).isSome := by decide +kernel
    obtain ⟨final, hret⟩ := returns_of_isSome hends
    have hrun := run_of_returns hstart hret
    exact ⟨final, hret, nullPointer_of_unlinked (hrun.unlinked (g := (0, 0)) (Or.inl rfl))⟩
  · exact not_keepsContract hstart (Or.inl rfl)
  · have hends : (searchShortestPathMain detourVertices (build islands)
        (some fun _ _ => 0) (0, 0) (1, 0) 2).isSome := by decide +kernel
    obtain ⟨final, hret⟩ := returns_of_isSome hends
    have hrun := run_of_returns hother hret
    refine ⟨final, hret, nullPointer_of_unlinked (hrun.unlinked (g := (1, 0)) (Or.inr hfar)), ?_⟩
    rw [getDistance_eq hrun hother, hrun.dist_of_far (g := (1, 0)) hfar, maxValue]
  · exact not_keepsContract hother (Or.inr hfar)

end ObjectSearch

end ShortestPath
