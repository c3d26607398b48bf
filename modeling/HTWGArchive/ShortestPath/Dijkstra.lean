import HTWGArchive.ShortestPath.AStar

open AdjacencyListDirectedGraph

namespace ShortestPath

variable {V : Type} [LinearOrder V]

def TakesLeast (myGraph : AdjacencyListDirectedGraph V) (s g : V) : Prop :=
  ∀ st u rest, Reached myGraph none s g st → takeCandidate none g st = some (u, rest) →
    ∀ y ∈ st.kandidatenListe, distOf st.dist u ≤ distOf st.dist y

def TakesInOrder (myGraph : AdjacencyListDirectedGraph V) (s g : V) (vs : List V) : Prop :=
  ∀ st u rest, Reached myGraph none s g st → takeCandidate none g st = some (u, rest) →
    ∀ i : ℕ, (vs ++ [g])[i + 1]? = some u → ∃ v, (vs ++ [g])[i]? = some v ∧ v ∈ st.besucht

omit [LinearOrder V] in
theorem before_of_sublist {as bs vs : List V} {u : V} {i : ℕ} (hnd : (as ++ u :: bs).Nodup)
    (hsub : vs.Sublist (as ++ u :: bs)) (hi : vs[i + 1]? = some u) :
    ∃ v, vs[i]? = some v ∧ v ∈ as := by
  obtain ⟨xs, ys, rfl, hxs, hys⟩ := List.sublist_append_iff.mp hsub
  obtain ⟨-, hub, hdis⟩ := List.nodup_append.mp hnd
  have hua : u ∉ as := fun hm => hdis u hm u List.mem_cons_self rfl
  have hlen : xs.length ≤ i + 1 := by
    by_contra hlt
    rw [List.getElem?_append_left (by omega)] at hi
    exact hua (hxs.subset (List.mem_of_getElem? hi))
  rw [List.getElem?_append_right hlen] at hi
  have hzero : i + 1 - xs.length = 0 := by
    cases hn : i + 1 - xs.length with
    | zero => rfl
    | succ n =>
      rw [hn] at hi
      have htail : ys.tail.Sublist bs := hys.tail
      rw [← List.getElem?_tail] at hi
      exact absurd (htail.subset (List.mem_of_getElem? hi)) (List.nodup_cons.mp hub).1
  have hix : i < xs.length := by omega
  refine ⟨xs[i], ?_, hxs.subset (List.getElem_mem hix)⟩
  rw [List.getElem?_append_left hix, List.getElem?_eq_getElem hix]

section Order

variable {myGraph : AdjacencyListDirectedGraph V} {s g : V} {st last final : Search V}

theorem step_unique (h : Option (V → V → ℚ)) :
    Relator.RightUnique (Step myGraph h g) := by
  rintro a b c ⟨u, rest, ht, -, hb⟩ ⟨u', rest', ht', -, hc⟩
  obtain ⟨rfl, rfl⟩ := Prod.mk.inj (Option.some.inj (ht.symm.trans ht'))
  exact Option.some.inj (hb.symm.trans hc)

theorem Ends.no_step {h : Option (V → V → ℚ)} (he : Ends h g last final) {st : Search V}
    (hstep : Step myGraph h g last st) : False := by
  obtain ⟨u, rest, ht, hug, -⟩ := hstep
  rcases he.stops with hk | ⟨rest', ht'⟩
  · have hperm := takeCandidate_perm ht
    rw [hk] at hperm
    exact absurd hperm.length_eq (by simp)
  · exact hug (Prod.mk.inj (Option.some.inj (ht.symm.trans ht'))).1

theorem Ends.steps_to_last {h : Option (V → V → ℚ)} (he : Ends h g last final)
    (hlast : Reached myGraph h s g last) (hst : Reached myGraph h s g st) :
    Relation.ReflTransGen (Step myGraph h g) st last := by
  rcases Relation.ReflTransGen.total_of_right_unique (step_unique h) hst hlast with hto | hfrom
  · exact hto
  · rcases hfrom.cases_head with rfl | ⟨c, hstep, -⟩
    · exact .refl
    · exact (he.no_step hstep).elim

theorem besucht_prefix (hp : Problem myGraph s g) (hs : Searching myGraph s g st)
    (h : Option (V → V → ℚ)) {st' : Search V}
    (hsteps : Relation.ReflTransGen (Step myGraph h g) st st') : st.besucht <+: st'.besucht := by
  have hboth : Searching myGraph s g st' ∧ st.besucht <+: st'.besucht := by
    induction hsteps with
    | refl => exact ⟨hs, List.prefix_refl _⟩
    | tail _ hstep ih =>
      obtain ⟨hs', u, rest, -, hex⟩ := ih.1.step hp hstep
      have hdone := hex.done
      exact ⟨hs', ih.2.trans ⟨[u], hdone.symm⟩⟩
  exact hboth.2

theorem takesInOrder_of_sublist (hp : Problem myGraph s g) (he : Ends none g last final)
    (hlast : Reached myGraph none s g last) {vs : List V} (hsub : vs.Sublist last.besucht) :
    TakesInOrder myGraph s g vs := by
  intro st u rest hst ht i hi
  have hs := Reached.searching hp hst
  have hslast := Reached.searching hp hlast
  have hsteps := he.steps_to_last hlast hst
  have hgvs : g ∉ vs := fun hm => hslast.open_goal (hsub.subset hm)
  rcases hsteps.cases_head with rfl | ⟨st', hstep, hrest⟩
  · have hug : u = g := by
      rcases he.stops with hk | ⟨rest', ht'⟩
      · have hperm := takeCandidate_perm ht
        rw [hk] at hperm
        exact absurd hperm.length_eq (by simp)
      · exact (Prod.mk.inj (Option.some.inj (ht.symm.trans ht'))).1
    subst hug
    have hlen : i + 1 < (vs ++ [u]).length := (List.getElem?_eq_some_iff.mp hi).1
    rw [List.length_append, List.length_singleton] at hlen
    have hiv : i < vs.length := by omega
    refine ⟨vs[i], ?_, hsub.subset (List.getElem_mem hiv)⟩
    rw [List.getElem?_append_left hiv, List.getElem?_eq_getElem hiv]
  · obtain ⟨hs', u', rest', ht', hex⟩ := hs.step hp hstep
    obtain ⟨rfl, rfl⟩ := Prod.mk.inj (Option.some.inj (ht.symm.trans ht'))
    have hug : u ≠ g := by
      rintro rfl
      apply hs'.open_goal
      have hdone : st'.besucht = st.besucht ++ [u] := hex.done
      rw [hdone]
      simp
    have hdone : st'.besucht = st.besucht ++ [u] := hex.done
    obtain ⟨bs, hbs⟩ := besucht_prefix hp hs' none hrest
    have hsplit : last.besucht = st.besucht ++ u :: bs := by
      rw [← hbs, hdone, List.append_assoc, List.singleton_append]
    have hnd : (st.besucht ++ u :: bs).Nodup := by
      rw [← hsplit]
      exact (List.nodup_append.mp hslast.inv.nodup).1
    have hivs : i + 1 < vs.length := by
      by_contra hge
      rw [List.getElem?_append_right (by omega)] at hi
      exact hug (List.mem_singleton.mp (List.mem_of_getElem? hi))
    rw [List.getElem?_append_left hivs] at hi
    obtain ⟨v, hv, hmem⟩ := before_of_sublist hnd (hsplit ▸ hsub) hi
    refine ⟨v, ?_, hmem⟩
    rw [List.getElem?_append_left (by omega), hv]

theorem take_sublist (hp : Problem myGraph s g) {vs : List V}
    (horder : TakesInOrder myGraph s g vs) (hst : Reached myGraph none s g st) :
    ∀ (j : ℕ) (v : V), vs[j]? = some v → v ∈ st.besucht → (vs.take (j + 1)).Sublist st.besucht := by
  induction hst with
  | refl =>
    intro j v _ hv
    cases hv
  | tail hreach hstep ih =>
    intro j v hj hv
    obtain ⟨-, u, rest, ht, hex⟩ := (Reached.searching hp hreach).step hp hstep
    have hdone := hex.done
    simp only [label] at hdone
    rw [hdone] at hv ⊢
    rcases List.mem_append.mp hv with hv | hv
    · exact (ih j v hj hv).trans (List.sublist_append_left _ _)
    · obtain rfl : v = u := List.mem_singleton.mp hv
      rw [List.take_add_one, hj]
      refine List.Sublist.append ?_ (List.Sublist.refl _)
      cases j with
      | zero => exact List.nil_sublist _
      | succ i =>
        have hlen := (List.getElem?_eq_some_iff.mp hj).1
        obtain ⟨w, hw, hmem⟩ := horder _ v rest hreach ht i
          (by rw [List.getElem?_append_left hlen, hj])
        rw [List.getElem?_append_left (by omega)] at hw
        exact ih i w hw hmem

theorem sublist_of_takesInOrder (hp : Problem myGraph s g) {vs rest : List V}
    (horder : TakesInOrder myGraph s g vs) (hlast : Reached myGraph none s g last)
    (ht : takeCandidate none g last = some (g, rest)) : vs.Sublist last.besucht := by
  cases hlen : vs.length with
  | zero =>
    rw [List.length_eq_zero_iff.mp hlen]
    exact List.nil_sublist _
  | succ i =>
    obtain ⟨v, hv, hmem⟩ := horder last g rest hlast ht i
      (by rw [List.getElem?_append_right (by omega), hlen, Nat.sub_self]; rfl)
    rw [List.getElem?_append_left (by omega)] at hv
    have htake := take_sublist hp horder hlast i v hv hmem
    rwa [← hlen, List.take_length] at htake

end Order

theorem dijkstra_exact_iff (calls : List (Call V)) (s g : V)
    (hs : s ∈ (build calls).getVertexSet) (hg : g ∈ (build calls).getVertexSet)
    (hpos : LabelSetting.NonNegative (build calls).getWeight)
    (hlen : LabelSetting.LengthsBelow (build calls).getWeight s maxValue) :
    ∃ final, searchShortestPathMain (build calls) none s g = some final ∧
      (ReturnsDistance (build calls) s g final ↔
        ¬ LabelSetting.Reachable (build calls).getWeight s g ∨
          ∃ vs l, LabelSetting.Path (build calls).getWeight s vs g l ∧
            LabelSetting.Shortest (build calls).getWeight s g l ∧
            TakesInOrder (build calls) s g vs) ∧
      (TakesLeast (build calls) s g → ReturnsDistance (build calls) s g final) := by
  have hp := problem_of_build calls hs hg hpos hlen
  obtain ⟨final, last, hfinal, hlast, hends⟩ := search_ends hp none
  have hsearch := Reached.searching hp hlast
  refine ⟨final, hfinal, ?_, ?_⟩
  · rw [hends.returnsDistance_iff hp hsearch]
    by_cases hreach : LabelSetting.Reachable (build calls).getWeight s g
    · obtain ⟨rest, ht⟩ := hends.taken hp hsearch hreach
      have hne := hsearch.inv.discovered_waiting (hsearch.candidate hp ht).1
      refine or_congr_right ((hsearch.inv.distance_iff hne).trans ?_)
      constructor
      · rintro ⟨vs, l, hpath, hshort, hsub⟩
        exact ⟨vs, l, hpath, hshort, takesInOrder_of_sublist hp hends hlast hsub⟩
      · rintro ⟨vs, l, hpath, hshort, horder⟩
        exact ⟨vs, l, hpath, hshort, sublist_of_takesInOrder hp horder hlast ht⟩
    · exact iff_of_true (Or.inl hreach) (Or.inl hreach)
  · intro hleast
    rw [hends.returnsDistance_iff hp hsearch]
    by_cases hreach : LabelSetting.Reachable (build calls).getWeight s g
    · obtain ⟨rest, ht⟩ := hends.taken hp hsearch hreach
      refine Or.inr (hlast.goal_distance hp (f := fun _ => 0) ?_ ?_ ht)
      · intro v w x hx
        rw [add_zero]
        exact hpos v w x hx
      · intro st u rest hst hu y hy
        have hle := hleast st u rest hst hu y hy
        simpa [label] using hle
    · exact Or.inl hreach

theorem dijkstra_exact_iff_detour :
    ∃ final, searchShortestPathMain (build detour) none 0 1 = some final ∧
      (ReturnsDistance (build detour) 0 1 final ↔
        ¬ LabelSetting.Reachable (build detour).getWeight 0 1 ∨
          ∃ vs l, LabelSetting.Path (build detour).getWeight 0 vs 1 l ∧
            LabelSetting.Shortest (build detour).getWeight 0 1 l ∧
            TakesInOrder (build detour) 0 1 vs) ∧
      (TakesLeast (build detour) 0 1 → ReturnsDistance (build detour) 0 1 final) :=
  dijkstra_exact_iff detour 0 1 (by decide) (by decide) detour_nonNegative detour_lengths

-- 1 and 2 are appended while their distance is still the maximum, in this order, and 1 is
-- polled with its distance 10 although 2 waits with distance 1.
theorem stale_heap_order :
    LabelSetting.NonNegative (build detour).getWeight ∧
      LabelSetting.LengthsBelow (build detour).getWeight 0 maxValue ∧
      ∃ final, searchShortestPathMain (build detour) none 0 1 = some final ∧
        getDistance final 1 = some 10 ∧
        LabelSetting.Path (build detour).getWeight 0 [0, 2] 1 2 ∧
        ¬ ReturnsDistance (build detour) 0 1 final := by
  refine ⟨detour_nonNegative, detour_lengths, ?_⟩
  have hres : (searchShortestPathMain (build detour) none 0 1).bind (getDistance · 1) =
      some 10 := by decide +kernel
  obtain ⟨final, hfinal, hget⟩ := Option.bind_eq_some_iff.mp hres
  have h02 : (build detour).getWeight 0 2 = some 1 := by decide +kernel
  have h21 : (build detour).getWeight 2 1 = some 1 := by decide +kernel
  have hpath : LabelSetting.Path (build detour).getWeight 0 [0, 2] 1 2 := by
    have hnil : LabelSetting.Path (build detour).getWeight 0 [] 0 (0 : ℚ) := LabelSetting.Path.nil
    have h := hnil.snoc h02
    have h' := h.snoc h21
    norm_num at h'
    exact h'
  refine ⟨final, hfinal, hget, hpath, ?_⟩
  rintro ⟨d, hd, hdist | hmax⟩
  · obtain rfl : 10 = d := Option.some.inj (hget.symm.trans hd)
    have hle := hdist.2 [0, 2] 2 hpath
    norm_num at hle
  · exact hmax.1 ⟨[0, 2], 2, hpath⟩

end ShortestPath
