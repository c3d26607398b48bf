import HTWGArchive.ShortestPath.AStar
import HTWGArchive.ShortestPath.ObjectSearch

open Std (TreeMap)
open AdjacencyListDirectedGraph

set_option linter.unusedSectionVars false

namespace ShortestPath

variable {V : Type} [LinearOrder V]

def pathLength (myGraph : AdjacencyListDirectedGraph V) : List V → Option ℚ
  | [] => none
  | [_] => some 0
  | v :: w :: vs => do
    let weight ← myGraph.getWeight v w
    let l ← pathLength myGraph (w :: vs)
    some (weight + l)

theorem pathLength_snoc {myGraph : AdjacencyListDirectedGraph V} (vs : List V) (v w : V) {l x : ℚ}
    (h : pathLength myGraph (vs ++ [v]) = some l) (hx : myGraph.getWeight v w = some x) :
    pathLength myGraph (vs ++ [v] ++ [w]) = some (l + x) := by
  induction vs generalizing l with
  | nil =>
    obtain rfl : 0 = l := Option.some.inj h
    simp [pathLength, hx]
  | cons u us ih =>
    obtain ⟨t, ts, hts⟩ := List.exists_cons_of_ne_nil (l := us ++ [v]) (by simp)
    rw [hts] at ih
    rw [List.cons_append, hts] at h ⊢
    simp only [List.cons_append, pathLength, Option.bind_eq_bind, Option.bind_eq_some_iff] at h ih ⊢
    obtain ⟨y, hy, m, hm, hl⟩ := h
    refine ⟨y, hy, m + x, ih hm, ?_⟩
    rw [← Option.some.inj hl, add_assoc]

theorem pathLength_of_path {myGraph : AdjacencyListDirectedGraph V} {s v : V} {vs : List V} {l : ℚ}
    (h : LabelSetting.Path myGraph.getWeight s vs v l) :
    pathLength myGraph (vs ++ [v]) = some l := by
  induction h with
  | nil => rfl
  | @snoc vs v l w x _ hx ih => exact pathLength_snoc vs v w ih hx

theorem edges_of_pathLength {myGraph : AdjacencyListDirectedGraph V} {vs : List V} {l : ℚ}
    (h : pathLength myGraph vs = some l) : vs.IsChain myGraph.Edge := by
  induction vs generalizing l with
  | nil => exact .nil
  | cons v vs ih =>
    cases vs with
    | nil => exact .singleton v
    | cons w ws =>
      simp only [pathLength, Option.bind_eq_bind, Option.bind_eq_some_iff] at h
      obtain ⟨x, hx, m, hm, -⟩ := h
      refine List.isChain_cons_cons.mpr ⟨?_, ih hm⟩
      rw [Edge, hx]
      rfl

-- Within reach of the search: a path whose length stays below Integer.MAX_VALUE.
def Near (myGraph : AdjacencyListDirectedGraph V) (s g : V) : Prop :=
  ∃ vs l, LabelSetting.Path myGraph.getWeight s vs g l ∧ l < maxValue

namespace ObjectSearch

variable {O : Type} [DecidableEq O] {objects : Vertices V O} {myGraph : AdjacencyListDirectedGraph V}
  {s g : O}

structure Setting (objects : Vertices V O) (myGraph : AdjacencyListDirectedGraph V) (s g : O) :
    Prop where
  wellFormed : WellFormed myGraph
  start : objects.value s ∈ myGraph.succ
  goal : objects.value g ∈ myGraph.succ
  nonNegative : LabelSetting.NonNegative myGraph.getWeight

structure Run (objects : Vertices V O) (myGraph : AdjacencyListDirectedGraph V) (s : O)
    (st : ObjectSearch V O) : Prop where
  labelled : LabelSetting.Labelled myGraph.getWeight (objects.value s) maxValue (distOf st.dist)
    (parent objects st)
  covers : Covers myGraph (values objects st)
  known : ∀ o ∈ st.kandidatenListe, objects.value o ∈ myGraph.succ
  references : References objects s st

theorem setting_of_build (calls : List (Call V))
    (hs : objects.value s ∈ (build calls).getVertexSet)
    (hg : objects.value g ∈ (build calls).getVertexSet)
    (hpos : LabelSetting.NonNegative (build calls).getWeight) :
    Setting objects (build calls) s g where
  wellFormed := wellFormed_build calls
  start := (mem_getVertexSet _ _).mp hs
  goal := (mem_getVertexSet _ _).mp hg
  nonNegative := hpos

theorem maxValue_pos : 0 < maxValue := by
  norm_num [maxValue]

theorem initial_pred (objects : Vertices V O) (myGraph : AdjacencyListDirectedGraph V) (s : O)
    (v : V) : ((initial objects myGraph s).pred[v]?).join = none := by
  rw [initial, getElem?_foldl_none]
  split <;> simp

theorem initial_label (objects : Vertices V O) (myGraph : AdjacencyListDirectedGraph V) (s : O) :
    label objects (initial objects myGraph s) =
      ShortestPath.label (ShortestPath.initial myGraph (objects.value s)) :=
  rfl

theorem initial_parent (objects : Vertices V O) (myGraph : AdjacencyListDirectedGraph V) (s : O)
    (v : V) : parent objects (initial objects myGraph s) v = none := by
  rw [parent, initial_pred]
  rfl

theorem initial_references (objects : Vertices V O) (myGraph : AdjacencyListDirectedGraph V)
    (s : O) : References objects s (initial objects myGraph s) where
  waiting o ho _ := List.mem_singleton.mp ho
  visited o ho := absurd ho List.not_mem_nil
  pred v o ho := by
    have hnone := initial_pred objects myGraph s v
    rw [ho] at hnone
    cases hnone

theorem Setting.initial (hp : Setting objects myGraph s g) :
    Run objects myGraph s (initial objects myGraph s) where
  labelled := by
    have hstarts := initial_starts myGraph (objects.value s)
    rw [← initial_label] at hstarts
    exact hstarts.labelled maxValue_pos (initial_parent objects myGraph s)
  covers := initial_covers myGraph (objects.value s)
  known o ho := by
    rw [List.mem_singleton.mp ho]
    exact hp.start
  references := initial_references objects myGraph s

variable {h : Option (V → V → ℚ)} {st st₁ : ObjectSearch V O} {u : O} {rest : List O}

theorem parents_set (objects : Vertices V O) (hst₁ : expand objects myGraph u rest st = some st₁) :
    LabelSetting.SetsParents (objects.value u) (label objects st).dist (label objects st₁).dist
      (parent objects st) (parent objects st₁) := by
  obtain ⟨-, hchanges⟩ := expand_updates hst₁
  intro v
  rcases hchanges v with ⟨hd, hp⟩ | ⟨hd, hp⟩
  · exact Or.inl ⟨hd, by rw [parent, parent, hp]⟩
  · exact Or.inr ⟨hd, by rw [parent, hp]; rfl⟩

theorem Run.next (hr : Run objects myGraph s st) (hp : Setting objects myGraph s g)
    (ht : takeCandidate objects h g st = some (u, rest)) :
    ∃ st₁, expand objects myGraph u rest st = some st₁ ∧ Run objects myGraph s st₁ ∧
      LabelSetting.Expands myGraph.getWeight maxValue (objects.value u) (label objects st)
        (label objects st₁) := by
  obtain ⟨hu, hrest, hperm⟩ := takeCandidate_perm ht
  obtain ⟨st₁, hst₁, hcov, hex⟩ :=
    expand_expands hp.wellFormed hp.nonNegative (hr.known u hu) hr.covers hperm
  refine ⟨st₁, hst₁, ⟨?_, hcov, ?_, ?_⟩, hex⟩
  · exact hr.labelled.expand hp.nonNegative maxValue_pos hex (parents_set objects hst₁)
  · obtain ⟨rest', news, hrest', hnews, -, hmem⟩ := hex.waiting
    intro o ho
    have hval : objects.value o ∈ (label objects st₁).waiting := List.mem_map_of_mem ho
    rcases List.mem_append.mp (hnews.mem_iff.mp hval) with hval | hval
    · have hold := hrest'.mem_iff.mpr (List.mem_cons_of_mem _ hval)
      obtain ⟨o', ho', heq⟩ := List.mem_map.mp hold
      rw [← heq]
      exact hr.known o' ho'
    · exact hp.wellFormed.targets _ _ ((hmem _).mp hval).2
  · apply hr.references.expand _ ht hst₁
    have hsource := hr.labelled.source
    rw [hsource]
    exact maxValue_pos

theorem Run.expand (hr : Run objects myGraph s st) (hp : Setting objects myGraph s g)
    (ht : takeCandidate objects h g st = some (u, rest))
    (hst₁ : expand objects myGraph u rest st = some st₁) :
    Run objects myGraph s st₁ ∧ LabelSetting.Expands myGraph.getWeight maxValue (objects.value u)
      (label objects st) (label objects st₁) := by
  obtain ⟨st', hst', hr', hex⟩ := hr.next hp ht
  obtain rfl := Option.some.inj (hst'.symm.trans hst₁)
  exact ⟨hr', hex⟩

theorem Run.take (hr : Run objects myGraph s st)
    (ht : takeCandidate objects h g st = some (u, rest)) :
    Run objects myGraph s { st with kandidatenListe := rest } where
  labelled := hr.labelled
  covers := hr.covers
  known o ho := hr.known o ((takeCandidate_perm ht).2.1 o ho)
  references :=
    ⟨fun o ho => hr.references.waiting o ((takeCandidate_perm ht).2.1 o ho),
      hr.references.visited, hr.references.pred⟩

theorem Run.loop (hp : Setting objects myGraph s g) (fuel : ℕ) (hr : Run objects myGraph s st)
    (hloop : loop objects myGraph h g fuel st = some st₁) : Run objects myGraph s st₁ := by
  induction fuel generalizing st with
  | zero => cases hloop
  | succ fuel ih =>
    rw [ObjectSearch.loop] at hloop
    split at hloop
    · obtain rfl := Option.some.inj hloop
      exact hr
    · obtain ⟨⟨u, rest⟩, ht, hloop⟩ := Option.bind_eq_some_iff.mp hloop
      dsimp only at hloop
      split at hloop
      · obtain rfl := Option.some.inj hloop
        exact hr.take ht
      · obtain ⟨st', hst', hloop⟩ := Option.bind_eq_some_iff.mp hloop
        exact ih (hr.expand hp ht hst').1 hloop

structure Sound (objects : Vertices V O) (myGraph : AdjacencyListDirectedGraph V) (s g : O)
    (st : ObjectSearch V O) : Prop where
  run : Run objects myGraph s st
  tree : LabelSetting.Tree myGraph.getWeight (objects.value s) maxValue (label objects st)
    (parent objects st)
  settled : LabelSetting.Settled myGraph.getWeight (objects.value s) (label objects st)
  open_goal : objects.value g ∉ (label objects st).done

-- What keeps every polled candidate labelled; without it a vertex could be polled at `maxValue`.
structure Guard (objects : Vertices V O) (myGraph : AdjacencyListDirectedGraph V)
    (estimatedCost : V → V → ℚ) (s g : O) (Q : ObjectSearch V O → Prop) : Prop where
  labelled : ∀ st u rest, Sound objects myGraph s g st → Q st →
    takeCandidate objects (some estimatedCost) g st = some (u, rest) →
    distOf st.dist (objects.value u) ≠ maxValue
  keeps : ∀ st st₁ u, Sound objects myGraph s g st → Q st →
    objects.value u ∈ (label objects st).waiting →
    LabelSetting.Expands myGraph.getWeight maxValue (objects.value u) (label objects st)
      (label objects st₁) → Q st₁

variable {estimatedCost : V → V → ℚ} {Q : ObjectSearch V O → Prop}

theorem Setting.sound (hp : Setting objects myGraph s g) :
    Sound objects myGraph s g (ObjectSearch.initial objects myGraph s) := by
  have hstarts := initial_starts myGraph (objects.value s)
  rw [← initial_label] at hstarts
  constructor
  · exact hp.initial
  · exact hstarts.tree maxValue_pos (initial_parent objects myGraph s)
  · exact hstarts.settled
  · rw [hstarts.done]
    exact List.not_mem_nil

theorem Sound.selected (hs : Sound objects myGraph s g st) (hp : Setting objects myGraph s g)
    (hcons : LabelSetting.Consistent myGraph.getWeight (estimatedCost · (objects.value g)))
    (ht : takeCandidate objects (some estimatedCost) g st = some (u, rest)) :
    LabelSetting.Shortest myGraph.getWeight (objects.value s) (objects.value u)
      (distOf st.dist (objects.value u)) :=
  hs.tree.selected hs.settled hp.nonNegative hcons (takeCandidate_selects ht)

theorem Sound.next (hs : Sound objects myGraph s g st) (hp : Setting objects myGraph s g)
    (hcons : LabelSetting.Consistent myGraph.getWeight (estimatedCost · (objects.value g)))
    (hu : distOf st.dist (objects.value u) ≠ maxValue)
    (ht : takeCandidate objects (some estimatedCost) g st = some (u, rest))
    (hug : objects.value u ≠ objects.value g) :
    ∃ st₁, ObjectSearch.expand objects myGraph u rest st = some st₁ ∧
      Sound objects myGraph s g st₁ ∧
      LabelSetting.Expands myGraph.getWeight maxValue (objects.value u) (label objects st)
        (label objects st₁) := by
  obtain ⟨st₁, hst₁, hrun, hex⟩ := hs.run.next hp ht
  have hpar := parents_set objects hst₁
  have hsh := hs.selected hp hcons ht
  refine ⟨st₁, hst₁, ⟨hrun, ?_, ?_, ?_⟩, hex⟩
  · exact hs.tree.expand hs.settled hp.nonNegative maxValue_pos hu hsh hex hpar
  · exact hs.tree.settled_expand hs.settled hu hsh hex hpar
  · rw [hex.done]
    intro hg
    rcases List.mem_append.mp hg with hg | hg
    · exact hs.open_goal hg
    · exact hug (List.mem_singleton.mp hg).symm

theorem Sound.waiting_ne (hs : Sound objects myGraph s g st) (hp : Setting objects myGraph s g)
    (hnear : Near myGraph (objects.value s) (objects.value g))
    (hcons : LabelSetting.Consistent myGraph.getWeight (estimatedCost · (objects.value g))) :
    st.kandidatenListe ≠ [] := by
  intro hnone
  obtain ⟨vs, l, hpath, hl⟩ := hnear
  rcases hs.tree.frontier hs.settled hp.nonNegative hcons hpath hl with hd | ⟨y, hy, -⟩
  · exact hs.open_goal hd
  · rw [label, hnone] at hy
    cases hy

def measure (objects : Vertices V O) (myGraph : AdjacencyListDirectedGraph V)
    (st : ObjectSearch V O) : ℕ × ℕ :=
  ((LabelSetting.unlabelled myGraph.vertices maxValue (label objects st)).card,
    LabelSetting.pending maxValue (label objects st))

theorem Sound.loop (hp : Setting objects myGraph s g)
    (hnear : Near myGraph (objects.value s) (objects.value g))
    (hcons : LabelSetting.Consistent myGraph.getWeight (estimatedCost · (objects.value g)))
    (hguard : Guard objects myGraph estimatedCost s g Q) (hs : Sound objects myGraph s g st)
    (hq : Q st) :
    ∃ last u rest, Sound objects myGraph s g last ∧ Q last ∧
      takeCandidate objects (some estimatedCost) g last = some (u, rest) ∧
      objects.value u = objects.value g ∧
      Returns (ObjectSearch.loop objects myGraph (some estimatedCost) g · st)
        { last with kandidatenListe := rest } := by
  have hwf : WellFounded (Prod.Lex (· < ·) (· < ·) : ℕ × ℕ → ℕ × ℕ → Prop) :=
    (Prod.lex Nat.lt_wfRel Nat.lt_wfRel).wf
  generalize hm : measure objects myGraph st = m
  induction m using hwf.induction generalizing st with
  | _ m ih =>
    have hne := hs.waiting_ne hp hnear hcons
    have hempty : st.kandidatenListe.isEmpty = false := by simpa using hne
    obtain ⟨u, rest, ht⟩ := takeCandidate_isSome objects (some estimatedCost) g hne
    by_cases hug : objects.value u = objects.value g
    · refine ⟨st, u, rest, hs, hq, ht, hug, 1, ?_⟩
      intro fuel hfuel
      cases fuel with
      | zero => omega
      | succ fuel => simp [ObjectSearch.loop, hempty, ht, hug]
    · have hu := hguard.labelled st u rest hs hq ht
      obtain ⟨st₁, hst₁, hs₁, hex⟩ := hs.next hp hcons hu ht hug
      have hwait : objects.value u ∈ (label objects st).waiting :=
        List.mem_map_of_mem (takeCandidate_perm ht).1
      have hverts : ∀ v w, (myGraph.getWeight v w).isSome → w ∈ myGraph.vertices := by
        intro v w hedge
        exact mem_vertices.mpr (hp.wellFormed.targets v w hedge)
      have hlt := hex.measure_lt hs.run.labelled.le_top hu hverts
      obtain ⟨last, o, rest', hlast, hqlast, hto, hog, n, hret⟩ :=
        ih (measure objects myGraph st₁) (hm ▸ hlt) hs₁ (hguard.keeps st st₁ u hs hq hwait hex) rfl
      refine ⟨last, o, rest', hlast, hqlast, hto, hog, n + 1, ?_⟩
      intro fuel hfuel
      cases fuel with
      | zero => omega
      | succ fuel =>
        have hrec := hret fuel (by omega)
        simpa [ObjectSearch.loop, hempty, ht, hug, hst₁] using hrec

theorem getDistance_eq (hr : Run objects myGraph s st) (hp : Setting objects myGraph s g) :
    getDistance objects st g = .ok (distOf st.dist (objects.value g)) := by
  have hmem : objects.value g ∈ st.dist := hr.covers _ hp.goal
  rw [getDistance, getElem?_eq_distOf hmem]

theorem collect_chain {weight : V → V → Option ℚ} (hr : References objects s st) {vs : List V}
    {v : V} {l : ℚ} (hc : LabelSetting.Chain weight (parent objects st) (objects.value s) vs v l)
    (hvs : vs ≠ []) (o : O) (ho : objects.value o = v) (acc : List O) :
    ∃ path, (∀ fuel, vs.length ≤ fuel →
        collect objects st.pred s fuel (some o) acc = some (.ok (path ++ acc.reverse))) ∧
      path.map objects.value = vs ++ [v] ∧ path.head? = some s ∧ path.getLast? = some o := by
  induction hc generalizing o acc with
  | nil => exact absurd rfl hvs
  | @snoc vs v l w x hc hx hpar hne ih =>
    have hpred : ∃ o', (st.pred[w]?).join = some o' ∧ objects.value o' = v :=
      Option.map_eq_some_iff.mp hpar
    obtain ⟨o', ho', hval⟩ := hpred
    have hvisited : o' ∈ st.besucht := hr.pred w o' (Option.join_eq_some_iff.mp ho')
    cases hc with
    | nil =>
      obtain rfl := hr.visited o' hvisited hval
      refine ⟨[o', o], ?_, by simp [ho], rfl, rfl⟩
      intro fuel hfuel
      cases fuel with
      | zero => simp at hfuel
      | succ fuel => simp [collect, ho, ho']
    | @snoc us u m _ y hc' hy hpar' hvs' =>
      obtain ⟨path, hpath, hmap, hhead, hlast⟩ :=
        ih (by simp) o' hval (acc ++ [o])
      have hos : o' ≠ s := by
        rintro rfl
        exact hvs' hval.symm
      refine ⟨path ++ [o], ?_, by simp [hmap, ho], ?_, by simp⟩
      · intro fuel hfuel
        rw [List.length_append, List.length_singleton] at hfuel
        cases fuel with
        | zero => omega
        | succ fuel =>
          have hrec := hpath fuel (by omega)
          simp only [collect, ho, ho', Option.some.injEq, if_neg hos, hrec]
          simp
      · rw [List.head?_append, hhead]
        rfl

theorem search_finds (hp : Setting objects myGraph s g)
    (hnear : Near myGraph (objects.value s) (objects.value g))
    (hcons : LabelSetting.Consistent myGraph.getWeight (estimatedCost · (objects.value g)))
    (hguard : Guard objects myGraph estimatedCost s g Q)
    (hq : Q (ObjectSearch.initial objects myGraph s)) :
    ∃ final d vs, Returns (searchShortestPathMain objects myGraph (some estimatedCost) s g) final ∧
      getDistance objects final g = .ok d ∧
      LabelSetting.Distance myGraph.getWeight (objects.value s) (objects.value g) d ∧
      LabelSetting.Chain myGraph.getWeight (parent objects final) (objects.value s) vs
        (objects.value g) d ∧
      (vs ++ [objects.value g]).Nodup ∧ References objects s final := by
  obtain ⟨last, u, rest, hlast, hqlast, ht, hug, hret⟩ :=
    hp.sound.loop hp hnear hcons hguard hq
  have hu := hguard.labelled last u rest hlast hqlast ht
  have hsh := hlast.selected hp hcons ht
  have hrun := hlast.run.take ht
  rw [hug] at hu hsh
  obtain ⟨vs, hc, hnd, -⟩ := hlast.tree.linked _ hu
  exact ⟨_, _, vs, hret, getDistance_eq hrun hp, ⟨⟨vs, hc.path⟩, hsh⟩, hc, hnd, hrun.references⟩

theorem getShortestPath_chain {vs : List V} {l : ℚ} (hr : References objects s st)
    (hc : LabelSetting.Chain myGraph.getWeight (parent objects st) (objects.value s) vs
      (objects.value g) l) (hne : objects.value s ≠ objects.value g) :
    ∃ path, Returns (getShortestPath objects st s g) (.ok path) ∧
      path.map objects.value = vs ++ [objects.value g] ∧ path.head? = some s ∧
      path.getLast? = some g := by
  have hvs : vs ≠ [] := by
    rintro rfl
    exact hne (hc.path.nil_inv.1).symm
  obtain ⟨path, hpath, hmap, hhead, hlast⟩ := collect_chain hr hc hvs g rfl []
  refine ⟨path, ⟨vs.length, ?_⟩, hmap, hhead, hlast⟩
  intro fuel hfuel
  simpa [getShortestPath] using hpath fuel hfuel

theorem guard_of_lengths
    (hlen : LabelSetting.LengthsBelow myGraph.getWeight (objects.value s) maxValue) :
    Guard objects myGraph estimatedCost s g
      fun st => ∀ y ∈ (label objects st).waiting, distOf st.dist y ≠ maxValue where
  labelled _ _ _ _ hq ht := hq _ (List.mem_map_of_mem (takeCandidate_perm ht).1)
  keeps _ _ _ hs hq hu hex := hs.tree.waiting_expand hlen hq hu hex

end ObjectSearch

theorem reconstructs_shortest_path {O : Type} [DecidableEq O] (calls : List (Call V))
    (objects : Vertices V O) (estimatedCost : V → V → ℚ) (s g : O)
    (hs : objects.value s ∈ (build calls).getVertexSet)
    (hg : objects.value g ∈ (build calls).getVertexSet)
    (hne : objects.value s ≠ objects.value g)
    (hpos : ∀ v w x, (build calls).getWeight v w = some x → 0 < x)
    (hlen : LabelSetting.LengthsBelow (build calls).getWeight (objects.value s) maxValue)
    (hcons : LabelSetting.Consistent (build calls).getWeight (estimatedCost · (objects.value g)))
    (hreach : LabelSetting.Reachable (build calls).getWeight (objects.value s) (objects.value g)) :
    ∃ final path d,
      Returns (ObjectSearch.searchShortestPathMain objects (build calls) (some estimatedCost) s g)
        final ∧
      Returns (ObjectSearch.getShortestPath objects final s g) (.ok path) ∧
      path.head? = some s ∧ path.getLast? = some g ∧ (path.map objects.value).Nodup ∧
      (path.map objects.value).IsChain (build calls).Edge ∧
      ObjectSearch.getDistance objects final g = .ok d ∧
      pathLength (build calls) (path.map objects.value) = some d ∧
      LabelSetting.Shortest (build calls).getWeight (objects.value s) (objects.value g) d := by
  have hp := ObjectSearch.setting_of_build calls hs hg fun v w x hx => (hpos v w x hx).le
  have hq : ∀ y ∈ (ObjectSearch.label objects
      (ObjectSearch.initial objects (build calls) s)).waiting,
      distOf (ObjectSearch.initial objects (build calls) s).dist y ≠ maxValue := by
    intro y hy
    have hstarts := initial_starts (build calls) (objects.value s)
    rw [← ObjectSearch.initial_label] at hstarts
    rw [hstarts.waiting, List.mem_singleton] at hy
    have hsource := hstarts.source
    rw [hy]
    exact (hsource.trans_lt ObjectSearch.maxValue_pos).ne
  obtain ⟨final, d, vs, hret, hget, hdist, hc, hnd, hrefs⟩ :=
    ObjectSearch.search_finds hp (hlen.reachable hreach) hcons
      (ObjectSearch.guard_of_lengths hlen) hq
  obtain ⟨path, hpath, hmap, hhead, hlast⟩ := ObjectSearch.getShortestPath_chain hrefs hc hne
  have hsum := pathLength_of_path hc.path
  rw [← hmap] at hsum hnd
  exact ⟨final, path, d, hret, hpath, hhead, hlast, hnd, edges_of_pathLength hsum, hget, hsum,
    hdist.2⟩

def detourVertices : Vertices ℕ (ℕ × ℕ) where
  value := Prod.fst
  key v w := (w, v + 1)
  value_key _ _ := rfl

theorem reconstructs_shortest_path_detour :
    ∃ final path d,
      Returns (ObjectSearch.searchShortestPathMain detourVertices (build detour)
        (some detourEstimate) (0, 0) (1, 0)) final ∧
      Returns (ObjectSearch.getShortestPath detourVertices final (0, 0) (1, 0)) (.ok path) ∧
      path.head? = some (0, 0) ∧ path.getLast? = some (1, 0) ∧
      (path.map detourVertices.value).Nodup ∧
      (path.map detourVertices.value).IsChain (build detour).Edge ∧
      ObjectSearch.getDistance detourVertices final (1, 0) = .ok d ∧
      pathLength (build detour) (path.map detourVertices.value) = some d ∧
      LabelSetting.Shortest (build detour).getWeight 0 1 d :=
  reconstructs_shortest_path detour detourVertices detourEstimate (0, 0) (1, 0) (by decide)
    (by decide) (by decide) (forall_weight (p := fun _ _ x => 0 < x) (by decide +kernel))
    detour_lengths
    (forall_weight (p := fun v w x => detourEstimate v 1 ≤ x + detourEstimate w 1)
      (by decide +kernel))
    ⟨[0], 0 + 10, LabelSetting.Path.nil.snoc (by decide +kernel)⟩

end ShortestPath
