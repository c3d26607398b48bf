import HTWGArchive.Library.PredecessorTree
import HTWGArchive.Library.Refinement
import HTWGArchive.ShortestPath.Search

open Std (TreeMap)
open AdjacencyListDirectedGraph

set_option linter.unusedSectionVars false

namespace ShortestPath

-- `==` compares the objects themselves, `equals` and `compareTo` compare their values.
-- `key v w` is the key of w in the map `succ.get(v)`.
structure Vertices (V O : Type) where
  value : O → V
  key : V → V → O
  value_key : ∀ v w, value (key v w) = w

structure ObjectSearch (V O : Type) [LinearOrder V] where
  dist : TreeMap V ℚ
  pred : TreeMap V (Option O)
  kandidatenListe : List O
  besucht : List O

inductive Thrown where
  | nullPointer
  | illegalArgument
  deriving DecidableEq, Repr

def Returns {α : Type} (run : ℕ → Option α) (a : α) : Prop :=
  ∃ n, ∀ fuel, n ≤ fuel → run fuel = some a

namespace ObjectSearch

variable {V O : Type} [LinearOrder V] [DecidableEq O]

section Source

variable (objects : Vertices V O)

def less (dist : TreeMap V ℚ) (a b : O) : Bool :=
  ShortestPath.less dist (objects.value a) (objects.value b)

-- `indexOf` asks `equals`, `removeAt` asks `==`.
def remove (dist : TreeMap V ℚ) (es : List O) (x : O) : List O :=
  match es.findIdx? fun o => objects.value o = objects.value x with
  | none => es
  | some i => PriorityQueue.removeAt (less objects dist) es i

def takeCandidate (h : Option (V → V → ℚ)) (g : O) (st : ObjectSearch V O) :
    Option (O × List O) :=
  match h with
  | some estimatedCost => do
    let min ← streamMin
      (fun o => distOf st.dist (objects.value o) +
        estimatedCost (objects.value o) (objects.value g)) st.kandidatenListe
    some (min, remove objects st.dist st.kandidatenListe min)
  | none => PriorityQueue.poll (less objects st.dist) st.kandidatenListe

def enqueue (dw : ℚ) (st : ObjectSearch V O) (w : O) : ObjectSearch V O :=
  if dw = maxValue then
    { st with kandidatenListe := PriorityQueue.add (less objects st.dist) st.kandidatenListe w }
  else st

def relax (myGraph : AdjacencyListDirectedGraph V) (min : O) (st : ObjectSearch V O) (w : O) :
    Option (ObjectSearch V O) := do
  let dw ← st.dist[objects.value w]?
  let st := enqueue objects dw st w
  let dmin ← st.dist[objects.value min]?
  let weight ← myGraph.getWeight (objects.value min) (objects.value w)
  if dmin + weight < dw then
    some { st with
      pred := st.pred.insert (objects.value w) (some min)
      dist := st.dist.insert (objects.value w) (dmin + weight) }
  else some st

def getSuccessorVertexSet (myGraph : AdjacencyListDirectedGraph V) (v : O) : Option (List O) :=
  (myGraph.getSuccessorVertexSet (objects.value v)).map
    (·.map (objects.key (objects.value v)))

def expand (myGraph : AdjacencyListDirectedGraph V) (min : O) (rest : List O)
    (st : ObjectSearch V O) : Option (ObjectSearch V O) := do
  let ws ← getSuccessorVertexSet objects myGraph min
  ws.foldlM (relax objects myGraph min)
    { st with kandidatenListe := rest, besucht := st.besucht ++ [min] }

def loop (myGraph : AdjacencyListDirectedGraph V) (h : Option (V → V → ℚ)) (g : O) :
    ℕ → ObjectSearch V O → Option (ObjectSearch V O)
  | 0, _ => none
  | fuel + 1, st =>
    if st.kandidatenListe.isEmpty then some st
    else do
      let (min, rest) ← takeCandidate objects h g st
      if objects.value min = objects.value g then some { st with kandidatenListe := rest }
      else do
        let st' ← expand objects myGraph min rest st
        loop myGraph h g fuel st'

def initial (myGraph : AdjacencyListDirectedGraph V) (s : O) : ObjectSearch V O where
  dist := initialDist myGraph (objects.value s)
  pred := myGraph.getVertexSet.foldl (fun (pred : TreeMap V (Option O)) v => pred.insert v none) {}
  kandidatenListe :=
    PriorityQueue.add (less objects (initialDist myGraph (objects.value s))) [] s
  besucht := []

def searchShortestPathMain (myGraph : AdjacencyListDirectedGraph V) (h : Option (V → V → ℚ))
    (s g : O) (fuel : ℕ) : Option (ObjectSearch V O) :=
  loop objects myGraph h g fuel (initial objects myGraph s)

-- The do-while loop of `getShortestPath`; `none` is null, for which `pred.get` throws.
def collect (pred : TreeMap V (Option O)) (start : O) :
    ℕ → Option O → List O → Option (Except Thrown (List O))
  | 0, _, _ => none
  | _ + 1, none, _ => some (.error .nullPointer)
  | fuel + 1, some next, shortestPath =>
    let shortestPath := shortestPath ++ [next]
    let next := (pred[objects.value next]?).join
    if next = some start then some (.ok (shortestPath ++ [start]).reverse)
    else collect pred start fuel next shortestPath

def getShortestPath (st : ObjectSearch V O) (start g : O) (fuel : ℕ) :
    Option (Except Thrown (List O)) :=
  collect objects st.pred start fuel (some g) []

def getDistance (st : ObjectSearch V O) (g : O) : Except Thrown ℚ :=
  match st.dist[objects.value g]? with
  | some d => .ok d
  | none => .error .nullPointer

end Source

def label (objects : Vertices V O) (st : ObjectSearch V O) : LabelSetting.State V ℚ where
  dist := distOf st.dist
  done := st.besucht.map objects.value
  waiting := st.kandidatenListe.map objects.value

def parent (objects : Vertices V O) (st : ObjectSearch V O) (v : V) : Option V :=
  (st.pred[v]?).join.map objects.value

variable {objects : Vertices V O} {myGraph : AdjacencyListDirectedGraph V}

theorem getElem?_foldl_none {β : Type} (vs : List V) (pred : TreeMap V (Option β)) (v : V) :
    (vs.foldl (fun (pred : TreeMap V (Option β)) v => pred.insert v none) pred)[v]? =
      if v ∈ vs then some none else pred[v]? := by
  induction vs generalizing pred with
  | nil => simp
  | cons w vs ih =>
    rw [List.foldl_cons, ih, getElem?_insert_eq]
    by_cases hv : v ∈ vs
    · simp [hv]
    · simp [hv, eq_comm]

section Values

structure Shows (objects : Vertices V O) (st : ObjectSearch V O) (st' : Search V) : Prop where
  dist : st'.dist = st.dist
  pred : ∀ v : V, st'.pred[v]? = (st.pred[v]?).map (·.map objects.value)
  kandidatenListe : st'.kandidatenListe = st.kandidatenListe.map objects.value
  besucht : st'.besucht = st.besucht.map objects.value

def values (objects : Vertices V O) (st : ObjectSearch V O) : Search V where
  dist := st.dist
  pred := st.pred.map fun _ o => o.map objects.value
  kandidatenListe := st.kandidatenListe.map objects.value
  besucht := st.besucht.map objects.value

variable {st : ObjectSearch V O} {st' : Search V}

theorem shows_values (objects : Vertices V O) (st : ObjectSearch V O) :
    Shows objects st (values objects st) where
  dist := rfl
  pred v := by simp [values, TreeMap.getElem?_map]
  kandidatenListe := rfl
  besucht := rfl

theorem Shows.label (h : Shows objects st st') :
    ShortestPath.label st' = label objects st := by
  simp [ShortestPath.label, ObjectSearch.label, h.dist, h.kandidatenListe, h.besucht]

theorem Shows.enqueue (h : Shows objects st st') (dw : ℚ) (w : O) :
    Shows objects (enqueue objects dw st w) (ShortestPath.enqueue dw st' (objects.value w)) := by
  unfold ObjectSearch.enqueue ShortestPath.enqueue
  split
  · refine ⟨h.dist, h.pred, ?_, h.besucht⟩
    simp only [h.dist, h.kandidatenListe]
    exact (PriorityQueue.add_map _ _ _ _).symm
  · exact h

theorem Shows.relax (myGraph : AdjacencyListDirectedGraph V) (h : Shows objects st st') (u w : O) :
    Option.Rel (Shows objects) (relax objects myGraph u st w)
      (ShortestPath.relax myGraph (objects.value u) st' (objects.value w)) := by
  unfold ObjectSearch.relax ShortestPath.relax
  simp only [h.dist, (h.enqueue _ w).dist, Option.bind_eq_bind]
  cases st.dist[objects.value w]? with
  | none => exact .none
  | some dw =>
    have hq := h.enqueue dw w
    simp only [Option.bind_some]
    cases (ObjectSearch.enqueue objects dw st w).dist[objects.value u]? with
    | none => exact .none
    | some dmin =>
      cases myGraph.getWeight (objects.value u) (objects.value w) with
      | none => exact .none
      | some x =>
        simp only [Option.bind_some]
        split
        · refine .some ⟨rfl, ?_, hq.kandidatenListe, hq.besucht⟩
          intro v
          rw [getElem?_insert_eq, getElem?_insert_eq]
          split
          · rfl
          · exact hq.pred v
        · exact .some hq

theorem Shows.expand (myGraph : AdjacencyListDirectedGraph V) (h : Shows objects st st') (u : O)
    (rest : List O) :
    Option.Rel (Shows objects) (expand objects myGraph u rest st)
      (ShortestPath.expand myGraph (objects.value u) (rest.map objects.value) st') := by
  unfold ObjectSearch.expand ShortestPath.expand getSuccessorVertexSet
  simp only [Option.bind_eq_bind]
  cases myGraph.getSuccessorVertexSet (objects.value u) with
  | none => exact .none
  | some ws =>
    simp only [Option.map_some, Option.bind_some, List.foldlM_map]
    apply Refinement.foldlM_rel
    · intro a b w hab
      have hw := hab.relax myGraph u (objects.key (objects.value u) w)
      rwa [objects.value_key] at hw
    · refine ⟨h.dist, h.pred, rfl, ?_⟩
      simp only [h.besucht, List.map_append, List.map_cons, List.map_nil]

theorem expand_expands (hg : WellFormed myGraph)
    (hpos : LabelSetting.NonNegative myGraph.getWeight) {u : O} (hu : objects.value u ∈ myGraph.succ)
    {rest : List O} (hcov : Covers myGraph (values objects st))
    (hrest : (st.kandidatenListe.map objects.value).Perm
      (objects.value u :: rest.map objects.value)) :
    ∃ st₁, expand objects myGraph u rest st = some st₁ ∧ Covers myGraph (values objects st₁) ∧
      LabelSetting.Expands myGraph.getWeight maxValue (objects.value u) (label objects st)
        (label objects st₁) := by
  obtain ⟨st', hst', hcov', hex⟩ := expand_eq hg hpos hu hcov hrest
  have hrel := (shows_values objects st).expand myGraph u rest
  rw [hst'] at hrel
  obtain ⟨st₁, hst₁, hshows⟩ := Refinement.rel_some hrel
  refine ⟨st₁, hst₁, ?_, ?_⟩
  · intro v hv
    have hmem := hcov' v hv
    rwa [hshows.dist] at hmem
  · rw [(shows_values objects st).label, hshows.label] at hex
    exact hex

end Values

section Updates

structure Updates (u : O) (st st' : ObjectSearch V O) : Prop where
  besucht : st'.besucht = st.besucht
  changes : ∀ v : V, distOf st'.dist v = distOf st.dist v ∧ st'.pred[v]? = st.pred[v]? ∨
    distOf st'.dist v < distOf st.dist v ∧ st'.pred[v]? = some (some u)

variable {st st₁ st₂ : ObjectSearch V O} {u w : O}

theorem Updates.refl (u : O) (st : ObjectSearch V O) : Updates u st st where
  besucht := rfl
  changes _ := Or.inl ⟨rfl, rfl⟩

theorem Updates.trans (h : Updates u st st₁) (h' : Updates u st₁ st₂) : Updates u st st₂ where
  besucht := h'.besucht.trans h.besucht
  changes v := by
    rcases h.changes v with ⟨hd, hp⟩ | ⟨hd, hp⟩
    · rw [← hd, ← hp]
      exact h'.changes v
    · rcases h'.changes v with ⟨hd', hp'⟩ | ⟨hd', hp'⟩
      · exact Or.inr ⟨hd' ▸ hd, hp'.trans hp⟩
      · exact Or.inr ⟨hd'.trans hd, hp'⟩

theorem enqueue_keeps (objects : Vertices V O) (dw : ℚ) (st : ObjectSearch V O) (w : O) :
    (enqueue objects dw st w).dist = st.dist ∧ (enqueue objects dw st w).pred = st.pred ∧
      (enqueue objects dw st w).besucht = st.besucht := by
  unfold enqueue
  split <;> exact ⟨rfl, rfl, rfl⟩

theorem relax_cases (h : relax objects myGraph u st w = some st₁) :
    ∃ dw, st.dist[objects.value w]? = some dw ∧
      st₁.kandidatenListe = (enqueue objects dw st w).kandidatenListe ∧ Updates u st st₁ := by
  unfold relax at h
  simp only [Option.bind_eq_bind, Option.bind_eq_some_iff] at h
  obtain ⟨dw, hdw, dmin, -, x, -, h⟩ := h
  obtain ⟨hdist, hpred, hb⟩ := enqueue_keeps objects dw st w
  refine ⟨dw, hdw, ?_⟩
  split at h
  · rename_i hlt
    obtain rfl := Option.some.inj h
    refine ⟨rfl, hb, ?_⟩
    intro v
    simp only [hdist, hpred, distOf_insert, getElem?_insert_eq]
    split
    · rename_i hv
      subst hv
      have hold : distOf st.dist (objects.value w) = dw := by
        rw [distOf, TreeMap.getD_eq_getD_getElem?, hdw]
        rfl
      exact Or.inr ⟨hold ▸ hlt, rfl⟩
    · exact Or.inl ⟨rfl, rfl⟩
  · obtain rfl := Option.some.inj h
    refine ⟨rfl, hb, ?_⟩
    intro v
    rw [hdist, hpred]
    exact Or.inl ⟨rfl, rfl⟩

theorem enqueue_mem {dw : ℚ} {o : O} (ho : o ∈ (enqueue objects dw st w).kandidatenListe) :
    o ∈ st.kandidatenListe ∨ o = w ∧ dw = maxValue := by
  unfold enqueue at ho
  split at ho
  · rename_i hdw
    have hperm := PriorityQueue.add_perm (less objects st.dist) st.kandidatenListe w
    rcases List.mem_append.mp (hperm.mem_iff.mp ho) with ho | ho
    · exact Or.inl ho
    · exact Or.inr ⟨List.mem_singleton.mp ho, hdw⟩
  · exact Or.inl ho

theorem expand_updates {rest : List O} (h : expand objects myGraph u rest st = some st₁) :
    st₁.besucht = st.besucht ++ [u] ∧
      ∀ v : V, distOf st₁.dist v = distOf st.dist v ∧ st₁.pred[v]? = st.pred[v]? ∨
        distOf st₁.dist v < distOf st.dist v ∧ st₁.pred[v]? = some (some u) := by
  unfold expand at h
  obtain ⟨ws, -, h⟩ := Option.bind_eq_some_iff.mp h
  have hup : Updates u { st with kandidatenListe := rest, besucht := st.besucht ++ [u] } st₁ := by
    refine Refinement.foldlM_inv ?_ h (Updates.refl u _)
    intro a w b hrelax hinv
    obtain ⟨-, -, -, hab⟩ := relax_cases hrelax
    exact hinv.trans hab
  exact ⟨hup.besucht, hup.changes⟩

end Updates

section References

-- The only object with the value of s that the search ever holds is s itself.
structure References (objects : Vertices V O) (s : O) (st : ObjectSearch V O) : Prop where
  waiting : ∀ o ∈ st.kandidatenListe, objects.value o = objects.value s → o = s
  visited : ∀ o ∈ st.besucht, objects.value o = objects.value s → o = s
  pred : ∀ (v : V) o, st.pred[v]? = some (some o) → o ∈ st.besucht

variable {h : Option (V → V → ℚ)} {s g u : O} {rest : List O} {st st₁ : ObjectSearch V O}

structure Alone (objects : Vertices V O) (s : O) (st : ObjectSearch V O) : Prop where
  labelled : distOf st.dist (objects.value s) < maxValue
  waiting : ∀ o ∈ st.kandidatenListe, objects.value o = objects.value s → o = s

theorem Alone.relax {w : O} (ha : Alone objects s st)
    (h : relax objects myGraph u st w = some st₁) : Alone objects s st₁ := by
  obtain ⟨dw, hdw, hk, hup⟩ := relax_cases h
  have hlt := ha.labelled
  constructor
  · rcases hup.changes (objects.value s) with ⟨hd, -⟩ | ⟨hd, -⟩
    · rw [hd]
      exact hlt
    · exact hd.trans hlt
  · intro o ho hval
    rw [hk] at ho
    rcases enqueue_mem ho with ho | ⟨rfl, rfl⟩
    · exact ha.waiting o ho hval
    · rw [hval] at hdw
      rw [distOf, TreeMap.getD_eq_getD_getElem?, hdw] at hlt
      exact absurd hlt (lt_irrefl _)

theorem Alone.expand (ha : Alone objects s { st with kandidatenListe := rest })
    (h : expand objects myGraph u rest st = some st₁) : Alone objects s st₁ := by
  unfold ObjectSearch.expand at h
  obtain ⟨ws, -, h⟩ := Option.bind_eq_some_iff.mp h
  exact Refinement.foldlM_inv (fun _ _ _ hrelax hinv => hinv.relax hrelax) h
    ⟨ha.labelled, ha.waiting⟩

theorem takeCandidate_perm (ht : takeCandidate objects h g st = some (u, rest)) :
    u ∈ st.kandidatenListe ∧ (∀ o ∈ rest, o ∈ st.kandidatenListe) ∧
      (st.kandidatenListe.map objects.value).Perm
        (objects.value u :: rest.map objects.value) := by
  cases h with
  | none =>
    have hperm := PriorityQueue.poll_perm ht
    exact ⟨hperm.mem_iff.mpr List.mem_cons_self,
      fun o ho => hperm.mem_iff.mpr (List.mem_cons_of_mem u ho), hperm.map objects.value⟩
  | some estimatedCost =>
    simp only [takeCandidate, Option.bind_eq_bind, Option.bind_eq_some_iff] at ht
    obtain ⟨m, hm, hrest⟩ := ht
    obtain ⟨rfl, rfl⟩ := Prod.mk.inj (Option.some.inj hrest)
    have hmem := (streamMin_spec hm).1
    unfold remove
    cases hi : st.kandidatenListe.findIdx? fun o => objects.value o = objects.value m with
    | none =>
      have hno := List.findIdx?_eq_none_iff.mp hi m hmem
      simp at hno
    | some i =>
      obtain ⟨hlt, hval, -⟩ := List.findIdx?_eq_some_iff_getElem.mp hi
      have hget : st.kandidatenListe[i]? = some st.kandidatenListe[i] :=
        List.getElem?_eq_getElem hlt
      have hperm := PriorityQueue.removeAt_perm (less objects st.dist) st.kandidatenListe hget
      refine ⟨hmem, fun o ho => hperm.mem_iff.mpr (List.mem_cons_of_mem _ ho), ?_⟩
      have hmap := hperm.map objects.value
      rw [List.map_cons, of_decide_eq_true hval] at hmap
      exact hmap

theorem takeCandidate_isSome (objects : Vertices V O) (h : Option (V → V → ℚ)) (g : O)
    (hne : st.kandidatenListe ≠ []) :
    ∃ u rest, takeCandidate objects h g st = some (u, rest) := by
  cases h with
  | none =>
    cases hp : PriorityQueue.poll (less objects st.dist) st.kandidatenListe with
    | none => exact absurd (PriorityQueue.poll_eq_none.mp hp) hne
    | some x => exact ⟨x.1, x.2, hp⟩
  | some estimatedCost =>
    cases hk : st.kandidatenListe with
    | nil => exact absurd hk hne
    | cons v vs => exact ⟨_, _, by simp only [takeCandidate, hk, streamMin]; rfl⟩

theorem takeCandidate_selects {estimatedCost : V → V → ℚ}
    (ht : takeCandidate objects (some estimatedCost) g st = some (u, rest)) :
    LabelSetting.Selects (estimatedCost · (objects.value g)) (label objects st)
      (objects.value u) := by
  simp only [takeCandidate, Option.bind_eq_bind, Option.bind_eq_some_iff] at ht
  obtain ⟨m, hm, hrest⟩ := ht
  obtain ⟨rfl, rfl⟩ := Prod.mk.inj (Option.some.inj hrest)
  intro y hy
  obtain ⟨o, ho, rfl⟩ := List.mem_map.mp hy
  exact (streamMin_spec hm).2 o ho

theorem References.expand (hr : References objects s st)
    (hlt : distOf st.dist (objects.value s) < maxValue)
    (ht : takeCandidate objects h g st = some (u, rest))
    (hst₁ : expand objects myGraph u rest st = some st₁) : References objects s st₁ := by
  obtain ⟨hu, hrest, -⟩ := takeCandidate_perm ht
  obtain ⟨hb, hchanges⟩ := expand_updates hst₁
  constructor
  · have ha : Alone objects s { st with kandidatenListe := rest } :=
      ⟨hlt, fun o ho => hr.waiting o (hrest o ho)⟩
    exact (ha.expand hst₁).waiting
  · intro o ho
    rw [hb] at ho
    rcases List.mem_append.mp ho with ho | ho
    · exact hr.visited o ho
    · rw [List.mem_singleton.mp ho]
      exact hr.waiting u hu
  · intro v o ho
    rw [hb]
    rcases hchanges v with ⟨-, hp⟩ | ⟨-, hp⟩
    · exact List.mem_append_left _ (hr.pred v o (hp ▸ ho))
    · rw [hp] at ho
      obtain rfl := Option.some.inj (Option.some.inj ho)
      exact List.mem_append_right _ List.mem_cons_self

end References

section Refines

variable {h : Option (V → V → ℚ)} {s g : O} {st : ObjectSearch V O} {st' : Search V}

theorem streamMin_map (objects : Vertices V O) (cost : V → ℚ) (es : List O) :
    (streamMin (fun o => cost (objects.value o)) es).map objects.value =
      streamMin cost (es.map objects.value) := by
  cases es with
  | nil => rfl
  | cons v vs =>
    simp only [streamMin, List.map_cons, Option.map_some, List.foldl_map, Option.some.injEq]
    induction vs generalizing v with
    | nil => rfl
    | cons w vs ih =>
      rw [List.foldl_cons, List.foldl_cons, ih]
      split <;> rfl

theorem remove_map {dist : TreeMap V ℚ} {es : List O} {x : O}
    (hnd : (es.map objects.value).Nodup) :
    (remove objects dist es x).map objects.value =
      PriorityQueue.remove (ShortestPath.less dist) (es.map objects.value) (objects.value x) := by
  have hidx : (es.map objects.value).idxOf? (objects.value x) =
      es.findIdx? fun o => objects.value o = objects.value x := by
    rw [List.idxOf?, List.findIdx?_map]
    rfl
  rw [remove, PriorityQueue.remove, hidx]
  cases hi : es.findIdx? fun o => objects.value o = objects.value x with
  | none => rfl
  | some i =>
    obtain ⟨hlt, -, -⟩ := List.findIdx?_eq_some_iff_getElem.mp hi
    exact PriorityQueue.removeAt_map _ hlt fun a ha b hb hab =>
      List.inj_on_of_nodup_map hnd ha hb hab

theorem Shows.takeCandidate (hst : Shows objects st st') (hnd : st'.kandidatenListe.Nodup) :
    (takeCandidate objects h g st).map (fun r => (objects.value r.1, r.2.map objects.value)) =
      ShortestPath.takeCandidate h (objects.value g) st' := by
  rw [hst.kandidatenListe] at hnd
  cases h with
  | none =>
    rw [ShortestPath.takeCandidate, hst.dist, hst.kandidatenListe]
    exact PriorityQueue.poll_map objects.value _ _
  | some estimatedCost =>
    simp only [ObjectSearch.takeCandidate, ShortestPath.takeCandidate, hst.dist,
      hst.kandidatenListe, Option.bind_eq_bind]
    rw [← streamMin_map objects fun o => distOf st.dist o + estimatedCost o (objects.value g)]
    cases streamMin (fun o => distOf st.dist (objects.value o) +
        estimatedCost (objects.value o) (objects.value g)) st.kandidatenListe with
    | none => rfl
    | some m => simp only [Option.bind_some, Option.map_some, remove_map hnd]

theorem Shows.loop (hp : Problem myGraph (objects.value s) (objects.value g)) (fuel : ℕ)
    (hst : Shows objects st st') (hs : Searching myGraph (objects.value s) (objects.value g) st') :
    Option.Rel (Shows objects) (loop objects myGraph h g fuel st)
      (ShortestPath.loop myGraph h (objects.value g) fuel st') := by
  induction fuel generalizing st st' with
  | zero => exact .none
  | succ fuel ih =>
    have hempty : st'.kandidatenListe.isEmpty = st.kandidatenListe.isEmpty := by
      rw [hst.kandidatenListe, List.isEmpty_map]
    rw [ObjectSearch.loop, ShortestPath.loop, hempty]
    split
    · exact .some hst
    · have hnd : st'.kandidatenListe.Nodup := (List.nodup_append.mp hs.inv.nodup).2.1
      rw [← hst.takeCandidate (h := h) (g := g) hnd]
      cases ht : ObjectSearch.takeCandidate objects h g st with
      | none => exact .none
      | some r =>
        obtain ⟨u, rest⟩ := r
        have ht' := hst.takeCandidate (h := h) (g := g) hnd
        rw [ht] at ht'
        simp only [Option.map_some, Option.bind_eq_bind, Option.bind_some]
        split
        · exact .some ⟨hst.dist, hst.pred, rfl, hst.besucht⟩
        · rename_i hug
          obtain ⟨st₁', hst₁', hs₁', -⟩ := hs.next hp ht'.symm hug
          have hrel := hst.expand myGraph u rest
          rw [hst₁'] at hrel ⊢
          obtain ⟨st₁, hst₁, hshows⟩ := Refinement.rel_some hrel
          rw [hst₁]
          exact ih hshows hs₁'

theorem initial_shows (objects : Vertices V O) (myGraph : AdjacencyListDirectedGraph V) (s : O) :
    Shows objects (initial objects myGraph s) (ShortestPath.initial myGraph (objects.value s)) where
  dist := rfl
  pred v := by
    rw [initial, ShortestPath.initial, getElem?_foldl_none, getElem?_foldl_none]
    split <;> simp
  kandidatenListe := rfl
  besucht := rfl

theorem loop_mono {n m : ℕ} (hnm : n ≤ m) {final : ObjectSearch V O}
    (hloop : loop objects myGraph h g n st = some final) :
    loop objects myGraph h g m st = some final := by
  induction n generalizing m st with
  | zero => cases hloop
  | succ n ih =>
    cases m with
    | zero => omega
    | succ m =>
      rw [loop] at hloop ⊢
      split at hloop
      · rename_i hempty
        rw [if_pos hempty]
        exact hloop
      · rename_i hempty
        rw [if_neg hempty]
        obtain ⟨⟨u, rest⟩, ht, hloop⟩ := Option.bind_eq_some_iff.mp hloop
        refine Option.bind_eq_some_iff.mpr ⟨⟨u, rest⟩, ht, ?_⟩
        dsimp only at hloop ⊢
        split at hloop
        · rename_i hug
          rw [if_pos hug]
          exact hloop
        · rename_i hug
          rw [if_neg hug]
          obtain ⟨st', hst', hloop⟩ := Option.bind_eq_some_iff.mp hloop
          exact Option.bind_eq_some_iff.mpr ⟨st', hst', ih (by omega) hloop⟩

-- With identities forgotten, the search over objects is the search over values.
theorem search_refines (h : Option (V → V → ℚ))
    (hp : Problem myGraph (objects.value s) (objects.value g)) :
    ∃ final final', Returns (searchShortestPathMain objects myGraph h s g) final ∧
      ShortestPath.searchShortestPathMain myGraph h (objects.value s) (objects.value g) =
        some final' ∧ Shows objects final final' := by
  obtain ⟨final', -, hfinal', -⟩ := search_ends hp h
  have hrel : Option.Rel (Shows objects)
      (searchShortestPathMain objects myGraph h s g (myGraph.getNumberOfVertexes + 1))
      (ShortestPath.searchShortestPathMain myGraph h (objects.value s) (objects.value g)) :=
    (initial_shows objects myGraph s).loop hp _ hp.searching
  rw [hfinal'] at hrel
  obtain ⟨final, hfinal, hshows⟩ := Refinement.rel_some hrel
  exact ⟨final, final', ⟨_, fun fuel hfuel => loop_mono hfuel hfinal⟩, hfinal', hshows⟩

end Refines

end ObjectSearch

end ShortestPath
