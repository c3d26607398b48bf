import HTWGArchive.DirectedGraph.DepthFirstOrder
import HTWGArchive.Library.LabelSetting
import HTWGArchive.ShortestPath.PriorityQueue

open Std (TreeMap TreeSet)
open AdjacencyListDirectedGraph

namespace ShortestPath

variable {V : Type} [LinearOrder V]

-- (double) Integer.MAX_VALUE
def maxValue : ℚ := 2147483647

-- `besucht` are the stations shown by `sim.visitStation`, in order.
structure Search (V : Type) [LinearOrder V] where
  dist : TreeMap V ℚ
  pred : TreeMap V (Option V)
  kandidatenListe : List V
  besucht : List V

-- Every candidate has an entry in `dist`.
def distOf (dist : TreeMap V ℚ) (v : V) : ℚ :=
  dist.getD v maxValue

def less (dist : TreeMap V ℚ) (a b : V) : Bool :=
  distOf dist a < distOf dist b

def streamMin (cost : V → ℚ) : List V → Option V
  | [] => none
  | v :: vs => some (vs.foldl (fun a b => if cost a ≤ cost b then a else b) v)

def takeCandidate (h : Option (V → V → ℚ)) (g : V) (st : Search V) : Option (V × List V) :=
  match h with
  | some estimatedCost => do
    let min ← streamMin (fun o => distOf st.dist o + estimatedCost o g) st.kandidatenListe
    some (min, PriorityQueue.remove (less st.dist) st.kandidatenListe min)
  | none => PriorityQueue.poll (less st.dist) st.kandidatenListe

def enqueue (dw : ℚ) (st : Search V) (w : V) : Search V :=
  if dw = maxValue then
    { st with kandidatenListe := PriorityQueue.add (less st.dist) st.kandidatenListe w }
  else st

def relax (myGraph : AdjacencyListDirectedGraph V) (min : V) (st : Search V) (w : V) :
    Option (Search V) := do
  let dw ← st.dist[w]?
  let st := enqueue dw st w
  let dmin ← st.dist[min]?
  let weight ← myGraph.getWeight min w
  if dmin + weight < dw then
    some { st with pred := st.pred.insert w (some min), dist := st.dist.insert w (dmin + weight) }
  else some st

def expand (myGraph : AdjacencyListDirectedGraph V) (min : V) (rest : List V) (st : Search V) :
    Option (Search V) := do
  let ws ← myGraph.getSuccessorVertexSet min
  ws.foldlM (relax myGraph min)
    { st with kandidatenListe := rest, besucht := st.besucht ++ [min] }

def loop (myGraph : AdjacencyListDirectedGraph V) (h : Option (V → V → ℚ)) (g : V) :
    ℕ → Search V → Option (Search V)
  | 0, _ => none
  | fuel + 1, st =>
    if st.kandidatenListe.isEmpty then some st
    else do
      let (min, rest) ← takeCandidate h g st
      if min = g then some { st with kandidatenListe := rest }
      else do
        let st' ← expand myGraph min rest st
        loop myGraph h g fuel st'

def initialDist (myGraph : AdjacencyListDirectedGraph V) (s : V) : TreeMap V ℚ :=
  (myGraph.getVertexSet.foldl (fun (dist : TreeMap V ℚ) v => dist.insert v maxValue) {}).insert s 0

def initial (myGraph : AdjacencyListDirectedGraph V) (s : V) : Search V where
  dist := initialDist myGraph s
  pred := myGraph.getVertexSet.foldl (fun (pred : TreeMap V (Option V)) v => pred.insert v none) {}
  kandidatenListe := PriorityQueue.add (less (initialDist myGraph s)) [] s
  besucht := []

def searchShortestPathMain (myGraph : AdjacencyListDirectedGraph V) (h : Option (V → V → ℚ))
    (s g : V) : Option (Search V) :=
  loop myGraph h g (myGraph.getNumberOfVertexes + 1) (initial myGraph s)

def getDistance (st : Search V) (g : V) : Option ℚ :=
  st.dist[g]?

def label (st : Search V) : LabelSetting.State V ℚ where
  dist := distOf st.dist
  done := st.besucht
  waiting := st.kandidatenListe

def Covers (myGraph : AdjacencyListDirectedGraph V) (st : Search V) : Prop :=
  ∀ v ∈ myGraph.succ, v ∈ st.dist

theorem distOf_insert (dist : TreeMap V ℚ) (k v : V) (x : ℚ) :
    distOf (dist.insert k x) v = if k = v then x else distOf dist v := by
  simp [distOf, TreeMap.getD_insert]

theorem getElem?_eq_distOf {dist : TreeMap V ℚ} {v : V} (hv : v ∈ dist) :
    dist[v]? = some (distOf dist v) := by
  obtain ⟨x, hx⟩ := (mem_iff_getElem? dist v).mp hv
  rw [hx, distOf, TreeMap.getD_eq_getD_getElem?, hx]
  rfl

@[simp] theorem enqueue_dist (dw : ℚ) (st : Search V) (w : V) :
    (enqueue dw st w).dist = st.dist := by
  unfold enqueue
  split <;> rfl

@[simp] theorem enqueue_besucht (dw : ℚ) (st : Search V) (w : V) :
    (enqueue dw st w).besucht = st.besucht := by
  unfold enqueue
  split <;> rfl

theorem enqueue_perm (st : Search V) (w : V) :
    (enqueue (distOf st.dist w) st w).kandidatenListe.Perm
      (st.kandidatenListe ++ [w].filter fun y => distOf st.dist y = maxValue) := by
  unfold enqueue
  split
  · rename_i h
    simpa [h] using PriorityQueue.add_perm (less st.dist) st.kandidatenListe w
  · rename_i h
    simp [h]

section Relax

variable {myGraph : AdjacencyListDirectedGraph V} {u w : V} {x : ℚ} {st : Search V}

theorem relax_eq (hw : w ∈ st.dist) (hu : u ∈ st.dist) (hx : myGraph.getWeight u w = some x) :
    ∃ st', relax myGraph u st w = some st' ∧ (∀ v, v ∈ st.dist → v ∈ st'.dist) ∧
      st'.besucht = st.besucht ∧
      (∀ v, distOf st'.dist v =
        if w = v then min (distOf st.dist w) (distOf st.dist u + x) else distOf st.dist v) ∧
      st'.kandidatenListe.Perm
        (st.kandidatenListe ++ [w].filter fun y => distOf st.dist y = maxValue) := by
  simp only [relax, getElem?_eq_distOf hw, enqueue_dist, getElem?_eq_distOf hu, hx,
    Option.bind_eq_bind, Option.bind_some]
  split
  · rename_i hlt
    refine ⟨_, rfl, ?_, enqueue_besucht _ st w, ?_, enqueue_perm st w⟩
    · intro v hv
      exact TreeMap.mem_insert.mpr (Or.inr hv)
    · intro v
      rw [min_eq_right hlt.le]
      exact distOf_insert st.dist w v _
  · rename_i hge
    refine ⟨_, rfl, ?_, enqueue_besucht _ st w, ?_, enqueue_perm st w⟩
    · intro v hv
      rwa [enqueue_dist]
    · intro v
      rw [enqueue_dist, min_eq_left (not_lt.mp hge)]
      split
      · rename_i h
        rw [h]
      · rfl

theorem foldlM_relax (hpos : LabelSetting.NonNegative myGraph.getWeight) (hu : u ∈ myGraph.succ)
    (ws : List V) (hnd : ws.Nodup) (hws : ∀ w ∈ ws, w ∈ myGraph.succ ∧ myGraph.Edge u w)
    (st : Search V) (hcov : Covers myGraph st) :
    ∃ st', ws.foldlM (relax myGraph u) st = some st' ∧ Covers myGraph st' ∧
      st'.besucht = st.besucht ∧ (∀ v, v ∉ ws → distOf st'.dist v = distOf st.dist v) ∧
      (∀ v x, v ∈ ws → myGraph.getWeight u v = some x →
        distOf st'.dist v = min (distOf st.dist v) (distOf st.dist u + x)) ∧
      st'.kandidatenListe.Perm
        (st.kandidatenListe ++ ws.filter fun y => distOf st.dist y = maxValue) := by
  induction ws generalizing st with
  | nil => exact ⟨st, rfl, hcov, rfl, fun v _ => rfl, by simp, by simp⟩
  | cons w ws ih =>
    obtain ⟨hw, hnd'⟩ := List.nodup_cons.mp hnd
    obtain ⟨hwv, hedge⟩ := hws w List.mem_cons_self
    obtain ⟨x, hx⟩ := Option.isSome_iff_exists.mp hedge
    obtain ⟨st₁, hst₁, hcov₁, hb₁, hd₁, hk₁⟩ := relax_eq (hcov w hwv) (hcov u hu) hx
    obtain ⟨st₂, hst₂, hcov₂, hb₂, hkeep₂, hd₂, hk₂⟩ := ih hnd'
      (fun y hy => hws y (List.mem_cons_of_mem w hy)) st₁ (fun v hv => hcov₁ v (hcov v hv))
    have hu₁ : distOf st₁.dist u = distOf st.dist u := by
      rw [hd₁ u]
      split
      · rename_i h
        rw [h]
        exact min_eq_left (le_add_of_nonneg_right (hpos u w x hx))
      · rfl
    have hother : ∀ v, v ≠ w → distOf st₁.dist v = distOf st.dist v := by
      intro v hv
      rw [hd₁ v, if_neg hv.symm]
    have hfilter : (ws.filter fun y => distOf st₁.dist y = maxValue) =
        ws.filter fun y => distOf st.dist y = maxValue := by
      apply List.filter_congr
      intro y hy
      rw [hother y fun h => hw (h ▸ hy)]
    refine ⟨st₂, by simp [hst₁, hst₂], hcov₂, hb₂.trans hb₁, ?_, ?_, ?_⟩
    · intro v hv
      rw [hkeep₂ v fun h => hv (List.mem_cons_of_mem w h)]
      exact hother v fun h => hv (h ▸ List.mem_cons_self)
    · intro v y hv hy
      rcases List.mem_cons.mp hv with rfl | hv
      · obtain rfl : x = y := Option.some.inj (hx.symm.trans hy)
        rw [hkeep₂ v hw, hd₁ v, if_pos rfl]
      · rw [hd₂ v y hv hy, hu₁, hother v fun h => hw (h ▸ hv)]
    · rw [hfilter] at hk₂
      refine hk₂.trans ?_
      rw [← List.singleton_append, List.filter_append, ← List.append_assoc]
      exact hk₁.append_right _

end Relax

section Steps

variable {myGraph : AdjacencyListDirectedGraph V} {s g : V}

theorem nodup_successors {v : V} {ws : List V}
    (h : myGraph.getSuccessorVertexSet v = some ws) : ws.Nodup := by
  unfold getSuccessorVertexSet at h
  obtain ⟨m, -, rfl⟩ := Option.map_eq_some_iff.mp h
  exact TreeMap.nodup_keys

theorem expand_eq (hg : WellFormed myGraph)
    (hpos : LabelSetting.NonNegative myGraph.getWeight) {u : V} (hu : u ∈ myGraph.succ)
    {rest : List V} {st : Search V} (hcov : Covers myGraph st)
    (hrest : st.kandidatenListe.Perm (u :: rest)) :
    ∃ st', expand myGraph u rest st = some st' ∧ Covers myGraph st' ∧
      LabelSetting.Expands myGraph.getWeight maxValue u (label st) (label st') := by
  obtain ⟨ws, hws⟩ := getSuccessorVertexSet_isSome hu
  have hmem : ∀ w, w ∈ ws ↔ myGraph.Edge u w := by
    intro w
    rw [← mem_successors, hws]
    rfl
  obtain ⟨st', hst', hcov', hb, hkeep, hd, hk⟩ := foldlM_relax hpos hu ws (nodup_successors hws)
    (fun w hw => ⟨hg.targets u w ((hmem w).mp hw), (hmem w).mp hw⟩)
    { st with kandidatenListe := rest, besucht := st.besucht ++ [u] } hcov
  refine ⟨st', by simp [expand, hws, hst'], hcov', ?_⟩
  constructor
  · exact hb
  · intro w hw
    apply hkeep
    intro hmw
    have hedge := (hmem w).mp hmw
    rw [Edge, hw] at hedge
    cases hedge
  · intro w x hx
    exact hd w x ((hmem w).mpr (by rw [Edge, hx]; rfl)) hx
  · refine ⟨rest, _, hrest, hk, (nodup_successors hws).filter _, ?_⟩
    intro y
    rw [List.mem_filter, decide_eq_true_eq, hmem, and_comm]
    rfl

omit [LinearOrder V] in
theorem streamMin_spec {cost : V → ℚ} {vs : List V} {m : V} (h : streamMin cost vs = some m) :
    m ∈ vs ∧ ∀ y ∈ vs, cost m ≤ cost y := by
  cases vs with
  | nil => cases h
  | cons v vs =>
    obtain rfl := Option.some.inj h
    clear h
    induction vs generalizing v with
    | nil => simp
    | cons w vs ih =>
      rw [List.foldl_cons]
      split
      · rename_i hle
        obtain ⟨hm, hmin⟩ := ih v
        refine ⟨?_, ?_⟩
        · rcases List.mem_cons.mp hm with h | h
          · rw [h]
            exact List.mem_cons_self
          · exact List.mem_cons_of_mem v (List.mem_cons_of_mem w h)
        · intro y hy
          rcases List.mem_cons.mp hy with rfl | hy
          · exact hmin y List.mem_cons_self
          · rcases List.mem_cons.mp hy with rfl | hy
            · exact (hmin v List.mem_cons_self).trans hle
            · exact hmin y (List.mem_cons_of_mem v hy)
      · rename_i hgt
        obtain ⟨hm, hmin⟩ := ih w
        refine ⟨List.mem_cons_of_mem v hm, ?_⟩
        intro y hy
        rcases List.mem_cons.mp hy with rfl | hy
        · exact (hmin w List.mem_cons_self).trans (not_le.mp hgt).le
        · exact hmin y hy

theorem takeCandidate_perm {h : Option (V → V → ℚ)} {st : Search V} {u : V} {rest : List V}
    (ht : takeCandidate h g st = some (u, rest)) : st.kandidatenListe.Perm (u :: rest) := by
  cases h with
  | none => exact PriorityQueue.poll_perm ht
  | some estimatedCost =>
    simp only [takeCandidate, Option.bind_eq_bind, Option.bind_eq_some_iff] at ht
    obtain ⟨m, hm, hrest⟩ := ht
    obtain ⟨rfl, rfl⟩ := Prod.mk.inj (Option.some.inj hrest)
    exact PriorityQueue.remove_perm _ (streamMin_spec hm).1

theorem takeCandidate_isSome (h : Option (V → V → ℚ)) (g : V) {st : Search V}
    (hne : st.kandidatenListe ≠ []) : ∃ u rest, takeCandidate h g st = some (u, rest) := by
  cases h with
  | none =>
    cases hp : PriorityQueue.poll (less st.dist) st.kandidatenListe with
    | none => exact absurd (PriorityQueue.poll_eq_none.mp hp) hne
    | some x => exact ⟨x.1, x.2, hp⟩
  | some estimatedCost =>
    cases hk : st.kandidatenListe with
    | nil => exact absurd hk hne
    | cons v vs => exact ⟨_, _, by simp only [takeCandidate, hk, streamMin]; rfl⟩

theorem takeCandidate_selects {estimatedCost : V → V → ℚ} {st : Search V} {u : V}
    {rest : List V} (ht : takeCandidate (some estimatedCost) g st = some (u, rest)) :
    LabelSetting.Selects (estimatedCost · g) (label st) u := by
  simp only [takeCandidate, Option.bind_eq_bind, Option.bind_eq_some_iff] at ht
  obtain ⟨m, hm, hrest⟩ := ht
  obtain ⟨rfl, rfl⟩ := Prod.mk.inj (Option.some.inj hrest)
  exact (streamMin_spec hm).2

def Step (myGraph : AdjacencyListDirectedGraph V) (h : Option (V → V → ℚ)) (g : V)
    (st st' : Search V) : Prop :=
  ∃ u rest, takeCandidate h g st = some (u, rest) ∧ u ≠ g ∧ expand myGraph u rest st = some st'

def Reached (myGraph : AdjacencyListDirectedGraph V) (h : Option (V → V → ℚ)) (s g : V) :
    Search V → Prop :=
  Relation.ReflTransGen (Step myGraph h g) (initial myGraph s)

structure Problem (myGraph : AdjacencyListDirectedGraph V) (s g : V) : Prop where
  wellFormed : WellFormed myGraph
  start : s ∈ myGraph.succ
  goal : g ∈ myGraph.succ
  nonNegative : LabelSetting.NonNegative myGraph.getWeight
  lengths : LabelSetting.LengthsBelow myGraph.getWeight s maxValue

structure Searching (myGraph : AdjacencyListDirectedGraph V) (s g : V) (st : Search V) :
    Prop where
  inv : LabelSetting.Inv myGraph.getWeight s maxValue (label st)
  covers : Covers myGraph st
  open_goal : g ∉ st.besucht

variable {h : Option (V → V → ℚ)} {st st' : Search V}

theorem initialDist_foldl (vs : List V) (dist : TreeMap V ℚ) (v : V) :
    (v ∈ vs.foldl (fun (d : TreeMap V ℚ) v => d.insert v maxValue) dist ↔ v ∈ vs ∨ v ∈ dist) ∧
      (distOf dist v = maxValue →
        distOf (vs.foldl (fun (d : TreeMap V ℚ) v => d.insert v maxValue) dist) v = maxValue) := by
  induction vs generalizing dist with
  | nil => simp
  | cons w vs ih =>
    obtain ⟨hmem, hdist⟩ := ih (dist.insert w maxValue)
    refine ⟨?_, ?_⟩
    · rw [List.foldl_cons, hmem, TreeMap.mem_insert, compare_eq_iff_eq, List.mem_cons]
      constructor
      · rintro (h | rfl | h)
        · exact Or.inl (Or.inr h)
        · exact Or.inl (Or.inl rfl)
        · exact Or.inr h
      · rintro ((rfl | h) | h)
        · exact Or.inr (Or.inl rfl)
        · exact Or.inl h
        · exact Or.inr (Or.inr h)
    · intro hd
      apply hdist
      rw [distOf_insert, hd, ite_self]

theorem initial_starts (myGraph : AdjacencyListDirectedGraph V) (s : V) :
    LabelSetting.Starts s maxValue (label (initial myGraph s)) where
  source := by simp [label, initial, initialDist, distOf_insert]
  others v hv := by
    have hempty : distOf ({} : TreeMap V ℚ) v = maxValue := by simp [distOf]
    have hd := (initialDist_foldl myGraph.getVertexSet {} v).2 hempty
    simpa [label, initial, initialDist, distOf_insert, hv.symm] using hd
  done := rfl
  waiting := rfl

theorem initial_covers (myGraph : AdjacencyListDirectedGraph V) (s : V) :
    Covers myGraph (initial myGraph s) := by
  intro v hv
  apply TreeMap.mem_insert.mpr
  apply Or.inr
  rw [(initialDist_foldl myGraph.getVertexSet {} v).1]
  exact Or.inl ((mem_getVertexSet myGraph v).mpr hv)

theorem Problem.searching (hp : Problem myGraph s g) :
    Searching myGraph s g (initial myGraph s) where
  inv := (initial_starts myGraph s).inv hp.lengths
  covers := initial_covers myGraph s
  open_goal := List.not_mem_nil

theorem Problem.reachable_mem (hp : Problem myGraph s g) {v : V}
    (hv : LabelSetting.Reachable myGraph.getWeight s v) : v ∈ myGraph.succ := by
  obtain ⟨vs, l, hpath⟩ := hv
  cases hpath with
  | nil => exact hp.start
  | snoc _ hx => exact hp.wellFormed.targets _ _ (by rw [Edge, hx]; rfl)

theorem Searching.candidate (hs : Searching myGraph s g st) (hp : Problem myGraph s g) {u : V}
    {rest : List V} (ht : takeCandidate h g st = some (u, rest)) :
    u ∈ st.kandidatenListe ∧ u ∈ myGraph.succ := by
  have hu : u ∈ st.kandidatenListe :=
    (takeCandidate_perm ht).mem_iff.mpr List.mem_cons_self
  exact ⟨hu, hp.reachable_mem (hs.inv.reachable (hs.inv.discovered_waiting hu))⟩

theorem Searching.next (hs : Searching myGraph s g st) (hp : Problem myGraph s g) {u : V}
    {rest : List V} (ht : takeCandidate h g st = some (u, rest)) (hug : u ≠ g) :
    ∃ st', expand myGraph u rest st = some st' ∧ Searching myGraph s g st' ∧
      LabelSetting.Expands myGraph.getWeight maxValue u (label st) (label st') := by
  obtain ⟨hu, hus⟩ := hs.candidate hp ht
  obtain ⟨st', hst', hcov, hex⟩ :=
    expand_eq hp.wellFormed hp.nonNegative hus hs.covers (takeCandidate_perm ht)
  refine ⟨st', hst', ⟨hs.inv.expand hp.nonNegative hp.lengths hu hex, hcov, ?_⟩, hex⟩
  have hdone : st'.besucht = st.besucht ++ [u] := hex.done
  rw [hdone]
  intro hg
  rcases List.mem_append.mp hg with hg | hg
  · exact hs.open_goal hg
  · exact hug (List.mem_singleton.mp hg).symm

theorem Searching.step (hs : Searching myGraph s g st) (hp : Problem myGraph s g)
    (hstep : Step myGraph h g st st') : Searching myGraph s g st' ∧ ∃ u rest,
      takeCandidate h g st = some (u, rest) ∧
      LabelSetting.Expands myGraph.getWeight maxValue u (label st) (label st') := by
  obtain ⟨u, rest, ht, hug, hst'⟩ := hstep
  obtain ⟨st'', hst'', hs'', hex⟩ := hs.next hp ht hug
  obtain rfl : st'' = st' := Option.some.inj (hst''.symm.trans hst')
  exact ⟨hs'', u, rest, ht, hex⟩

theorem Reached.searching (hp : Problem myGraph s g) (hr : Reached myGraph h s g st) :
    Searching myGraph s g st := by
  induction hr with
  | refl => exact hp.searching
  | tail _ hstep ih => exact (ih.step hp hstep).1

theorem Searching.length_le (hs : Searching myGraph s g st) (hp : Problem myGraph s g) :
    st.besucht.length ≤ myGraph.getNumberOfVertexes := by
  have hnd : st.besucht.Nodup := (List.nodup_append.mp hs.inv.nodup).1
  have hsub : st.besucht.toFinset ⊆ myGraph.vertices := by
    intro v hv
    have hdone : v ∈ st.besucht := List.mem_toFinset.mp hv
    have hdisc := (hs.inv.discovered v).mpr (Or.inl hdone)
    exact mem_vertices.mpr (hp.reachable_mem (hs.inv.reachable hdisc))
  calc st.besucht.length = st.besucht.toFinset.card := (List.toFinset_card_of_nodup hnd).symm
    _ ≤ myGraph.vertices.card := Finset.card_le_card hsub
    _ ≤ myGraph.getNumberOfVertexes := myGraph.card_vertices_le

-- `last` is the state before the iteration that ends the loop.
structure Ends (h : Option (V → V → ℚ)) (g : V) (last final : Search V) : Prop where
  dist : final.dist = last.dist
  besucht : final.besucht = last.besucht
  stops : last.kandidatenListe = [] ∨ ∃ rest, takeCandidate h g last = some (g, rest)

theorem loop_ends (hp : Problem myGraph s g) (fuel : ℕ) (hs : Searching myGraph s g st)
    (hfuel : myGraph.getNumberOfVertexes < fuel + st.besucht.length) :
    ∃ final last, loop myGraph h g fuel st = some final ∧
      Relation.ReflTransGen (Step myGraph h g) st last ∧ Ends h g last final := by
  induction fuel generalizing st with
  | zero =>
    have hlen := hs.length_le hp
    omega
  | succ fuel ih =>
    by_cases hk : st.kandidatenListe = []
    · exact ⟨st, st, by simp [loop, hk], .refl, rfl, rfl, Or.inl hk⟩
    · obtain ⟨u, rest, ht⟩ := takeCandidate_isSome h g hk
      have hne : st.kandidatenListe.isEmpty = false := by simpa using hk
      by_cases hug : u = g
      · subst hug
        exact ⟨{ st with kandidatenListe := rest }, st, by simp [loop, hne, ht], .refl, rfl, rfl,
          Or.inr ⟨rest, ht⟩⟩
      · obtain ⟨st', hst', hs', hex⟩ := hs.next hp ht hug
        have hdone : st'.besucht = st.besucht ++ [u] := hex.done
        obtain ⟨final, last, hfinal, hsteps, hends⟩ := ih hs' (by
          rw [hdone, List.length_append, List.length_singleton]
          omega)
        refine ⟨final, last, ?_, hsteps.head ⟨u, rest, ht, hug, hst'⟩, hends⟩
        simpa [loop, hne, ht, hug, hst'] using hfinal

theorem search_ends (hp : Problem myGraph s g) (h : Option (V → V → ℚ)) :
    ∃ final last, searchShortestPathMain myGraph h s g = some final ∧
      Reached myGraph h s g last ∧ Ends h g last final :=
  loop_ends hp _ hp.searching (by simp [initial])

def ReturnsDistance (myGraph : AdjacencyListDirectedGraph V) (s g : V) (st : Search V) : Prop :=
  ∃ d, getDistance st g = some d ∧
    (LabelSetting.Distance myGraph.getWeight s g d ∨
      (¬ LabelSetting.Reachable myGraph.getWeight s g ∧ d = maxValue))

theorem Ends.getDistance {last final : Search V} (he : Ends h g last final)
    (hp : Problem myGraph s g) (hs : Searching myGraph s g last) :
    getDistance final g = some (distOf last.dist g) := by
  rw [ShortestPath.getDistance, he.dist, getElem?_eq_distOf (hs.covers g hp.goal)]

theorem Ends.taken {last final : Search V} (he : Ends h g last final)
    (hp : Problem myGraph s g) (hs : Searching myGraph s g last)
    (hg : LabelSetting.Reachable myGraph.getWeight s g) :
    ∃ rest, takeCandidate h g last = some (g, rest) := by
  rcases he.stops with hk | ht
  · exact absurd (hs.inv.exhausted hp.lengths hk hg) hs.open_goal
  · exact ht

theorem Ends.returnsDistance_iff {last final : Search V} (he : Ends h g last final)
    (hp : Problem myGraph s g) (hs : Searching myGraph s g last) :
    ReturnsDistance myGraph s g final ↔
      ¬ LabelSetting.Reachable myGraph.getWeight s g ∨
        LabelSetting.Distance myGraph.getWeight s g (distOf last.dist g) := by
  have hget := he.getDistance hp hs
  constructor
  · rintro ⟨d, hd, hres | hres⟩
    · obtain rfl : distOf last.dist g = d := Option.some.inj (hget.symm.trans hd)
      exact Or.inr hres
    · exact Or.inl hres.1
  · rintro (hun | hdist)
    · exact ⟨_, hget, Or.inr ⟨hun, hs.inv.unreachable hun⟩⟩
    · exact ⟨_, hget, Or.inl hdist⟩

theorem Reached.settled (hp : Problem myGraph s g) {estimate : V → ℚ}
    (hcons : LabelSetting.Consistent myGraph.getWeight estimate)
    (hsel : ∀ st u rest, Reached myGraph h s g st → takeCandidate h g st = some (u, rest) →
      LabelSetting.Selects estimate (label st) u)
    (hr : Reached myGraph h s g st) :
    LabelSetting.Settled myGraph.getWeight s (label st) := by
  induction hr with
  | refl => exact (initial_starts myGraph s).settled
  | tail hreach hstep ih =>
    have hs := Reached.searching hp hreach
    obtain ⟨-, u, rest, ht, hex⟩ := hs.step hp hstep
    have hu := (hs.candidate hp ht).1
    exact ih.expand hs.inv hp.nonNegative hp.lengths hcons hu (hsel _ u rest hreach ht) hex

theorem Reached.goal_distance (hp : Problem myGraph s g) {f : V → ℚ}
    (hcons : LabelSetting.Consistent myGraph.getWeight f)
    (hsel : ∀ st u rest, Reached myGraph h s g st → takeCandidate h g st = some (u, rest) →
      LabelSetting.Selects f (label st) u)
    (hr : Reached myGraph h s g st) {rest : List V}
    (ht : takeCandidate h g st = some (g, rest)) :
    LabelSetting.Distance myGraph.getWeight s g (distOf st.dist g) := by
  have hs := Reached.searching hp hr
  have hgw := (hs.candidate hp ht).1
  have hshort := (hr.settled hp hcons hsel).selected hs.inv hp.lengths hcons hgw (hsel st g rest hr ht)
  obtain ⟨vs, hpath, -⟩ := hs.inv.realized g (hs.inv.discovered_waiting hgw)
  exact ⟨⟨vs, hpath⟩, hshort⟩

end Steps

end ShortestPath
