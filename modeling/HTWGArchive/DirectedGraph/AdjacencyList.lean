import Mathlib.Order.Basic
import Mathlib.Tactic
import Std.Data.TreeMap.Lemmas

open Std (TreeMap TreeSet)

structure AdjacencyListDirectedGraph (V : Type*) [LinearOrder V] where
  succ : TreeMap V (TreeMap V ℚ)
  pred : TreeMap V (TreeMap V ℚ)
  numberEdge : ℕ

namespace AdjacencyListDirectedGraph

variable {V : Type*} [LinearOrder V]

def empty : AdjacencyListDirectedGraph V where
  succ := {}
  pred := {}
  numberEdge := 0

def addVertex (g : AdjacencyListDirectedGraph V) (v : V) : AdjacencyListDirectedGraph V × Bool :=
  if v ∈ g.succ ∧ v ∈ g.pred then (g, false)
  else ({ g with succ := g.succ.insert v {}, pred := g.pred.insert v {} }, true)

def addEdge (g : AdjacencyListDirectedGraph V) (v w : V) (weight : ℚ) :
    AdjacencyListDirectedGraph V × Bool :=
  let g₁ := (g.addVertex v).1
  let g₂ := (g₁.addVertex w).1
  let known := (g₂.succ[v]?).any (·.contains w)
  let g₃ := { g₂ with
    succ := g₂.succ.modify v (·.insert w weight), pred := g₂.pred.modify w (·.insert v weight) }
  if known then (g₃, false) else ({ g₃ with numberEdge := g₃.numberEdge + 1 }, true)

def getVertexSet (g : AdjacencyListDirectedGraph V) : List V :=
  g.succ.keys

def getNumberOfVertexes (g : AdjacencyListDirectedGraph V) : ℕ :=
  g.succ.size

-- `none` is the NullPointerException of a vertex or an edge that is not in the graph.
def getSuccessorVertexSet (g : AdjacencyListDirectedGraph V) (v : V) : Option (List V) :=
  (g.succ[v]?).map (·.keys)

def getWeight (g : AdjacencyListDirectedGraph V) (v w : V) : Option ℚ :=
  (g.succ[v]?).bind (·[w]?)

def invert (g : AdjacencyListDirectedGraph V) : AdjacencyListDirectedGraph V :=
  g.succ.foldl (fun inv v ws => ws.foldl (fun inv w weight => (inv.addEdge w v weight).1) inv) empty

inductive Call (V : Type*) where
  | addVertex (v : V)
  | addEdge (v w : V) (weight : ℚ)

def call (g : AdjacencyListDirectedGraph V) : Call V → AdjacencyListDirectedGraph V × Bool
  | .addVertex v => g.addVertex v
  | .addEdge v w weight => g.addEdge v w weight

def build (calls : List (Call V)) : AdjacencyListDirectedGraph V :=
  calls.foldl (fun g c => (g.call c).1) empty

def Edge (g : AdjacencyListDirectedGraph V) (v w : V) : Prop :=
  (g.getWeight v w).isSome

instance decidableEdge (g : AdjacencyListDirectedGraph V) (v w : V) : Decidable (g.Edge v w) :=
  inferInstanceAs (Decidable ((g.getWeight v w).isSome = true))

theorem getElem?_insert_eq {β : Type*} (t : TreeMap V β) (k a : V) (b : β) :
    (t.insert k b)[a]? = if k = a then some b else t[a]? := by
  simp [TreeMap.getElem?_insert]

theorem getElem?_modify_eq {β : Type*} (t : TreeMap V β) (k a : V) (f : β → β) :
    (t.modify k f)[a]? = if k = a then t[a]?.map f else t[a]? := by
  rw [TreeMap.getElem?_modify]
  by_cases h : k = a <;> simp [h]

theorem mem_iff_getElem? {β : Type*} (t : TreeMap V β) (a : V) :
    a ∈ t ↔ ∃ b, t[a]? = some b := by
  rw [TreeMap.mem_iff_isSome_getElem?, Option.isSome_iff_exists]

structure WellFormed (g : AdjacencyListDirectedGraph V) : Prop where
  domains : ∀ v, v ∈ g.succ ↔ v ∈ g.pred
  mirrored : ∀ v w, g.getWeight v w = (g.pred[w]?).bind (·[v]?)
  targets : ∀ v w, g.Edge v w → w ∈ g.succ

theorem Edge.source {g : AdjacencyListDirectedGraph V} {v w : V} (h : g.Edge v w) :
    v ∈ g.succ := by
  rw [mem_iff_getElem?]
  unfold Edge getWeight at h
  cases hv : g.succ[v]? with
  | none => simp [hv] at h
  | some m => exact ⟨m, rfl⟩

theorem wellFormed_empty : WellFormed (empty : AdjacencyListDirectedGraph V) where
  domains v := by simp [empty]
  mirrored v w := by simp [empty, getWeight]
  targets v w h := by simp [empty, Edge, getWeight] at h

section AddVertex

variable {g : AdjacencyListDirectedGraph V} {v : V}

theorem mem_succ_addVertex (v a : V) :
    a ∈ (g.addVertex v).1.succ ↔ a = v ∨ a ∈ g.succ := by
  unfold addVertex
  split
  · rename_i h
    constructor
    · exact Or.inr
    · rintro (rfl | ha)
      · exact h.1
      · exact ha
  · rw [TreeMap.mem_insert, compare_eq_iff_eq, eq_comm]

theorem WellFormed.getWeight_addVertex (hg : WellFormed g) (v a b : V) :
    (g.addVertex v).1.getWeight a b = g.getWeight a b := by
  unfold addVertex
  split
  · rfl
  · rename_i h
    have hv : v ∉ g.succ := fun hm => h ⟨hm, (hg.domains v).mp hm⟩
    have hnone : g.succ[v]? = none := TreeMap.getElem?_eq_none hv
    simp only [getWeight, getElem?_insert_eq]
    by_cases hva : v = a
    · subst hva
      simp [hnone]
    · rw [if_neg hva]

theorem WellFormed.predWeight_addVertex (hg : WellFormed g) (v a b : V) :
    ((g.addVertex v).1.pred[b]?).bind (·[a]?) = (g.pred[b]?).bind (·[a]?) := by
  unfold addVertex
  split
  · rfl
  · rename_i h
    have hv : v ∉ g.pred := fun hm => h ⟨(hg.domains v).mpr hm, hm⟩
    have hnone : g.pred[v]? = none := TreeMap.getElem?_eq_none hv
    simp only [getElem?_insert_eq]
    by_cases hvb : v = b
    · subst hvb
      simp [hnone]
    · rw [if_neg hvb]

theorem WellFormed.addVertex (hg : WellFormed g) (v : V) : WellFormed (g.addVertex v).1 where
  domains a := by
    unfold AdjacencyListDirectedGraph.addVertex
    split
    · exact hg.domains a
    · simp only [TreeMap.mem_insert, hg.domains a]
  mirrored a b := by
    rw [hg.getWeight_addVertex, hg.predWeight_addVertex, hg.mirrored a b]
  targets a b h := by
    rw [mem_succ_addVertex]
    apply Or.inr
    apply hg.targets a b
    rwa [Edge, hg.getWeight_addVertex] at h

end AddVertex

section AddEdge

variable {g : AdjacencyListDirectedGraph V}

theorem succ_addEdge (g : AdjacencyListDirectedGraph V) (v w : V) (weight : ℚ) :
    (g.addEdge v w weight).1.succ =
      ((g.addVertex v).1.addVertex w).1.succ.modify v (·.insert w weight) := by
  unfold addEdge
  dsimp only
  split <;> rfl

theorem pred_addEdge (g : AdjacencyListDirectedGraph V) (v w : V) (weight : ℚ) :
    (g.addEdge v w weight).1.pred =
      ((g.addVertex v).1.addVertex w).1.pred.modify w (·.insert v weight) := by
  unfold addEdge
  dsimp only
  split <;> rfl

theorem mem_succ_addEdge (v w a : V) (weight : ℚ) :
    a ∈ (g.addEdge v w weight).1.succ ↔ a = v ∨ a = w ∨ a ∈ g.succ := by
  rw [succ_addEdge, TreeMap.mem_modify, mem_succ_addVertex, mem_succ_addVertex]
  tauto

theorem WellFormed.getWeight_addEdge (hg : WellFormed g) (v w a b : V) (weight : ℚ) :
    (g.addEdge v w weight).1.getWeight a b =
      if a = v ∧ b = w then some weight else g.getWeight a b := by
  have hg₁ := hg.addVertex v
  have hv : v ∈ ((g.addVertex v).1.addVertex w).1.succ := by
    rw [mem_succ_addVertex, mem_succ_addVertex]
    exact Or.inr (Or.inl rfl)
  obtain ⟨m, hm⟩ := (mem_iff_getElem? _ _).mp hv
  rw [← hg.getWeight_addVertex v a b, ← hg₁.getWeight_addVertex w a b]
  simp only [getWeight, succ_addEdge, getElem?_modify_eq]
  by_cases hva : v = a
  · subst hva
    by_cases hwb : w = b
    · subst hwb
      simp [hm]
    · simp [hm, getElem?_insert_eq, hwb, Ne.symm hwb]
  · simp [hva, Ne.symm hva]

theorem WellFormed.predWeight_addEdge (hg : WellFormed g) (v w a b : V) (weight : ℚ) :
    ((g.addEdge v w weight).1.pred[b]?).bind (·[a]?) =
      if a = v ∧ b = w then some weight else (g.pred[b]?).bind (·[a]?) := by
  have hg₁ := hg.addVertex v
  have hw : w ∈ ((g.addVertex v).1.addVertex w).1.pred := by
    rw [← (hg₁.addVertex w).domains, mem_succ_addVertex]
    exact Or.inl rfl
  obtain ⟨m, hm⟩ := (mem_iff_getElem? _ _).mp hw
  rw [← hg.predWeight_addVertex v a b, ← hg₁.predWeight_addVertex w a b]
  simp only [pred_addEdge, getElem?_modify_eq]
  by_cases hwb : w = b
  · subst hwb
    by_cases hva : v = a
    · subst hva
      simp [hm]
    · simp [hm, getElem?_insert_eq, hva, Ne.symm hva]
  · simp [hwb, Ne.symm hwb]

theorem WellFormed.addEdge (hg : WellFormed g) (v w : V) (weight : ℚ) :
    WellFormed (g.addEdge v w weight).1 where
  domains a := by
    rw [succ_addEdge, pred_addEdge, TreeMap.mem_modify, TreeMap.mem_modify]
    exact ((hg.addVertex v).addVertex w).domains a
  mirrored a b := by
    rw [hg.getWeight_addEdge, hg.predWeight_addEdge, hg.mirrored a b]
  targets a b h := by
    rw [mem_succ_addEdge]
    rw [Edge, hg.getWeight_addEdge] at h
    by_cases hab : a = v ∧ b = w
    · exact Or.inr (Or.inl hab.2)
    · rw [if_neg hab] at h
      exact Or.inr (Or.inr (hg.targets a b h))

theorem WellFormed.edge_addEdge (hg : WellFormed g) (v w a b : V) (weight : ℚ) :
    (g.addEdge v w weight).1.Edge a b ↔ (a = v ∧ b = w) ∨ g.Edge a b := by
  rw [Edge, hg.getWeight_addEdge]
  by_cases hab : a = v ∧ b = w <;> simp [hab, Edge]

end AddEdge

theorem WellFormed.call {g : AdjacencyListDirectedGraph V} (hg : WellFormed g) (c : Call V) :
    WellFormed (g.call c).1 := by
  cases c with
  | addVertex v => exact hg.addVertex v
  | addEdge v w weight => exact hg.addEdge v w weight

theorem wellFormed_build (calls : List (Call V)) : WellFormed (build calls) := by
  have hrun : ∀ g : AdjacencyListDirectedGraph V, WellFormed g →
      WellFormed (calls.foldl (fun g c => (g.call c).1) g) := by
    induction calls with
    | nil => exact fun g hg => hg
    | cons c calls ih => exact fun g hg => ih _ (hg.call c)
  exact hrun empty wellFormed_empty

theorem mem_getVertexSet (g : AdjacencyListDirectedGraph V) (v : V) :
    v ∈ g.getVertexSet ↔ v ∈ g.succ :=
  TreeMap.mem_keys

theorem getSuccessorVertexSet_isSome {g : AdjacencyListDirectedGraph V} {v : V}
    (hv : v ∈ g.succ) : ∃ ws, g.getSuccessorVertexSet v = some ws := by
  obtain ⟨m, hm⟩ := (mem_iff_getElem? _ _).mp hv
  exact ⟨m.keys, by simp [getSuccessorVertexSet, hm]⟩

theorem mem_successors {g : AdjacencyListDirectedGraph V} (v w : V) :
    w ∈ (g.getSuccessorVertexSet v).getD [] ↔ g.Edge v w := by
  unfold getSuccessorVertexSet Edge getWeight
  cases g.succ[v]? with
  | none => simp
  | some m => simp [TreeMap.mem_keys]

def Incident (g : AdjacencyListDirectedGraph V) (v : V) : Prop :=
  ∃ w, g.Edge v w ∨ g.Edge w v

def edges (g : AdjacencyListDirectedGraph V) : List (V × V × ℚ) :=
  g.succ.toList.flatMap fun e => e.2.toList.map fun f => (e.1, f.1, f.2)

def addInverted (inv : AdjacencyListDirectedGraph V) (e : V × V × ℚ) :
    AdjacencyListDirectedGraph V :=
  (inv.addEdge e.2.1 e.1 e.2.2).1

theorem mem_edges (g : AdjacencyListDirectedGraph V) (v w : V) (x : ℚ) :
    (v, w, x) ∈ g.edges ↔ g.getWeight v w = some x := by
  simp only [edges, List.mem_flatMap, List.mem_map, Prod.exists, Prod.mk.injEq,
    TreeMap.mem_toList_iff_getElem?_eq_some, getWeight, Option.bind_eq_some_iff]
  constructor
  · rintro ⟨a, m, hm, b, y, hy, rfl, rfl, rfl⟩
    exact ⟨m, hm, hy⟩
  · rintro ⟨m, hm, hx⟩
    exact ⟨v, m, hm, w, x, hx, rfl, rfl, rfl⟩

theorem invert_eq_foldl (g : AdjacencyListDirectedGraph V) :
    g.invert = g.edges.foldl addInverted empty := by
  simp only [invert, edges, TreeMap.foldl_eq_foldl_toList, List.foldl_flatMap, List.foldl_map]
  rfl

theorem foldl_addInverted {es : List (V × V × ℚ)} {g : AdjacencyListDirectedGraph V}
    (hg : WellFormed g) : WellFormed (es.foldl addInverted g) ∧
      (∀ a b, (es.foldl addInverted g).Edge a b ↔ (∃ x, (b, a, x) ∈ es) ∨ g.Edge a b) ∧
      (∀ a, a ∈ (es.foldl addInverted g).succ ↔
        (∃ e ∈ es, a = e.1 ∨ a = e.2.1) ∨ a ∈ g.succ) := by
  induction es generalizing g with
  | nil => simp [hg]
  | cons e es ih =>
    obtain ⟨hwf, hedge, hmem⟩ := ih (hg.addEdge e.2.1 e.1 e.2.2)
    refine ⟨hwf, ?_, ?_⟩
    · intro a b
      rw [List.foldl_cons, addInverted, hedge, hg.edge_addEdge]
      constructor
      · rintro (⟨x, hx⟩ | ⟨rfl, rfl⟩ | h)
        · exact Or.inl ⟨x, List.mem_cons_of_mem e hx⟩
        · exact Or.inl ⟨e.2.2, List.mem_cons_self⟩
        · exact Or.inr h
      · rintro (⟨x, hx⟩ | h)
        · rcases List.mem_cons.mp hx with rfl | hx
          · exact Or.inr (Or.inl ⟨rfl, rfl⟩)
          · exact Or.inl ⟨x, hx⟩
        · exact Or.inr (Or.inr h)
    · intro a
      rw [List.foldl_cons, addInverted, hmem, mem_succ_addEdge]
      simp only [List.mem_cons, exists_eq_or_imp]
      constructor
      · rintro (h | h | h | h)
        · exact Or.inl (Or.inr h)
        · exact Or.inl (Or.inl (Or.inr h))
        · exact Or.inl (Or.inl (Or.inl h))
        · exact Or.inr h
      · rintro (((h | h) | h) | h)
        · exact Or.inr (Or.inr (Or.inl h))
        · exact Or.inr (Or.inl h)
        · exact Or.inl h
        · exact Or.inr (Or.inr (Or.inr h))

theorem wellFormed_invert (g : AdjacencyListDirectedGraph V) : WellFormed g.invert := by
  rw [invert_eq_foldl]
  exact (foldl_addInverted wellFormed_empty).1

theorem edge_invert (g : AdjacencyListDirectedGraph V) (v w : V) :
    g.invert.Edge w v ↔ g.Edge v w := by
  rw [invert_eq_foldl, (foldl_addInverted wellFormed_empty).2.1]
  simp [mem_edges, Edge, Option.isSome_iff_exists, empty, getWeight]

theorem mem_invert (g : AdjacencyListDirectedGraph V) (v : V) :
    v ∈ g.invert.succ ↔ g.Incident v := by
  rw [invert_eq_foldl, (foldl_addInverted wellFormed_empty).2.2]
  simp only [Incident, Edge, Option.isSome_iff_exists, Prod.exists, mem_edges]
  constructor
  · rintro (⟨a, b, x, hx, rfl | rfl⟩ | h)
    · exact ⟨b, Or.inl ⟨x, hx⟩⟩
    · exact ⟨a, Or.inr ⟨x, hx⟩⟩
    · simp [empty] at h
  · rintro ⟨w, ⟨x, hx⟩ | ⟨x, hx⟩⟩
    · exact Or.inl ⟨v, w, x, hx, Or.inl rfl⟩
    · exact Or.inl ⟨w, v, x, hx, Or.inr rfl⟩

end AdjacencyListDirectedGraph
