import Mathlib.Algebra.BigOperators.Group.List.Basic
import Mathlib.Algebra.Order.BigOperators.Group.List
import Mathlib.Data.List.Sort
import HTWGArchive.Library.Components

namespace SpanningForest

open Components

variable {V E : Type*}

-- Edges are data of their own, so that two edges may join the same ends at the same cost.
structure Graph (V E : Type*) where
  ends : E → V × V
  cost : E → ℤ

namespace Graph

variable (g : Graph V E)

def Joins (es : List E) : V → V → Prop :=
  Joined (es.map g.ends)

def total (es : List E) : ℤ :=
  (es.map g.cost).sum

noncomputable def count (es : List E) : ℕ :=
  classes (es.map g.ends)

def Acyclic (es : List E) : Prop :=
  ∀ as e bs, es = as ++ e :: bs → ¬ g.Joins (as ++ bs) (g.ends e).1 (g.ends e).2

structure Spanning (es fs : List E) : Prop where
  sub : fs.Subperm es
  acyclic : g.Acyclic fs
  joins_iff : ∀ a b, g.Joins fs a b ↔ g.Joins es a b

structure Minimum (es fs : List E) : Prop extends g.Spanning es fs where
  least : ∀ gs, g.Spanning es gs → g.total fs ≤ g.total gs

variable {g} {es fs gs : List E} {e : E} {a b : V}

theorem Joins.mono (h : g.Joins es a b) (hsub : es ⊆ fs) : g.Joins fs a b :=
  Joined.mono h (List.map_subset _ hsub)

theorem joins_perm (h : es.Perm fs) : g.Joins es a b ↔ g.Joins fs a b :=
  ⟨fun hj => hj.mono h.subset, fun hj => hj.mono h.symm.subset⟩

theorem Joins.append {es₂ fs₂ : List E} (hes : ∀ a b, g.Joins es a b → g.Joins fs a b)
    (hes₂ : ∀ a b, g.Joins es₂ a b → g.Joins fs₂ a b) (h : g.Joins (es ++ es₂) a b) :
    g.Joins (fs ++ fs₂) a b := by
  refine Joined.lift h ?_
  intro x y hmem
  rw [List.map_append, List.mem_append] at hmem
  rcases hmem with hmem | hmem
  · exact Joins.mono (hes x y (joined_of_mem hmem)) (List.subset_append_left _ _)
  · exact Joins.mono (hes₂ x y (joined_of_mem hmem)) (List.subset_append_right _ _)

theorem count_perm (h : es.Perm fs) : g.count es = g.count fs :=
  classes_perm (h.map _)

theorem count_congr (h : ∀ a b, g.Joins es a b ↔ g.Joins fs a b) : g.count es = g.count fs :=
  classes_congr h

theorem total_perm (h : es.Perm fs) : g.total es = g.total fs :=
  (h.map _).sum_eq

section Count

variable [Finite V]

omit [Finite V] in
theorem count_cons_of_joins (h : g.Joins es (g.ends e).1 (g.ends e).2) :
    g.count (e :: es) = g.count es :=
  classes_cons_of_joined h

theorem count_cons_of_not_joins (h : ¬ g.Joins es (g.ends e).1 (g.ends e).2) :
    g.count (e :: es) + 1 = g.count es :=
  classes_cons_of_not_joined h

theorem card_le (es : List E) : Nat.card V ≤ g.count es + es.length := by
  induction es with
  | nil => exact le_of_eq classes_nil.symm
  | cons e es ih =>
    by_cases h : g.Joins es (g.ends e).1 (g.ends e).2
    · rw [count_cons_of_joins h, List.length_cons]
      omega
    · have hcount := count_cons_of_not_joins h
      rw [List.length_cons]
      omega

omit [Finite V] in
theorem Acyclic.tail (h : g.Acyclic (e :: es)) : g.Acyclic es := by
  intro as f bs hsplit hj
  refine h (e :: as) f bs (by rw [hsplit]; rfl) (hj.mono ?_)
  exact List.subset_cons_self _ _

theorem acyclic_iff : g.Acyclic es ↔ g.count es + es.length = Nat.card V := by
  constructor
  · intro h
    induction es with
    | nil => exact classes_nil
    | cons e es ih =>
      have hcount := count_cons_of_not_joins (h [] e es rfl)
      have htail := ih h.tail
      rw [List.length_cons]
      simp only [List.nil_append] at hcount
      omega
  · rintro h as e bs rfl hj
    have hperm : (as ++ e :: bs).Perm (e :: (as ++ bs)) := List.perm_middle
    have hle := card_le (g := g) (as ++ bs)
    rw [count_perm hperm, hperm.length_eq, count_cons_of_joins hj, List.length_cons] at h
    omega

theorem acyclic_perm (h : es.Perm fs) : g.Acyclic es ↔ g.Acyclic fs := by
  rw [acyclic_iff, acyclic_iff, count_perm h, h.length_eq]

theorem Acyclic.cons (h : g.Acyclic es) (he : ¬ g.Joins es (g.ends e).1 (g.ends e).2) :
    g.Acyclic (e :: es) := by
  rw [acyclic_iff] at h ⊢
  have hcount := count_cons_of_not_joins he
  rw [List.length_cons]
  omega

theorem Acyclic.sublist (h : g.Acyclic fs) (hsub : es.Sublist fs) : g.Acyclic es := by
  induction hsub with
  | slnil => exact h
  | cons e _ ih => exact ih h.tail
  | cons_cons e hsub ih =>
    refine (ih h.tail).cons ?_
    intro hj
    exact h [] e _ rfl (hj.mono hsub.subset)

theorem Spanning.length_eq (hf : g.Spanning es fs) (hg : g.Spanning es gs) :
    fs.length = gs.length := by
  have hfc := acyclic_iff.mp hf.acyclic
  have hgc := acyclic_iff.mp hg.acyclic
  rw [count_congr hf.joins_iff] at hfc
  rw [count_congr hg.joins_iff] at hgc
  omega

end Count

-- What the greedy choice keeps of a list of edges.
inductive Greedy (g : Graph V E) : List E → List E → Prop where
  | nil : Greedy g [] []
  | skip {es fs : List E} {e : E} : Greedy g es fs → g.Joins fs (g.ends e).1 (g.ends e).2 →
      Greedy g (es ++ [e]) fs
  | take {es fs : List E} {e : E} : Greedy g es fs → ¬ g.Joins fs (g.ends e).1 (g.ends e).2 →
      Greedy g (es ++ [e]) (fs ++ [e])

def Sorted (g : Graph V E) (es : List E) : Prop :=
  es.Pairwise (fun e f => g.cost e ≤ g.cost f)

theorem Greedy.sublist (h : g.Greedy es fs) : fs.Sublist es := by
  induction h with
  | nil => exact List.Sublist.refl _
  | skip _ _ ih => exact ih.trans (List.sublist_append_left _ _)
  | take _ _ ih => exact ih.append (List.Sublist.refl _)

theorem joins_snoc (h : ∀ a b, g.Joins fs a b ↔ g.Joins es a b) (e : E) (a b : V) :
    g.Joins (fs ++ [e]) a b ↔ g.Joins (es ++ [e]) a b := by
  have hf : (fs ++ [e]).Perm (e :: fs) := List.perm_append_comm
  have he : (es ++ [e]).Perm (e :: es) := List.perm_append_comm
  rw [joins_perm hf, joins_perm he]
  have hcons : ∀ gs, g.Joins (e :: gs) a b ↔ g.Joins gs a b ∨
      (g.Joins gs a (g.ends e).1 ∧ g.Joins gs (g.ends e).2 b) ∨
      (g.Joins gs a (g.ends e).2 ∧ g.Joins gs (g.ends e).1 b) := fun gs => joined_cons
  simp only [hcons, h]

theorem joins_snoc_of_joins (he : g.Joins es (g.ends e).1 (g.ends e).2) (a b : V) :
    g.Joins (es ++ [e]) a b ↔ g.Joins es a b := by
  refine ⟨fun hj => Joined.lift hj ?_, fun hj => hj.mono (List.subset_append_left _ _)⟩
  intro x y hmem
  rw [List.map_append, List.mem_append] at hmem
  rcases hmem with hmem | hmem
  · exact joined_of_mem hmem
  · rw [List.map_singleton, List.mem_singleton] at hmem
    rw [← hmem] at he
    exact he

theorem Greedy.joins_iff (h : g.Greedy es fs) (a b : V) : g.Joins fs a b ↔ g.Joins es a b := by
  induction h generalizing a b with
  | nil => exact Iff.rfl
  | skip _ he ih =>
    rw [ih, joins_snoc_of_joins]
    exact (ih _ _).mp he
  | take _ _ ih => exact joins_snoc ih _ a b

theorem Sorted.snoc (h : g.Sorted (es ++ [e])) : g.Sorted es ∧ ∀ f ∈ es, g.cost f ≤ g.cost e := by
  obtain ⟨hes, -, hlast⟩ := List.pairwise_append.mp h
  exact ⟨hes, fun f hf => hlast f hf e (List.mem_singleton_self e)⟩

def upTo (g : Graph V E) (c : ℤ) (es : List E) : List E :=
  es.filter (fun e => g.cost e ≤ c)

theorem upTo_eq_self {c : ℤ} (h : ∀ e ∈ es, g.cost e ≤ c) : g.upTo c es = es :=
  List.filter_eq_self.mpr (by simpa using h)

theorem upTo_snoc_of_lt {c : ℤ} (h : c < g.cost e) : g.upTo c (es ++ [e]) = g.upTo c es := by
  simp [upTo, not_le.mpr h]

theorem Greedy.upTo (h : g.Greedy es fs) (hs : g.Sorted es) (c : ℤ) (a b : V) :
    g.Joins (g.upTo c fs) a b ↔ g.Joins (g.upTo c es) a b := by
  have hwhole : ∀ {es fs : List E}, g.Greedy es fs → (∀ e ∈ es, g.cost e ≤ c) →
      (g.Joins (g.upTo c fs) a b ↔ g.Joins (g.upTo c es) a b) := by
    intro es fs h hle
    rw [upTo_eq_self hle, upTo_eq_self (fun e he => hle e (h.sublist.subset he))]
    exact h.joins_iff a b
  have hall : ∀ {es : List E} {e : E}, g.Sorted (es ++ [e]) → g.cost e ≤ c →
      ∀ f ∈ es ++ [e], g.cost f ≤ c := by
    intro es e hs hle f hf
    rcases List.mem_append.mp hf with hf | hf
    · exact (hs.snoc.2 f hf).trans hle
    · rw [List.mem_singleton.mp hf]
      exact hle
  induction h with
  | nil => exact Iff.rfl
  | @skip es fs e h he ih =>
    rcases le_or_gt (g.cost e) c with hle | hgt
    · exact hwhole (h.skip he) (hall hs hle)
    · rw [upTo_snoc_of_lt hgt]
      exact ih hs.snoc.1
  | @take es fs e h he ih =>
    rcases le_or_gt (g.cost e) c with hle | hgt
    · exact hwhole (h.take he) (hall hs hle)
    · rw [upTo_snoc_of_lt hgt, upTo_snoc_of_lt hgt]
      exact ih hs.snoc.1

-- The list with more small members everywhere has the smaller sum.
theorem sum_le_of_countP_sorted {as bs : List ℤ} (ha : as.Pairwise (· ≥ ·))
    (hb : bs.Pairwise (· ≥ ·)) (hlength : as.length = bs.length)
    (hcount : ∀ c, bs.countP (· ≤ c) ≤ as.countP (· ≤ c)) : as.sum ≤ bs.sum := by
  induction as generalizing bs with
  | nil =>
    rw [List.length_eq_zero_iff.mp hlength.symm]
  | cons a as ih =>
    cases bs with
    | nil => simp at hlength
    | cons b bs =>
      obtain ⟨hamax, ha⟩ := List.pairwise_cons.mp ha
      obtain ⟨hbmax, hb⟩ := List.pairwise_cons.mp hb
      rw [List.length_cons, List.length_cons, Nat.add_right_cancel_iff] at hlength
      have hab : a ≤ b := by
        have hfull : (b :: bs).countP (· ≤ b) = (b :: bs).length := by
          rw [List.countP_eq_length]
          simpa using hbmax
        have hle := hcount b
        rw [hfull, List.length_cons, ← hlength, ← List.length_cons (a := a)] at hle
        have hall := List.countP_eq_length.mp (le_antisymm List.countP_le_length hle)
        simpa using hall a (List.mem_cons_self ..)
      rw [List.sum_cons, List.sum_cons]
      refine add_le_add hab (ih ha hb hlength ?_)
      intro c
      rcases le_or_gt a c with hac | hca
      · have hfull : as.countP (· ≤ c) = as.length := by
          rw [List.countP_eq_length]
          intro x hx
          simpa using (hamax x hx).trans hac
        rw [hfull, hlength]
        exact List.countP_le_length
      · have hle := hcount c
        have hfirst : ¬ decide (a ≤ c) = true := by simpa using hca
        rw [List.countP_cons, List.countP_cons, if_neg hfirst] at hle
        omega

theorem sum_le_of_countP {as bs : List ℤ} (hlength : as.length = bs.length)
    (hcount : ∀ c, bs.countP (· ≤ c) ≤ as.countP (· ≤ c)) : as.sum ≤ bs.sum := by
  have ha := List.perm_insertionSort (· ≥ ·) as
  have hb := List.perm_insertionSort (· ≥ ·) bs
  rw [← ha.sum_eq, ← hb.sum_eq]
  apply sum_le_of_countP_sorted
  · exact List.pairwise_insertionSort _ as
  · exact List.pairwise_insertionSort _ bs
  · rw [ha.length_eq, hb.length_eq, hlength]
  · intro c
    rw [ha.countP_eq, hb.countP_eq]
    exact hcount c

section Optimal

variable [Finite V]

theorem Greedy.acyclic (h : g.Greedy es fs) : g.Acyclic fs := by
  induction h with
  | nil =>
    intro as e bs hsplit
    simp at hsplit
  | skip _ _ ih => exact ih
  | take _ he ih =>
    rw [acyclic_perm List.perm_append_comm]
    exact ih.cons he

theorem Greedy.spanning (h : g.Greedy es fs) : g.Spanning es fs :=
  ⟨h.sublist.subperm, h.acyclic, h.joins_iff⟩

theorem count_append_le (as bs : List E) : g.count (as ++ bs) ≤ g.count bs := by
  induction as with
  | nil => exact le_refl _
  | cons e as ih =>
    by_cases he : g.Joins (as ++ bs) (g.ends e).1 (g.ends e).2
    · rw [List.cons_append, count_cons_of_joins he]
      exact ih
    · have hcount := count_cons_of_not_joins he
      rw [List.cons_append]
      omega

theorem Acyclic.length_le (hf : g.Acyclic fs) (hg : g.Acyclic gs) (hsub : gs.Subperm es)
    (hjoins : ∀ a b, g.Joins fs a b ↔ g.Joins es a b) : gs.length ≤ fs.length := by
  obtain ⟨ks, hks, hsublist⟩ := hsub
  obtain ⟨rest, hrest⟩ := hsublist.exists_perm_append
  have hle := count_append_le (g := g) rest ks
  rw [acyclic_iff] at hf hg
  rw [count_congr hjoins, count_perm (hrest.trans List.perm_append_comm)] at hf
  rw [← count_perm hks] at hg
  omega

theorem Acyclic.upTo (h : g.Acyclic fs) (c : ℤ) : g.Acyclic (g.upTo c fs) :=
  h.sublist List.filter_sublist

-- At every cost bound, no forest has more edges below the bound.
def Dominant (g : Graph V E) (es fs : List E) : Prop :=
  ∀ gs, gs.Subperm es → g.Acyclic gs → ∀ c, (g.upTo c gs).length ≤ (g.upTo c fs).length

theorem Greedy.dominant (h : g.Greedy es fs) (hs : g.Sorted es) : g.Dominant es fs := by
  intro gs hsub hgs c
  exact (h.acyclic.upTo c).length_le (hgs.upTo c) (hsub.filter _) (h.upTo hs c)

omit [Finite V] in
theorem upTo_perm {c : ℤ} (h : es.Perm fs) : (g.upTo c es).length = (g.upTo c fs).length :=
  (h.filter _).length_eq

omit [Finite V] in
theorem Dominant.perm {es' : List E} (h : g.Dominant es fs) (hp : es.Perm es') :
    g.Dominant es' fs :=
  fun gs hsub hgs c => h gs (hsub.trans hp.symm.subperm) hgs c

theorem Dominant.append {es₂ fs₂ : List E} (h : g.Dominant es fs) (h₂ : g.Dominant es₂ fs₂) :
    g.Dominant (es ++ es₂) (fs ++ fs₂) := by
  rintro gs ⟨ks, hperm, hsub⟩ hgs c
  obtain ⟨k₁, k₂, rfl, hk₁, hk₂⟩ := List.sublist_append_iff.mp hsub
  rw [← acyclic_perm hperm] at hgs
  rw [← upTo_perm hperm, upTo, upTo, List.filter_append, List.filter_append, List.length_append,
    List.length_append]
  exact Nat.add_le_add (h k₁ hk₁.subperm (hgs.sublist (List.sublist_append_left _ _)) c)
    (h₂ k₂ hk₂.subperm (hgs.sublist (List.sublist_append_right _ _)) c)

theorem Spanning.minimum (h : g.Spanning es fs) (hdom : g.Dominant es fs) : g.Minimum es fs := by
  refine ⟨h, ?_⟩
  intro gs hgs
  apply sum_le_of_countP
  · rw [List.length_map, List.length_map]
    exact h.length_eq hgs
  · intro c
    have hle := hdom gs hgs.sub hgs.acyclic c
    rw [List.countP_map, List.countP_map, List.countP_eq_length_filter,
      List.countP_eq_length_filter]
    exact hle

omit [Finite V] in
theorem Minimum.perm {es' : List E} (h : g.Minimum es fs) (hp : es.Perm es') :
    g.Minimum es' fs := by
  refine ⟨⟨h.sub.trans hp.subperm, h.acyclic, ?_⟩, ?_⟩
  · intro a b
    rw [h.joins_iff, joins_perm hp]
  · intro gs hgs
    refine h.least gs ⟨hgs.sub.trans hp.symm.subperm, hgs.acyclic, ?_⟩
    intro a b
    rw [hgs.joins_iff, joins_perm hp]

-- Whether a forest closes a cycle with other edges depends on what it joins only.
theorem Spanning.acyclic_append (hf : g.Spanning es fs) (hg : g.Spanning es gs) (as : List E) :
    g.Acyclic (as ++ fs) ↔ g.Acyclic (as ++ gs) := by
  have hcount : g.count (as ++ fs) = g.count (as ++ gs) := by
    refine count_congr (fun a b => ⟨Joins.append (fun _ _ hj => hj) ?_,
      Joins.append (fun _ _ hj => hj) ?_⟩)
    · intro x y hj
      rw [hg.joins_iff, ← hf.joins_iff]
      exact hj
    · intro x y hj
      rw [hf.joins_iff, ← hg.joins_iff]
      exact hj
  rw [acyclic_iff, acyclic_iff, List.length_append, List.length_append, hf.length_eq hg, hcount]

section Map

variable {F : Type*} {g' : Graph V F} {f : E → F}

omit [Finite V] in
theorem joins_map (hends : ∀ e, g'.ends (f e) = g.ends e) (es : List E) (a b : V) :
    g'.Joins (es.map f) a b ↔ g.Joins es a b := by
  have hlist : (es.map f).map g'.ends = es.map g.ends := by
    rw [List.map_map]
    exact List.map_congr_left (fun e _ => hends e)
  rw [Joins, hlist]
  exact Iff.rfl

omit [Finite V] in
theorem acyclic_map (hends : ∀ e, g'.ends (f e) = g.ends e) (es : List E) :
    g'.Acyclic (es.map f) ↔ g.Acyclic es := by
  constructor
  · rintro h as e bs rfl hj
    refine h (as.map f) (f e) (bs.map f) (by simp) ?_
    rw [← List.map_append, joins_map hends, hends]
    exact hj
  · intro h as x bs hsplit hj
    obtain ⟨as', rest, rfl, rfl, hrest⟩ := List.map_eq_append_iff.mp hsplit
    obtain ⟨e, bs', rfl, rfl, rfl⟩ := List.map_eq_cons_iff.mp hrest
    rw [← List.map_append, joins_map hends, hends] at hj
    exact h as' e bs' rfl hj

omit [Finite V] in
theorem total_map (hcost : ∀ e ∈ es, g'.cost (f e) = g.cost e) : g'.total (es.map f) = g.total es := by
  rw [total, List.map_map]
  exact congrArg List.sum (List.map_congr_left hcost)

theorem Minimum.map (h : g.Minimum es fs) (hends : ∀ e, g'.ends (f e) = g.ends e)
    (hcost : ∀ e ∈ es, g'.cost (f e) = g.cost e) : g'.Minimum (es.map f) (fs.map f) := by
  refine ⟨⟨?_, (acyclic_map hends fs).mpr h.acyclic, ?_⟩, ?_⟩
  · obtain ⟨ks, hperm, hsub⟩ := h.sub
    exact ⟨ks.map f, hperm.map f, hsub.map f⟩
  · intro a b
    rw [joins_map hends, joins_map hends]
    exact h.joins_iff a b
  · rintro gs ⟨⟨ls, hperm, hsub⟩, hacyclic, hjoins⟩
    obtain ⟨ks, hks, rfl⟩ := List.sublist_map_iff.mp hsub
    have hspanning : g.Spanning es ks := by
      refine ⟨hks.subperm, ?_, ?_⟩
      · rw [← acyclic_map hends, acyclic_perm hperm]
        exact hacyclic
      · intro a b
        rw [← joins_map hends, joins_perm hperm, hjoins, joins_map hends]
    rw [total_map (fun e he => hcost e (h.sub.subset he)), ← total_perm hperm,
      total_map (fun e he => hcost e (hks.subset he))]
    exact h.least ks hspanning

end Map

end Optimal

end Graph

end SpanningForest
