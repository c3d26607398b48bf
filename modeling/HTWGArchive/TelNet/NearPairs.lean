import Mathlib.Data.List.ProdSigma
import HTWGArchive.TelNet.Connections

namespace TelNetApplication

open Collections JavaInt SpanningForest

def manhattan (a b : TelKnoten) : Int :=
  |a.x.1 - b.x.1| + |a.y.1 - b.y.1|

def pairs : SpanningForest.Graph TelKnoten (TelKnoten × TelKnoten) where
  ends p := p
  cost p := manhattan p.1 p.2

def nearPairs (lbg : Int) (ks : List TelKnoten) : List (TelKnoten × TelKnoten) :=
  (ks.dedup ×ˢ ks.dedup).filter (fun p => p.1 ≠ p.2 ∧ manhattan p.1 p.2 ≤ lbg)

def Linked (ks : List TelKnoten) (ps : List (TelKnoten × TelKnoten)) : Prop :=
  ks ≠ [] ∧ ∀ a ∈ ks, ∀ b ∈ ks, pairs.Joins ps a b

theorem pairs_ends (w : TelVerbindung) : pairs.ends (network.ends w) = network.ends w :=
  rfl

theorem manhattan_nonneg (a b : TelKnoten) : 0 ≤ manhattan a b :=
  add_nonneg (abs_nonneg _) (abs_nonneg _)

theorem manhattan_comm (a b : TelKnoten) : manhattan a b = manhattan b a := by
  rw [manhattan, abs_sub_comm a.x.1, abs_sub_comm a.y.1, manhattan]

theorem manhattan_self (a : TelKnoten) : manhattan a a = 0 := by
  simp [manhattan]

theorem mem_nearPairs {lbg : Int} {ks : List TelKnoten} {a b : TelKnoten} :
    (a, b) ∈ nearPairs lbg ks ↔ (a ∈ ks ∧ b ∈ ks) ∧ a ≠ b ∧ manhattan a b ≤ lbg := by
  simp [nearPairs, List.mem_product]

theorem nodup_nearPairs (lbg : Int) (ks : List TelKnoten) : (nearPairs lbg ks).Nodup :=
  (ks.nodup_dedup.product ks.nodup_dedup).filter _

namespace TelNet

variable {Q : Type*} [Collections Q]

def addAll (t : TelNet Q) (ks : List TelKnoten) : TelNet Q :=
  ks.foldl (fun t k => (t.addTelKnoten k.x k.y).1) t

structure ConsidersEvery (t : TelNet Q) (ks : List TelKnoten) : Prop where
  connections : ∀ a ∈ ks, ∀ b ∈ ks, a ≠ b → manhattan a b ≤ t.lbg →
    ∃ w ∈ content t.telQueue, w.u = a ∧ w.v = b ∧ w.c = manhattan a b
  others : ∀ w ∈ content t.telQueue, w.u ∈ ks ∧ w.v ∈ ks ∧ w.u ≠ w.v ∧
    manhattan w.u w.v ≤ t.lbg ∧ w.c = manhattan w.u w.v
  computes : ∃ t' r, t.computeOptTelNet = some (t', r) ∧
    (r = true ↔ Linked ks (nearPairs t.lbg ks)) ∧
    (r = true → ∃ tree, pairs.Minimum (nearPairs t.lbg ks) tree ∧
      t'.getOptTelNetKosten = pairs.total tree)

variable {t t' : TelNet Q} {vs : List TelVerbindung} {ks : List TelKnoten} {a b knoten : TelKnoten}

def Admissible (lbg : Int) (a b : TelKnoten) : Prop :=
  (a.x ≠ b.x ∧ a.y ≠ b.y) ∧ manhattan a b ≤ lbg ∧ manhattan a b < maxValue

theorem Admissible.symm {lbg : Int} (h : Admissible lbg a b) : Admissible lbg b a := by
  rw [Admissible, manhattan_comm b a]
  exact ⟨⟨h.1.1.symm, h.1.2.symm⟩, h.2⟩

theorem dist_eq (hfit : manhattan a b ≤ maxValue) : dist a b = manhattan a b := by
  have hx := abs_nonneg (a.x.1 - b.x.1)
  have hy := abs_nonneg (a.y.1 - b.y.1)
  have habs : ∀ z : Int, |z| ≤ maxValue → JavaInt.abs (int z) = |z| := by
    intro z hz
    obtain ⟨hlow, hhigh⟩ := abs_le.mp hz
    have hmin : minValue < z := by
      unfold maxValue at hlow
      unfold minValue
      omega
    rw [int_eq hmin.le hhigh, JavaInt.abs_eq hmin]
  have hsum : |a.x.1 - b.x.1| + |a.y.1 - b.y.1| ≤ maxValue := hfit
  rw [dist, habs _ (by omega), habs _ (by omega), int_eq _ hsum]
  · rfl
  · unfold minValue
    omega

omit [Collections Q] in
theorem cost_of_le (hle : manhattan a b ≤ t.lbg) (hfit : manhattan a b ≤ maxValue) :
    t.cost a b = manhattan a b := by
  rw [cost, dist_eq hfit, if_pos hle]

omit [Collections Q] in
theorem admits_iff (hlbg : 0 ≤ t.lbg) (hfit : manhattan a b ≤ maxValue) :
    t.Admits a b ↔ Admissible t.lbg a b := by
  have hself : t.cost a a = 0 := by
    rw [cost_of_le (by rw [manhattan_self]; exact hlbg) (by rw [manhattan_self]; decide),
      manhattan_self]
  have hcost : t.cost a b < maxValue ↔ manhattan a b ≤ t.lbg ∧ manhattan a b < maxValue := by
    rw [cost, dist_eq hfit]
    split
    · rename_i hle
      exact ⟨fun hlt => ⟨hle, hlt⟩, fun h => h.2⟩
    · rename_i hgt
      exact ⟨fun hlt => absurd hlt (lt_irrefl _), fun h => absurd h.1 hgt⟩
  rw [Admits, Admissible, hself, hcost]
  exact ⟨fun ⟨hxy, _, h⟩ => ⟨⟨hxy.1.symm, hxy.2.symm⟩, h⟩,
    fun ⟨hxy, h⟩ => ⟨⟨hxy.1.symm, hxy.2.symm⟩, hlbg, h⟩⟩

-- What the queue holds before anything is computed.
structure Filled (t : TelNet Q) (ks : List TelKnoten) : Prop where
  numbered : t.Numbered
  fresh : t.Fresh
  known : ∀ k, k ∈ t.knots ↔ k ∈ ks
  unused : t.optTelNet = []
  nodup : ((content t.telQueue).map network.ends).Nodup
  ends : ∀ a b, (a, b) ∈ (content t.telQueue).map network.ends ↔
    (a ∈ ks ∧ b ∈ ks) ∧ Admissible t.lbg a b
  costs : ∀ w ∈ content t.telQueue, w.c = manhattan w.u w.v

theorem filled_new (lbg : Int) : Filled (new lbg : TelNet Q) [] := by
  have hempty : content (new lbg : TelNet Q).telQueue = [] := content_empty
  refine ⟨numbered_new lbg, fresh_new lbg, fun k => Iff.rfl, rfl, ?_, ?_, ?_⟩
  · rw [hempty]
    exact List.nodup_nil
  · rw [hempty]
    simp
  · rw [hempty]
    simp

theorem nodup_spokes {os : List TelKnoten} (hos : os.Nodup) (hnew : knoten ∉ os) :
    (spokes knoten os).Nodup := by
  induction os with
  | nil => exact List.nodup_nil
  | cons o os ih =>
    obtain ⟨ho, hos⟩ := List.nodup_cons.mp hos
    have hne : o ≠ knoten := fun heq => hnew (heq ▸ List.mem_cons_self ..)
    have hrest := ih hos (fun hmem => hnew (List.mem_cons_of_mem _ hmem))
    refine List.nodup_append.mpr ⟨by simp [hne, hne.symm], hrest, ?_⟩
    rintro p hp q hq rfl
    obtain ⟨o', ho', hcase⟩ := mem_spokes.mp hq
    simp only [List.mem_cons, List.not_mem_nil, or_false] at hp
    rcases hp with rfl | rfl
    · rcases hcase with heq | heq
      · rw [(Prod.mk.inj heq).1] at ho
        exact ho ho'
      · exact hne (Prod.mk.inj heq).1
    · rcases hcase with heq | heq
      · exact hne (Prod.mk.inj heq).2
      · rw [(Prod.mk.inj heq).2] at ho
        exact ho ho'

theorem Filled.added (h : Filled t ks) (hadd : Added t t' knoten vs) (hnew : knoten ∉ t.knots)
    (hlbg : 0 ≤ t.lbg) (hfit : ∀ k ∈ ks, manhattan k knoten ≤ maxValue) :
    Filled t' (ks ++ [knoten]) := by
  have hlbg' : t'.lbg = t.lbg := by rw [hadd.net]
  have hends := hadd.queue.map network.ends
  rw [List.map_append] at hends
  have hadmits : ∀ o ∈ t.knots, (t.Admits o knoten ↔ Admissible t.lbg o knoten) :=
    fun o ho => admits_iff hlbg (hfit o ((h.known o).mp ho))
  refine ⟨hadd.numbered hnew h.numbered, hadd.fresh, ?_, ?_, ?_, ?_, ?_⟩
  · intro k
    rw [hadd.knots, List.mem_append, List.mem_append, h.known]
  · rw [hadd.net]
    exact h.unused
  · rw [hends.nodup_iff]
    refine List.nodup_append.mpr ⟨h.nodup, ?_, ?_⟩
    · rw [hadd.ends.nodup_iff]
      refine nodup_spokes (h.numbered.distinct.filter _) ?_
      intro hmem
      exact hnew (List.mem_filter.mp hmem).1
    · rintro ⟨a, b⟩ hold p hp rfl
      obtain ⟨⟨ha, hb⟩, -⟩ := (h.ends a b).mp hold
      rw [← h.known] at ha hb
      obtain ⟨o, -, -, heq | heq⟩ := hadd.mem_ends.mp hp
      · exact hnew ((Prod.mk.inj heq).2 ▸ hb)
      · exact hnew ((Prod.mk.inj heq).1 ▸ ha)
  · intro a b
    rw [hends.mem_iff, List.mem_append, h.ends, hadd.mem_ends, hlbg']
    constructor
    · rintro (⟨⟨ha, hb⟩, hab⟩ | ⟨o, ho, hadm, heq | heq⟩)
      · exact ⟨⟨List.mem_append_left _ ha, List.mem_append_left _ hb⟩, hab⟩
      · obtain ⟨rfl, rfl⟩ := Prod.mk.inj heq
        exact ⟨⟨List.mem_append_left _ ((h.known _).mp ho), by simp⟩, (hadmits _ ho).mp hadm⟩
      · obtain ⟨rfl, rfl⟩ := Prod.mk.inj heq
        exact ⟨⟨by simp, List.mem_append_left _ ((h.known _).mp ho)⟩, ((hadmits _ ho).mp hadm).symm⟩
    · rintro ⟨⟨ha, hb⟩, hab⟩
      rcases List.mem_append.mp ha with ha | ha
      · rcases List.mem_append.mp hb with hb | hb
        · exact Or.inl ⟨⟨ha, hb⟩, hab⟩
        · rw [List.mem_singleton.mp hb] at hab ⊢
          have hmem := (h.known a).mpr ha
          exact Or.inr ⟨a, hmem, (hadmits a hmem).mpr hab, Or.inl rfl⟩
      · rw [List.mem_singleton.mp ha] at hab ⊢
        rcases List.mem_append.mp hb with hb | hb
        · have hmem := (h.known b).mpr hb
          exact Or.inr ⟨b, hmem, (hadmits b hmem).mpr hab.symm, Or.inr rfl⟩
        · rw [List.mem_singleton.mp hb] at hab
          exact absurd rfl hab.1.1
  · intro w hw
    rcases List.mem_append.mp (hadd.queue.mem_iff.mp hw) with hold | hw
    · exact h.costs w hold
    · obtain ⟨o, ho, hadm, hcase⟩ := hadd.mem_ends.mp (List.mem_map_of_mem hw)
      have hle := (hadmits o ho).mp hadm
      rw [hadd.costs w hw]
      rcases hcase with heq | heq
      · obtain ⟨hu, hv⟩ := Prod.mk.inj heq
        rw [hu, hv]
        exact cost_of_le hle.2.1 hle.2.2.le
      · obtain ⟨hu, hv⟩ := Prod.mk.inj heq
        rw [hu, hv]
        exact cost_of_le hle.symm.2.1 hle.symm.2.2.le

theorem Filled.congr {ls : List TelKnoten} (h : Filled t ks) (hmem : ∀ k, k ∈ ks ↔ k ∈ ls) :
    Filled t ls where
  numbered := h.numbered
  fresh := h.fresh
  known k := (h.known k).trans (hmem k)
  unused := h.unused
  nodup := h.nodup
  ends a b := by
    rw [h.ends, hmem, hmem]
  costs := h.costs

theorem addAll_snoc (t : TelNet Q) (ks : List TelKnoten) (knoten : TelKnoten) :
    t.addAll (ks ++ [knoten]) = ((t.addAll ks).addTelKnoten knoten.x knoten.y).1 := by
  rw [addAll, List.foldl_append]
  rfl

theorem filled_addAll {lbg : Int} (hlbg : 0 ≤ lbg) (ks : List TelKnoten)
    (hfit : ∀ a ∈ ks, ∀ b ∈ ks, manhattan a b ≤ maxValue) :
    Filled ((new lbg : TelNet Q).addAll ks) ks ∧ ((new lbg : TelNet Q).addAll ks).lbg = lbg := by
  induction ks using List.reverseRecOn with
  | nil => exact ⟨filled_new lbg, rfl⟩
  | append_singleton ks knoten ih =>
    have hsub : ∀ a ∈ ks, a ∈ ks ++ [knoten] := fun a ha => List.mem_append_left _ ha
    obtain ⟨hfilled, hlast⟩ := ih (fun a ha b hb => hfit a (hsub a ha) b (hsub b hb))
    rw [addAll_snoc]
    by_cases hknown : knoten ∈ ((new lbg : TelNet Q).addAll ks).knots
    · rw [addTelKnoten_known hknown]
      refine ⟨hfilled.congr ?_, hlast⟩
      intro k
      have hmem := (hfilled.known knoten).mp hknown
      rw [List.mem_append, List.mem_singleton]
      exact ⟨Or.inl, fun hk => hk.elim id (fun heq => heq ▸ hmem)⟩
    · obtain ⟨t', vs, hrun, hadd⟩ := addTelKnoten_new hfilled.fresh hknown
      rw [hrun]
      refine ⟨hfilled.added hadd hknown (hlast.symm ▸ hlbg) ?_, ?_⟩
      · intro k hk
        exact hfit k (hsub k hk) knoten (by simp)
      · rw [hadd.net]
        exact hlast

theorem Filled.wellFormed (h : Filled t ks) : t.WellFormed := by
  refine ⟨h.numbered, ?_⟩
  intro w hw
  obtain ⟨hends, -⟩ := (h.ends w.u w.v).mp (List.mem_map_of_mem hw)
  rw [h.known, h.known]
  exact hends

omit [Collections Q] in
theorem kosten_le (t : TelNet Q) : t.getOptTelNetKosten ≤ maxValue := by
  rw [getOptTelNetKosten]
  induction t.optTelNet using List.reverseRecOn with
  | nil => decide
  | append_singleton es e _ =>
    rw [List.foldl_append]
    exact (int_range _).2

theorem sum_eq {es : List TelVerbindung} {sum : Int} (hsum : 0 ≤ sum) (hpos : ∀ w ∈ es, 0 ≤ w.c)
    (hfit : sum + network.total es ≤ maxValue) :
    es.foldl (fun sum v => int (sum + v.c)) sum = sum + network.total es := by
  induction es generalizing sum with
  | nil => exact (add_zero sum).symm
  | cons e es ih =>
    have htotal : network.total (e :: es) = e.c + network.total es := List.sum_cons
    have he := hpos e (List.mem_cons_self ..)
    have hes : ∀ w ∈ es, 0 ≤ w.c := fun w hw => hpos w (List.mem_cons_of_mem _ hw)
    have hrest : 0 ≤ network.total es := by
      refine List.sum_nonneg ?_
      intro x hx
      obtain ⟨w, hw, rfl⟩ := List.mem_map.mp hx
      exact hes w hw
    rw [htotal] at hfit ⊢
    have hint : int (sum + e.c) = sum + e.c := by
      apply int_eq
      · unfold minValue
        omega
      · omega
    rw [List.foldl_cons, hint, ih (by omega) hes (by omega)]
    omega

def NoneLost (lbg : Int) (ks : List TelKnoten) : Prop :=
  ∀ a ∈ ks, ∀ b ∈ ks, a ≠ b → manhattan a b ≤ lbg →
    (a.x ≠ b.x ∧ a.y ≠ b.y) ∧ manhattan a b < maxValue

theorem Filled.perm_nearPairs (h : Filled t ks) (hnone : NoneLost t.lbg ks) :
    ((content t.telQueue).map network.ends).Perm (nearPairs t.lbg ks) := by
  rw [List.perm_ext_iff_of_nodup h.nodup (nodup_nearPairs _ _)]
  rintro ⟨a, b⟩
  rw [h.ends, mem_nearPairs]
  constructor
  · rintro ⟨hmem, hxy, hle, -⟩
    exact ⟨hmem, fun heq => hxy.1 (congrArg TelKnoten.x heq), hle⟩
  · rintro ⟨hmem, hne, hle⟩
    obtain ⟨hxy, hlt⟩ := hnone a hmem.1 b hmem.2 hne hle
    exact ⟨hmem, hxy, hle, hlt⟩

theorem Filled.connected_iff (h : Filled t ks)
    (hperm : ((content t.telQueue).map network.ends).Perm (nearPairs t.lbg ks)) :
    Connected t.knots (content t.telQueue) ↔ Linked ks (nearPairs t.lbg ks) := by
  have hne : t.knots ≠ [] ↔ ks ≠ [] := by
    rw [ne_eq, ne_eq, List.eq_nil_iff_forall_not_mem, List.eq_nil_iff_forall_not_mem]
    simp only [h.known]
  have hjoins : ∀ a b, network.Joins (content t.telQueue) a b ↔
      pairs.Joins (nearPairs t.lbg ks) a b := by
    intro a b
    rw [← Graph.joins_perm hperm]
    have hmap : pairs.Joins ((content t.telQueue).map network.ends) a b ↔
        network.Joins (content t.telQueue) a b := Graph.joins_map pairs_ends _ a b
    exact hmap.symm
  simp only [Connected, Linked, hne, h.known, hjoins]

theorem Filled.considersEvery (h : Filled t ks) (hnone : NoneLost t.lbg ks)
    (hcheap : Linked ks (nearPairs t.lbg ks) →
      ∃ tree, pairs.Minimum (nearPairs t.lbg ks) tree ∧ pairs.total tree ≤ maxValue) :
    ConsidersEvery t ks := by
  have hperm := h.perm_nearPairs hnone
  refine ⟨?_, ?_, ?_⟩
  · intro a ha b hb hne hle
    have hmem := hperm.mem_iff.mpr (mem_nearPairs.mpr ⟨⟨ha, hb⟩, hne, hle⟩)
    obtain ⟨w, hw, hends⟩ := List.mem_map.mp hmem
    obtain ⟨rfl, rfl⟩ := Prod.mk.inj hends
    exact ⟨w, hw, rfl, rfl, h.costs w hw⟩
  · intro w hw
    obtain ⟨⟨hu, hv⟩, hxy, hle, -⟩ := (h.ends w.u w.v).mp (List.mem_map_of_mem hw)
    exact ⟨hu, hv, fun heq => hxy.1 (congrArg TelKnoten.x heq), hle, h.costs w hw⟩
  · obtain ⟨t', r, order, added, hc⟩ := computed t h.wellFormed
    have hopt : t'.optTelNet = added := by
      rw [hc.net, h.unused]
      rfl
    have hresult := hc.result.trans (h.connected_iff hperm)
    refine ⟨t', r, hc.runs, hresult, ?_⟩
    intro hr
    have hmin : network.Minimum (content t.telQueue) added :=
      (hc.greedy.spanning.minimum (hc.greedy.dominant hc.sorted)).perm hc.perm
    have hmap : pairs.Minimum ((content t.telQueue).map network.ends) (added.map network.ends) :=
      hmin.map pairs_ends (fun w hw => (h.costs w hw).symm)
    have hnear := hmap.perm hperm
    have hcosts : ∀ w ∈ added, w.c = manhattan w.u w.v :=
      fun w hw => h.costs w (hmin.sub.subset hw)
    have htotal : pairs.total (added.map network.ends) = network.total added :=
      Graph.total_map (fun w hw => (hcosts w hw).symm)
    obtain ⟨tree, htree, hfit⟩ := hcheap (hresult.mp hr)
    have hle := hnear.least tree htree.toSpanning
    refine ⟨_, hnear, ?_⟩
    rw [getOptTelNetKosten, hopt, htotal, sum_eq (le_refl 0), zero_add]
    · intro w hw
      rw [hcosts w hw]
      exact manhattan_nonneg _ _
    · rw [htotal] at hle
      omega

theorem considers_every_iff {lbg : Int} (hlbg : 0 ≤ lbg) (ks : List TelKnoten)
    (hfit : ∀ a ∈ ks, ∀ b ∈ ks, manhattan a b ≤ maxValue) :
    ConsidersEvery ((new lbg : TelNet Q).addAll ks) ks ↔
      NoneLost lbg ks ∧ (Linked ks (nearPairs lbg ks) →
        ∃ tree, pairs.Minimum (nearPairs lbg ks) tree ∧ pairs.total tree ≤ maxValue) := by
  obtain ⟨h, hlast⟩ := filled_addAll (Q := Q) hlbg ks hfit
  constructor
  · rintro ⟨hconn, -, t', r, -, hr, hkosten⟩
    rw [hlast] at hconn hr hkosten
    refine ⟨?_, ?_⟩
    · intro a ha b hb hne hle
      obtain ⟨w, hw, rfl, rfl, -⟩ := hconn a ha b hb hne hle
      obtain ⟨-, hxy, -, hlt⟩ := (h.ends w.u w.v).mp (List.mem_map_of_mem hw)
      exact ⟨hxy, hlt⟩
    · intro hlinked
      obtain ⟨tree, hmin, heq⟩ := hkosten (hr.mpr hlinked)
      refine ⟨tree, hmin, ?_⟩
      rw [← heq]
      exact t'.kosten_le
  · rintro ⟨hnone, hcheap⟩
    rw [← hlast] at hnone hcheap
    exact h.considersEvery hnone hcheap

def knotenAt (x y : Int) (h : (minValue ≤ x ∧ x ≤ maxValue) ∧ minValue ≤ y ∧ y ≤ maxValue) :
    TelKnoten :=
  ⟨⟨x, h.1⟩, ⟨y, h.2⟩⟩

theorem considers_every_three :
    let ks := [knotenAt 1 1 (by decide), knotenAt 3 2 (by decide), knotenAt 4 7 (by decide)]
    ConsidersEvery ((new 7 : TelNet (List TelVerbindung)).addAll ks) ks ↔
      NoneLost 7 ks ∧ (Linked ks (nearPairs 7 ks) →
        ∃ tree, pairs.Minimum (nearPairs 7 ks) tree ∧ pairs.total tree ≤ maxValue) :=
  considers_every_iff (by decide) _ (by decide)

theorem knoten_in_one_row :
    let ks := [knotenAt 1 1 (by decide), knotenAt 3 1 (by decide)]
    ¬ ConsidersEvery ((new 7 : TelNet (List TelVerbindung)).addAll ks) ks := by
  intro ks h
  obtain ⟨w, hw, -⟩ := h.connections (knotenAt 1 1 (by decide)) (by decide)
    (knotenAt 3 1 (by decide)) (by decide) (by decide) (by decide)
  have hempty : content ((new 7 : TelNet (List TelVerbindung)).addAll ks).telQueue = [] := by
    decide +kernel
  rw [hempty] at hw
  cases hw

end TelNet

end TelNetApplication
