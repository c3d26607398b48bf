import HTWGArchive.TelNet.Kruskal

namespace TelNetApplication

open Collections JavaInt

namespace TelNet

variable {Q : Type*} [Collections Q]

-- All that building connections can change.
structure Grown (t t' : TelNet Q) (vs : List TelVerbindung) : Prop where
  net : t' = { t with telQueue := t'.telQueue, created := t.created ++ vs }
  queue : (content t'.telQueue).Perm (content t.telQueue ++ vs)

def Fresh (t : TelNet Q) : Prop :=
  ∀ w ∈ content t.telQueue, w.ref < t.created.length

def Admits (t : TelNet Q) (andere knoten : TelKnoten) : Prop :=
  (knoten.x ≠ andere.x ∧ knoten.y ≠ andere.y) ∧
    t.cost andere andere ≤ t.lbg ∧ t.cost andere knoten < maxValue

instance (t : TelNet Q) (andere knoten : TelKnoten) : Decidable (t.Admits andere knoten) :=
  inferInstanceAs (Decidable (_ ∧ _))

def verbindungen (t : TelNet Q) (andere knoten : TelKnoten) : List TelVerbindung :=
  [⟨t.created.length, t.cost andere knoten, andere, knoten⟩,
    ⟨t.created.length + 1, t.cost knoten andere, knoten, andere⟩]

variable {t t' t₂ : TelNet Q} {vs ws : List TelVerbindung} {andere knoten : TelKnoten}

theorem Grown.refl (t : TelNet Q) : Grown t t [] where
  net := by rw [List.append_nil]
  queue := by rw [List.append_nil]

theorem Grown.trans (h : Grown t t' vs) (h₂ : Grown t' t₂ ws) : Grown t t₂ (vs ++ ws) where
  net := by
    rw [h₂.net, h.net]
    simp
  queue := by
    rw [← List.append_assoc]
    exact h₂.queue.trans (h.queue.append_right ws)

theorem Grown.cost (h : Grown t t' vs) (a b : TelKnoten) : t'.cost a b = t.cost a b := by
  rw [h.net]
  rfl

theorem Grown.admits (h : Grown t t' vs) : t'.Admits andere knoten ↔ t.Admits andere knoten := by
  rw [h.net]
  exact Iff.rfl

theorem connect_of_admits (hf : t.Fresh) (h : t.Admits andere knoten) :
    Grown t (connect knoten t andere) (t.verbindungen andere knoten) ∧
      (connect knoten t andere).Fresh := by
  have hnew : ¬ (content t.telQueue).any (fun w => w.ref == t.created.length) = true := by
    rw [List.any_eq_true]
    rintro ⟨w, hw, href⟩
    have hlt := hf w hw
    rw [beq_iff_eq.mp href] at hlt
    exact lt_irrefl _ hlt
  rw [connect, if_pos h.1, addTelVerbindung, if_pos h.2]
  simp only [if_neg hnew]
  have hperm : ∀ v1 v2, (content (add (add t.telQueue v1) v2)).Perm
      (content t.telQueue ++ [v1, v2]) := by
    intro v1 v2
    refine (content_add _ v2).trans (((content_add _ v1).cons v2).trans ?_)
    have hswap : (v2 :: v1 :: content t.telQueue).Perm ([v1, v2] ++ content t.telQueue) :=
      List.Perm.swap v1 v2 _
    exact hswap.trans List.perm_append_comm
  refine ⟨⟨rfl, hperm _ _⟩, ?_⟩
  intro w hw
  simp only [List.length_append, List.length_cons, List.length_nil]
  rcases List.mem_append.mp ((hperm _ _).mem_iff.mp hw) with hold | hnew
  · have hlt := hf w hold
    omega
  · simp only [List.mem_cons, List.not_mem_nil, or_false] at hnew
    rcases hnew with rfl | rfl
    · simp
    · simp

theorem connect_of_not_admits (h : ¬ t.Admits andere knoten) : connect knoten t andere = t := by
  unfold connect
  split
  · rename_i hxy
    exact if_neg (fun hcost => h ⟨hxy, hcost⟩)
  · rfl

-- The pairs a new knot is connected by.
def spokes (knoten : TelKnoten) (os : List TelKnoten) : List (TelKnoten × TelKnoten) :=
  os.flatMap (fun andere => [(andere, knoten), (knoten, andere)])

theorem foldl_connect (knoten : TelKnoten) (os : List TelKnoten) (hf : t.Fresh) :
    ∃ vs, Grown t (os.foldl (connect knoten) t) vs ∧ (os.foldl (connect knoten) t).Fresh ∧
      vs.map network.ends = spokes knoten (os.filter (fun o => t.Admits o knoten)) ∧
      ∀ w ∈ vs, w.c = t.cost w.u w.v := by
  induction os generalizing t with
  | nil => exact ⟨[], Grown.refl t, hf, rfl, by simp⟩
  | cons o os ih =>
    rw [List.foldl_cons]
    by_cases h : t.Admits o knoten
    · obtain ⟨hgrown, hfresh⟩ := connect_of_admits hf h
      obtain ⟨vs, hrest, hlast, hends, hcosts⟩ := ih hfresh
      refine ⟨t.verbindungen o knoten ++ vs, hgrown.trans hrest, hlast, ?_, ?_⟩
      · simp only [hgrown.admits] at hends
        rw [List.map_append, hends, List.filter_cons_of_pos (by simpa using h)]
        rfl
      · intro w hw
        rcases List.mem_append.mp hw with hnew | hrest
        · simp only [verbindungen, List.mem_cons, List.not_mem_nil, or_false] at hnew
          rcases hnew with rfl | rfl
          · rfl
          · rfl
        · rw [hcosts w hrest, hgrown.cost]
    · rw [connect_of_not_admits h, List.filter_cons_of_neg (by simpa using h)]
      exact ih hf

structure Added (t t' : TelNet Q) (knoten : TelKnoten) (vs : List TelVerbindung) : Prop where
  net : t' = { t with telMap := t.telMap ++ [(knoten, t.size)], size := t.size + 1,
                      telQueue := t'.telQueue, created := t.created ++ vs }
  queue : (content t'.telQueue).Perm (content t.telQueue ++ vs)
  fresh : t'.Fresh
  ends : (vs.map network.ends).Perm (spokes knoten (t.knots.filter (fun o => t.Admits o knoten)))
  costs : ∀ w ∈ vs, w.c = t.cost w.u w.v

omit [Collections Q] in
theorem mem_knots_iff : knoten ∈ t.knots ↔ (get t.telMap knoten).isSome = true := by
  rw [get, Option.isSome_map, List.find?_isSome, knots, List.mem_map]
  simp

theorem addTelKnoten_known (h : knoten ∈ t.knots) :
    t.addTelKnoten knoten.x knoten.y = (t, false) := by
  rw [addTelKnoten]
  exact if_pos (mem_knots_iff.mp h)

theorem addTelKnoten_new (hf : t.Fresh) (h : knoten ∉ t.knots) :
    ∃ t' vs, t.addTelKnoten knoten.x knoten.y = (t', true) ∧ Added t t' knoten vs := by
  rw [mem_knots_iff] at h
  obtain ⟨vs, hgrown, hfresh, hends, hcosts⟩ :=
    foldl_connect knoten
      (keySet (Q := Q) (t.telMap ++ [(knoten, t.size)]))
      (show Fresh { t with telMap := t.telMap ++ [(knoten, t.size)], size := t.size + 1 } from hf)
  refine ⟨_, vs, ?_, ⟨?_, hgrown.queue, hfresh, ?_, hcosts⟩⟩
  · rw [addTelKnoten]
    exact if_neg h
  · exact hgrown.net
  · rw [hends]
    have hkeys := (keySet_perm (Q := Q) (t.telMap ++ [(knoten, t.size)])).filter
      (fun o => decide (t.Admits o knoten))
    have hself : ¬ t.Admits knoten knoten := fun hadmits => hadmits.1.1 rfl
    rw [List.map_append, List.map_singleton, List.filter_append,
      List.filter_cons_of_neg (by simpa using hself), List.filter_nil, List.append_nil] at hkeys
    exact hkeys.flatMap_right _

theorem Added.knots (h : Added t t' knoten vs) : t'.knots = t.knots ++ [knoten] := by
  rw [h.net]
  exact List.map_append

theorem Added.numbered (h : Added t t' knoten vs) (hnew : knoten ∉ t.knots) (ht : t.Numbered) :
    t'.Numbered where
  distinct := by
    rw [h.knots]
    rw [← List.concat_eq_append]
    exact List.Nodup.concat hnew ht.distinct
  numbers := by
    rw [h.net]
    simp only [List.map_append, List.map_singleton, List.range_succ]
    exact ht.numbers.append_right _

theorem mem_spokes {os : List TelKnoten} {p : TelKnoten × TelKnoten} :
    p ∈ spokes knoten os ↔ ∃ o ∈ os, p = (o, knoten) ∨ p = (knoten, o) := by
  simp [spokes]

theorem Added.mem_ends (h : Added t t' knoten vs) {p : TelKnoten × TelKnoten} :
    p ∈ vs.map network.ends ↔
      ∃ o ∈ t.knots, t.Admits o knoten ∧ (p = (o, knoten) ∨ p = (knoten, o)) := by
  rw [h.ends.mem_iff, mem_spokes]
  simp [and_assoc]

theorem Added.new_ends (h : Added t t' knoten vs) {w : TelVerbindung} (hw : w ∈ vs) :
    (w.u ∈ t'.knots ∧ w.v ∈ t'.knots) ∧ w.u ≠ w.v := by
  obtain ⟨o, ho, hadmits, hp⟩ := h.mem_ends.mp (List.mem_map_of_mem hw)
  rw [h.knots]
  have hne : o ≠ knoten := fun heq => hadmits.1.1 (congrArg TelKnoten.x heq).symm
  rcases hp with hp | hp
  · obtain ⟨hu, hv⟩ := Prod.mk.inj hp
    rw [hu, hv]
    exact ⟨⟨by simp [ho], by simp⟩, hne⟩
  · obtain ⟨hu, hv⟩ := Prod.mk.inj hp
    rw [hu, hv]
    exact ⟨⟨by simp, by simp [ho]⟩, hne.symm⟩

theorem numbered_new (lbg : Int) : (new lbg : TelNet Q).Numbered where
  distinct := List.nodup_nil
  numbers := List.Perm.refl _

theorem fresh_new (lbg : Int) : (new lbg : TelNet Q).Fresh := by
  intro w hw
  have hempty : content (new lbg : TelNet Q).telQueue = [] := content_empty
  rw [hempty] at hw
  cases hw

end TelNet

end TelNetApplication
