import HTWGArchive.TelNet.Connections

namespace TelNetApplication

open Collections SpanningForest

inductive Op where
  | add (knoten : TelKnoten)
  | compute

namespace TelNet

variable {Q : Type*} [Collections Q]

-- `last` is what the last computation gave, if no knot has been added since.
def Consistent : TelNet Q → Option (Bool × List TelVerbindung) → List Op → Prop
  | _, _, [] => True
  | t, last, .add k :: ops =>
    Consistent (t.addTelKnoten k.x k.y).1 (if (t.addTelKnoten k.x k.y).2 then none else last) ops
  | t, last, .compute :: ops =>
    ∃ t' r, computeOptTelNet t = some (t', r) ∧
      (network.Acyclic t'.optTelNet ∧ network.Minimum t'.created t'.optTelNet) ∧
      (r = true ↔ Connected t'.knots t'.created) ∧
      (∀ r₀ opt₀, last = some (r₀, opt₀) → r = r₀ ∧ t'.optTelNet = opt₀) ∧
      Consistent t' (some (r, t'.optTelNet)) ops

def Recomputable (t : TelNet Q) : Prop :=
  t.optTelNet = [] ∨
    (∃ fs, network.Spanning (content t.telQueue) fs ∧ network.Acyclic (t.optTelNet ++ fs)) ∧
      ¬ Connected t.knots t.created

def AllRecomputable : TelNet Q → List Op → Prop
  | _, [] => True
  | t, .add k :: ops => AllRecomputable (t.addTelKnoten k.x k.y).1 ops
  | t, .compute :: ops =>
    t.Recomputable ∧ ∀ t' r, computeOptTelNet t = some (t', r) → AllRecomputable t' ops

-- What holds of `optTelNet` after any calls, where `polled` has left the queue.
structure Kept (t : TelNet Q) (polled : List TelVerbindung) : Prop where
  numbered : t.Numbered
  fresh : t.Fresh
  created : t.created.Perm (polled ++ content t.telQueue)
  ends : ∀ w ∈ t.created, (w.u ∈ t.knots ∧ w.v ∈ t.knots) ∧ w.u ≠ w.v
  sub : t.optTelNet.Subperm polled
  joins : ∀ a b, network.Joins t.optTelNet a b ↔ network.Joins polled a b
  dominant : network.Dominant polled t.optTelNet

variable {t t' : TelNet Q} {polled vs : List TelVerbindung} {knoten : TelKnoten} {r : Bool}

theorem kept_new (lbg : Int) : Kept (new lbg : TelNet Q) [] where
  numbered := numbered_new lbg
  fresh := fresh_new lbg
  created := by
    have hempty : content (new lbg : TelNet Q).telQueue = [] := content_empty
    rw [hempty]
    exact List.Perm.refl _
  ends := by simp [new]
  sub := List.Subperm.refl _
  joins := fun _ _ => Iff.rfl
  dominant := Graph.Greedy.nil.dominant List.Pairwise.nil

theorem Kept.added (h : Kept t polled) (hadd : Added t t' knoten vs) (hnew : knoten ∉ t.knots) :
    Kept t' polled := by
  have hopt : t'.optTelNet = t.optTelNet := by rw [hadd.net]
  have hcreated : t'.created = t.created ++ vs := by rw [hadd.net]
  refine ⟨hadd.numbered hnew h.numbered, hadd.fresh, ?_, ?_, ?_, ?_, ?_⟩
  · rw [hcreated]
    refine (h.created.append_right vs).trans ?_
    rw [List.append_assoc]
    exact hadd.queue.symm.append_left polled
  · intro w hw
    rw [hcreated] at hw
    rcases List.mem_append.mp hw with hold | hw
    · obtain ⟨⟨hu, hv⟩, hne⟩ := h.ends w hold
      rw [hadd.knots]
      exact ⟨⟨List.mem_append_left _ hu, List.mem_append_left _ hv⟩, hne⟩
    · exact hadd.new_ends hw
  · rw [hopt]
    exact h.sub
  · rw [hopt]
    exact h.joins
  · rw [hopt]
    exact h.dominant

theorem Kept.add (h : Kept t polled) (knoten : TelKnoten) :
    Kept (t.addTelKnoten knoten.x knoten.y).1 polled := by
  by_cases hknown : knoten ∈ t.knots
  · rw [addTelKnoten_known hknown]
    exact h
  · obtain ⟨t', vs, hrun, hadd⟩ := addTelKnoten_new h.fresh hknown
    rw [hrun]
    exact h.added hadd hknown

theorem Kept.wellFormed (h : Kept t polled) : t.WellFormed := by
  refine ⟨h.numbered, ?_⟩
  intro w hw
  exact (h.ends w (h.created.mem_iff.mpr (List.mem_append_right _ hw))).1

structure Recomputed (t t' : TelNet Q) (r : Bool) (fs : List TelVerbindung) : Prop where
  runs : computeOptTelNet t = some (t', r)
  net : t' = { t with telQueue := t'.telQueue, optTelNet := t.optTelNet ++ fs }
  spanning : network.Spanning (content t.telQueue) fs
  dominant : network.Dominant t.created t'.optTelNet
  result : r = true ↔ Connected t.knots (content t.telQueue)

theorem Kept.compute (h : Kept t polled) :
    ∃ t' r fs, Recomputed t t' r fs ∧ ∃ polled', Kept t' polled' := by
  obtain ⟨t', r, order, fs, hc⟩ := computed t h.wellFormed
  obtain ⟨front, hperm, hgreedy, hsorted⟩ := hc.rest
  have hopt : t'.optTelNet = t.optTelNet ++ fs := by rw [hc.net]
  have hcreated : t'.created = t.created := by rw [hc.net]
  have hsplit : t.created.Perm (polled ++ front ++ content t'.telQueue) := by
    rw [List.append_assoc]
    exact h.created.trans (hperm.append_left polled)
  have horder := (hc.greedy.dominant hc.sorted).perm hc.perm
  have hspanning := hc.greedy.spanning
  refine ⟨t', r, fs, ⟨hc.runs, hc.net, ?_, ?_, hc.result⟩, polled ++ front, ?_, ?_, ?_, ?_, ?_, ?_, ?_⟩
  · exact ⟨hspanning.sub.trans hc.perm.subperm, hspanning.acyclic, fun a b => by
      rw [hspanning.joins_iff, Graph.joins_perm hc.perm]⟩
  · rw [hopt]
    exact (h.dominant.append horder).perm h.created.symm
  · rw [hc.net]
    exact ⟨h.numbered.distinct, h.numbered.numbers⟩
  · intro w hw
    rw [hcreated]
    exact h.fresh w (hperm.mem_iff.mpr (List.mem_append_right _ hw))
  · rw [hcreated]
    exact hsplit
  · rw [hc.net]
    exact h.ends
  · rw [hopt]
    exact h.sub.append hgreedy.sublist.subperm
  · intro a b
    rw [hopt]
    exact ⟨Graph.Joins.append (fun x y => (h.joins x y).mp) (fun x y => (hgreedy.joins_iff x y).mp),
      Graph.Joins.append (fun x y => (h.joins x y).mpr) (fun x y => (hgreedy.joins_iff x y).mpr)⟩
  · rw [hopt]
    exact h.dominant.append (hgreedy.dominant hsorted)

section Step

variable {fs : List TelVerbindung}

theorem Kept.minimum_iff (h : Kept t polled) (hr : Recomputed t t' r fs) :
    network.Minimum t'.created t'.optTelNet ↔ network.Acyclic (t.optTelNet ++ fs) := by
  have hopt : t'.optTelNet = t.optTelNet ++ fs := by rw [hr.net]
  have hcreated : t'.created = t.created := by rw [hr.net]
  rw [hcreated]
  constructor
  · intro hmin
    rw [← hopt]
    exact hmin.acyclic
  · intro hacyclic
    refine Graph.Spanning.minimum ⟨?_, ?_, ?_⟩ hr.dominant
    · rw [hopt]
      exact (h.sub.append hr.spanning.sub).trans h.created.symm.subperm
    · rw [hopt]
      exact hacyclic
    · intro a b
      rw [hopt, Graph.joins_perm h.created]
      exact ⟨Graph.Joins.append (fun x y => (h.joins x y).mp)
          (fun x y => (hr.spanning.joins_iff x y).mp),
        Graph.Joins.append (fun x y => (h.joins x y).mpr)
          (fun x y => (hr.spanning.joins_iff x y).mpr)⟩

-- The connections in the queue cannot connect what an earlier connection joins already.
theorem Kept.not_connected (h : Kept t polled) (hr : Recomputed t t' r fs)
    (hopt : t.optTelNet ≠ []) (hacyclic : network.Acyclic (t.optTelNet ++ fs)) :
    ¬ Connected t.knots (content t.telQueue) := by
  intro hconn
  obtain ⟨e, es, hes⟩ := List.exists_cons_of_ne_nil hopt
  have hmem : e ∈ t.created := by
    refine h.created.mem_iff.mpr (List.mem_append_left _ (h.sub.subset ?_))
    rw [hes]
    exact List.mem_cons_self ..
  obtain ⟨⟨hu, hv⟩, -⟩ := h.ends e hmem
  have hjoin := (hr.spanning.joins_iff e.u e.v).mpr (hconn.2 e.u hu e.v hv)
  rw [hes] at hacyclic
  exact hacyclic [] e (es ++ fs) rfl (hjoin.mono (List.subset_append_right _ _))

theorem Kept.step_iff (h : Kept t polled) (hr : Recomputed t t' r fs) :
    ((network.Acyclic t'.optTelNet ∧ network.Minimum t'.created t'.optTelNet) ∧
      (r = true ↔ Connected t'.knots t'.created)) ↔ t.Recomputable := by
  have hcreated : t'.created = t.created := by rw [hr.net]
  have hknots : t'.knots = t.knots := by rw [hr.net]; rfl
  have hmin := h.minimum_iff hr
  have hacyclic : (network.Acyclic t'.optTelNet ∧ network.Minimum t'.created t'.optTelNet) ↔
      network.Acyclic (t.optTelNet ++ fs) :=
    ⟨fun hboth => hmin.mp hboth.2, fun ha => ⟨(hmin.mpr ha).acyclic, hmin.mpr ha⟩⟩
  rw [hacyclic, hcreated, hknots, hr.result, Recomputable]
  rcases eq_or_ne t.optTelNet [] with hempty | hopt
  · have hjoins : ∀ a b, network.Joins (content t.telQueue) a b ↔ network.Joins t.created a b := by
      intro a b
      rw [Graph.joins_perm h.created]
      refine ⟨fun hj => hj.mono (List.subset_append_right _ _), fun hj => ?_⟩
      have hfirst : ∀ x y, network.Joins polled x y → network.Joins [] x y := by
        intro x y hxy
        rw [← hempty, h.joins]
        exact hxy
      exact Graph.Joins.append hfirst (fun _ _ hxy => hxy) hj
    refine ⟨fun _ => Or.inl hempty, fun _ => ⟨?_, ?_⟩⟩
    · rw [hempty]
      exact hr.spanning.acyclic
    · simp only [Connected, hjoins]
  · constructor
    · rintro ⟨ha, hconn⟩
      refine Or.inr ⟨⟨fs, hr.spanning, ha⟩, ?_⟩
      rw [← hconn]
      exact h.not_connected hr hopt ha
    · rintro (hempty | ⟨⟨gs, hgs, ha⟩, hconn⟩)
      · exact absurd hempty hopt
      · have hfs := (hgs.acyclic_append hr.spanning t.optTelNet).mp ha
        exact ⟨hfs, fun hc => absurd hc (h.not_connected hr hopt hfs), fun hc => absurd hc hconn⟩

end Step

-- What `last` says of the net.
def Remembers (t : TelNet Q) (last : Option (Bool × List TelVerbindung)) : Prop :=
  ∀ r₀ opt₀, last = some (r₀, opt₀) → t.optTelNet = opt₀ ∧ network.Spanning t.created opt₀ ∧
    (r₀ = true ↔ Connected t.knots t.created)

theorem Remembers.same {last : Option (Bool × List TelVerbindung)} {fs : List TelVerbindung}
    (h : t.Remembers last) (hr : Recomputed t t' r fs)
    (hmin : network.Minimum t'.created t'.optTelNet)
    (hresult : r = true ↔ Connected t'.knots t'.created) {r₀ : Bool} {opt₀ : List TelVerbindung}
    (hlast : last = some (r₀, opt₀)) : r = r₀ ∧ t'.optTelNet = opt₀ := by
  obtain ⟨hopt, hspanning, hr₀⟩ := h r₀ opt₀ hlast
  have hcreated : t'.created = t.created := by rw [hr.net]
  have hknots : t'.knots = t.knots := by rw [hr.net]; rfl
  have hopt' : t'.optTelNet = t.optTelNet ++ fs := by rw [hr.net]
  rw [hcreated] at hmin hresult
  rw [hknots] at hresult
  refine ⟨Bool.eq_iff_iff.mpr (hresult.trans hr₀.symm), ?_⟩
  have hlength := hmin.length_eq hspanning
  rw [hopt', hopt, List.length_append] at hlength
  rw [hopt', hopt, List.length_eq_zero_iff.mp (by omega : fs.length = 0), List.append_nil]

theorem Kept.consistent_iff {last : Option (Bool × List TelVerbindung)} (h : Kept t polled)
    (hlast : t.Remembers last) (ops : List Op) : t.Consistent last ops ↔ t.AllRecomputable ops := by
  induction ops generalizing t polled last with
  | nil => exact Iff.rfl
  | cons op ops ih =>
    cases op with
    | add k =>
      refine ih (h.add k) ?_
      by_cases hknown : k ∈ t.knots
      · rw [addTelKnoten_known hknown]
        exact hlast
      · obtain ⟨t', vs, hrun, -⟩ := addTelKnoten_new h.fresh hknown
        rw [hrun]
        intro r₀ opt₀ hnone
        cases hnone
    | compute =>
      obtain ⟨t', r, fs, hr, polled', hkept⟩ := h.compute
      have hstep := h.step_iff hr
      have hrest : network.Minimum t'.created t'.optTelNet →
          (r = true ↔ Connected t'.knots t'.created) →
          (t'.Consistent (some (r, t'.optTelNet)) ops ↔ t'.AllRecomputable ops) := by
        intro hmin hresult
        refine ih hkept ?_
        rintro r₀ opt₀ heq
        obtain ⟨rfl, rfl⟩ := Prod.mk.inj (Option.some.inj heq)
        exact ⟨rfl, hmin.toSpanning, hresult⟩
      rw [Consistent, AllRecomputable]
      constructor
      · rintro ⟨t₁, r₁, hrun, hmin, hresult, -, hops⟩
        rw [hr.runs] at hrun
        obtain ⟨rfl, rfl⟩ := Prod.mk.inj (Option.some.inj hrun)
        refine ⟨hstep.mp ⟨hmin, hresult⟩, ?_⟩
        intro t₂ r₂ hrun
        rw [hr.runs] at hrun
        obtain ⟨rfl, rfl⟩ := Prod.mk.inj (Option.some.inj hrun)
        exact (hrest hmin.2 hresult).mp hops
      · rintro ⟨hcond, hops⟩
        obtain ⟨hmin, hresult⟩ := hstep.mpr hcond
        exact ⟨t', r, hr.runs, hmin, hresult,
          fun r₀ opt₀ heq => hlast.same hr hmin.2 hresult heq,
          (hrest hmin.2 hresult).mpr (hops t' r hr.runs)⟩

theorem recompute_iff (lbg : Int) (ops : List Op) :
    (new lbg : TelNet Q).Consistent none ops ↔ (new lbg : TelNet Q).AllRecomputable ops := by
  refine (kept_new lbg).consistent_iff ?_ ops
  intro r₀ opt₀ hnone
  cases hnone

theorem recomputed_with_cycle :
    let a : TelKnoten := ⟨⟨1, by decide⟩, ⟨1, by decide⟩⟩
    let b : TelKnoten := ⟨⟨3, by decide⟩, ⟨2, by decide⟩⟩
    ¬ (new 7 : TelNet (List TelVerbindung)).Consistent none [.add a, .add b, .compute, .compute] := by
  intro a b h
  obtain ⟨t₁, r₁, hfirst, -, -, -, t₂, r₂, hsecond, -, -, hsame, -⟩ := h
  obtain ⟨-, hopt⟩ := hsame r₁ t₁.optTelNet rfl
  have hlengths : ∀ t : TelNet (List TelVerbindung),
      t = (((new 7).addTelKnoten a.x a.y).1.addTelKnoten b.x b.y).1 →
      (computeOptTelNet t).map (fun p => p.1.optTelNet.length) = some 1 ∧
      ((computeOptTelNet t).bind (fun p => computeOptTelNet p.1)).map
        (fun p => p.1.optTelNet.length) = some 2 := by
    rintro t rfl
    decide +kernel
  obtain ⟨hlen₁, hlen₂⟩ := hlengths _ rfl
  rw [hfirst, Option.map_some, Option.some.injEq] at hlen₁
  rw [hfirst, Option.bind_some, hsecond, Option.map_some, Option.some.injEq] at hlen₂
  rw [hopt, hlen₁] at hlen₂
  cases hlen₂

end TelNet

end TelNetApplication
