import HTWGArchive.Library.LabelSetting

set_option linter.unusedSectionVars false

namespace LabelSetting

variable {V R : Type*} [Field R] [LinearOrder R] [IsStrictOrderedRing R]

inductive Chain (weight : V → V → Option R) (parent : V → Option V) (s : V) : List V → V → R → Prop
  | nil : Chain weight parent s [] s 0
  | snoc {vs v l w x} : Chain weight parent s vs v l → weight v w = some x →
      parent w = some v → w ≠ s → Chain weight parent s (vs ++ [v]) w (l + x)

def SetsParents (u : V) (dist dist' : V → R) (parent parent' : V → Option V) : Prop :=
  ∀ v, dist' v = dist v ∧ parent' v = parent v ∨ dist' v < dist v ∧ parent' v = some u

structure Labelled (weight : V → V → Option R) (s : V) (top : R) (dist : V → R)
    (parent : V → Option V) : Prop where
  source : dist s = 0
  le_top : ∀ v, dist v ≤ top
  root : parent s = none
  unlinked : ∀ v, dist v = top → parent v = none
  realized : ∀ v, dist v ≠ top → ∃ vs, Path weight s vs v (dist v)

structure Tree (weight : V → V → Option R) (s : V) (top : R) (st : State V R)
    (parent : V → Option V) : Prop where
  labelled : Labelled weight s top st.dist parent
  linked : ∀ v, st.dist v ≠ top → ∃ vs, Chain weight parent s vs v (st.dist v) ∧
    (vs ++ [v]).Nodup ∧ ∀ y ∈ vs, y ∈ st.done
  found : ∀ v, st.dist v ≠ top → v ∈ st.done ∨ v ∈ st.waiting
  expanded : ∀ u ∈ st.done, st.dist u ≠ top

variable {weight : V → V → Option R} {s : V} {top : R} {parent parent' : V → Option V}

section Chains

theorem Chain.path {vs : List V} {v : V} {l : R} (h : Chain weight parent s vs v l) :
    Path weight s vs v l := by
  induction h with
  | nil => exact .nil
  | snoc _ hx _ _ ih => exact ih.snoc hx

theorem Chain.congr {vs : List V} {v : V} {l : R} (h : Chain weight parent s vs v l)
    (hsame : ∀ y ∈ vs ++ [v], parent' y = parent y) : Chain weight parent' s vs v l := by
  induction h with
  | nil => exact .nil
  | @snoc vs v l w x _ hx hp hne ih =>
    have hw : parent' w = some v := by
      rw [hsame w (by simp), hp]
    exact (ih fun y hy => hsame y (List.mem_append_left _ hy)).snoc hx hw hne

theorem Path.to_member {vs : List V} {v : V} {l : R} (h : Path weight s vs v l) :
    ∀ w ∈ vs ++ [v], ∃ us m, Path weight s us w m ∧ us ++ [w] <+: vs ++ [v] := by
  induction h with
  | nil =>
    intro w hw
    obtain rfl : w = s := by simpa using hw
    exact ⟨[], 0, .nil, List.prefix_refl _⟩
  | @snoc vs v l w x hp hx ih =>
    intro y hy
    rcases List.mem_append.mp hy with hy | hy
    · obtain ⟨us, m, hus, hpre⟩ := ih y hy
      exact ⟨us, m, hus, hpre.trans (List.prefix_append _ _)⟩
    · rw [List.mem_singleton.mp hy]
      exact ⟨vs ++ [v], l + x, hp.snoc hx, List.prefix_refl _⟩

theorem Path.shorten {vs : List V} {v : V} {l : R} (h : Path weight s vs v l) :
    ∃ us m, Path weight s us v m ∧ (us ++ [v]).Nodup := by
  induction h with
  | nil => exact ⟨[], 0, .nil, by simp⟩
  | @snoc vs v l w x hp hx ih =>
    obtain ⟨us, m, hus, hnd⟩ := ih
    by_cases hw : w ∈ us ++ [v]
    · obtain ⟨ts, k, hts, hpre⟩ := hus.to_member w hw
      exact ⟨ts, k, hts, hnd.sublist hpre.sublist⟩
    · exact ⟨us ++ [v], m + x, hus.snoc hx, nodup_snoc hnd hw⟩

theorem LengthsBelow.reachable (hlen : LengthsBelow weight s top) {v : V}
    (hv : Reachable weight s v) : ∃ vs l, Path weight s vs v l ∧ l < top := by
  obtain ⟨vs, l, hp⟩ := hv
  obtain ⟨us, m, hus, hnd⟩ := hp.shorten
  exact ⟨us, m, hus, hlen us v m hus hnd⟩

end Chains

section Labels

variable {st st' : State V R} {u : V}

theorem Expands.lt_inv (h : Expands weight top u st st') {v : V} (hv : st'.dist v < st.dist v) :
    ∃ x, weight u v = some x ∧ st'.dist v = st.dist u + x := by
  cases hx : weight u v with
  | none => exact absurd (h.kept v hx) hv.ne
  | some x =>
    refine ⟨x, rfl, ?_⟩
    have hmin := h.relaxed v x hx
    rcases min_choice (st.dist v) (st.dist u + x) with hl | hr
    · exact absurd (hmin.trans hl) hv.ne
    · exact hmin.trans hr

theorem Starts.labelled (h : Starts s top st) (htop : 0 < top) (hnone : ∀ v, parent v = none) :
    Labelled weight s top st.dist parent where
  source := h.source
  le_top v := by
    by_cases hv : v = s
    · rw [hv, h.source]
      exact htop.le
    · exact (h.others v hv).le
  root := hnone s
  unlinked v _ := hnone v
  realized v hv := by
    by_cases hvs : v = s
    · rw [hvs, h.source]
      exact ⟨[], .nil⟩
    · exact absurd (h.others v hvs) hv

theorem Labelled.nonneg (hl : Labelled weight s top st.dist parent) (hpos : NonNegative weight)
    (htop : 0 < top) (v : V) : 0 ≤ st.dist v := by
  by_cases hv : st.dist v = top
  · rw [hv]
    exact htop.le
  · obtain ⟨vs, hp⟩ := hl.realized v hv
    exact hp.nonneg hpos

theorem Labelled.not_lt_source (hl : Labelled weight s top st.dist parent)
    (hpos : NonNegative weight) (htop : 0 < top) (h : Expands weight top u st st') :
    ¬ st'.dist s < st.dist s := by
  intro hlt
  obtain ⟨x, hx, heq⟩ := h.lt_inv hlt
  have hu := hl.nonneg hpos htop u
  have hx0 := hpos u s x hx
  rw [heq, hl.source] at hlt
  linarith

theorem Labelled.not_lt_of_top (hl : Labelled weight s top st.dist parent)
    (hpos : NonNegative weight) (h : Expands weight top u st st') (hu : st.dist u = top) (v : V) :
    ¬ st'.dist v < st.dist v := by
  intro hlt
  obtain ⟨x, hx, heq⟩ := h.lt_inv hlt
  have hx0 := hpos u v x hx
  have hv := hl.le_top v
  rw [heq, hu] at hlt
  linarith

theorem Labelled.expand (hl : Labelled weight s top st.dist parent) (hpos : NonNegative weight)
    (htop : 0 < top) (h : Expands weight top u st st')
    (hpar : SetsParents u st.dist st'.dist parent parent') :
    Labelled weight s top st'.dist parent' := by
  have hsource : st'.dist s = st.dist s ∧ parent' s = parent s := by
    rcases hpar s with hkeep | ⟨hlt, -⟩
    · exact hkeep
    · exact absurd hlt (hl.not_lt_source hpos htop h)
  constructor
  · rw [hsource.1, hl.source]
  · exact fun v => (h.dist_le v).trans (hl.le_top v)
  · rw [hsource.2, hl.root]
  · intro v hv
    rcases hpar v with ⟨hd, hp⟩ | ⟨hlt, -⟩
    · rw [hp]
      exact hl.unlinked v (hd.symm.trans hv)
    · exact absurd (hlt.trans_le (hl.le_top v)) hv.not_lt
  · intro v hv
    rcases hpar v with ⟨hd, -⟩ | ⟨hlt, -⟩
    · rw [hd] at hv ⊢
      exact hl.realized v hv
    · obtain ⟨x, hx, heq⟩ := h.lt_inv hlt
      have hu : st.dist u ≠ top := fun hu => hl.not_lt_of_top hpos h hu v hlt
      obtain ⟨vs, hp⟩ := hl.realized u hu
      rw [heq]
      exact ⟨vs ++ [u], hp.snoc hx⟩

end Labels

section Trees

variable {st st' : State V R} {u : V} {estimate : V → R}

theorem Starts.tree (h : Starts s top st) (htop : 0 < top) (hnone : ∀ v, parent v = none) :
    Tree weight s top st parent where
  labelled := h.labelled htop hnone
  linked v hv := by
    by_cases hvs : v = s
    · rw [hvs, h.source]
      exact ⟨[], .nil, by simp, by simp⟩
    · exact absurd (h.others v hvs) hv
  found v hv := by
    by_cases hvs : v = s
    · rw [hvs, h.waiting]
      exact Or.inr List.mem_cons_self
    · exact absurd (h.others v hvs) hv
  expanded := by simp [h.done]

theorem Tree.unchanged (ht : Tree weight s top st parent) (hs : Settled weight s st)
    (hu : st.dist u ≠ top) (hsh : Shortest weight s u (st.dist u))
    (h : Expands weight top u st st') {v : V} (hv : v ∈ st.done ∨ v = u) :
    ¬ st'.dist v < st.dist v := by
  intro hlt
  obtain ⟨x, hx, heq⟩ := h.lt_inv hlt
  obtain ⟨vs, hp⟩ := ht.labelled.realized u hu
  have hshv : Shortest weight s v (st.dist v) := by
    rcases hv with hv | rfl
    · exact hs.final v hv
    · exact hsh
  have hle := hshv (vs ++ [u]) _ (hp.snoc hx)
  rw [← heq] at hle
  exact absurd hlt hle.not_gt

theorem Tree.kept (ht : Tree weight s top st parent) (hs : Settled weight s st)
    (hu : st.dist u ≠ top) (hsh : Shortest weight s u (st.dist u))
    (h : Expands weight top u st st') (hpar : SetsParents u st.dist st'.dist parent parent')
    {v : V} (hv : v ∈ st.done ∨ v = u) : st'.dist v = st.dist v ∧ parent' v = parent v := by
  rcases hpar v with hkeep | ⟨hlt, -⟩
  · exact hkeep
  · exact absurd hlt (ht.unchanged hs hu hsh h hv)

theorem Tree.linked_expand (ht : Tree weight s top st parent) (hs : Settled weight s st)
    (hpos : NonNegative weight) (htop : 0 < top) (hu : st.dist u ≠ top)
    (hsh : Shortest weight s u (st.dist u)) (h : Expands weight top u st st')
    (hpar : SetsParents u st.dist st'.dist parent parent') (v : V) (hv : st'.dist v ≠ top) :
    ∃ vs, Chain weight parent' s vs v (st'.dist v) ∧ (vs ++ [v]).Nodup ∧ ∀ y ∈ vs, y ∈ st'.done := by
  have hkept := fun y hy => (ht.kept hs hu hsh h hpar (v := y) hy).2
  have hdone : ∀ y ∈ st.done, y ∈ st'.done := by
    intro y hy
    rw [h.done]
    exact List.mem_append_left _ hy
  rcases hpar v with ⟨hd, hp⟩ | ⟨hlt, hp⟩
  · rw [hd] at hv ⊢
    obtain ⟨vs, hc, hnd, hvs⟩ := ht.linked v hv
    refine ⟨vs, hc.congr ?_, hnd, fun y hy => hdone y (hvs y hy)⟩
    intro y hy
    rcases List.mem_append.mp hy with hy | hy
    · exact hkept y (Or.inl (hvs y hy))
    · rw [List.mem_singleton.mp hy, hp]
  · obtain ⟨x, hx, heq⟩ := h.lt_inv hlt
    obtain ⟨vs, hc, hnd, hvs⟩ := ht.linked u hu
    have hfresh : v ∉ vs ++ [u] := by
      intro hm
      refine ht.unchanged hs hu hsh h ?_ hlt
      rcases List.mem_append.mp hm with hm | hm
      · exact Or.inl (hvs v hm)
      · exact Or.inr (List.mem_singleton.mp hm)
    have hne : v ≠ s := by
      rintro rfl
      exact ht.labelled.not_lt_source hpos htop h hlt
    have hc' : Chain weight parent' s vs u (st.dist u) := by
      apply hc.congr
      intro y hy
      rcases List.mem_append.mp hy with hy | hy
      · exact hkept y (Or.inl (hvs y hy))
      · exact hkept y (Or.inr (List.mem_singleton.mp hy))
    refine ⟨vs ++ [u], ?_, nodup_snoc hnd hfresh, ?_⟩
    · rw [heq]
      exact hc'.snoc hx hp hne
    · intro y hy
      rcases List.mem_append.mp hy with hy | hy
      · exact hdone y (hvs y hy)
      · rw [h.done]
        exact List.mem_append_right _ hy

theorem Tree.expand (ht : Tree weight s top st parent) (hs : Settled weight s st)
    (hpos : NonNegative weight) (htop : 0 < top) (hu : st.dist u ≠ top)
    (hsh : Shortest weight s u (st.dist u)) (h : Expands weight top u st st')
    (hpar : SetsParents u st.dist st'.dist parent parent') : Tree weight s top st' parent' where
  labelled := ht.labelled.expand hpos htop h hpar
  linked := ht.linked_expand hs hpos htop hu hsh h hpar
  found v hv := by
    obtain ⟨rest, news, hrest, hnews, -, hmem⟩ := h.waiting
    rw [h.done, hnews.mem_iff, List.mem_append, List.mem_append, List.mem_singleton]
    by_cases hold : st.dist v = top
    · have hlt : st'.dist v < st.dist v := lt_of_le_of_ne (h.dist_le v) (hold ▸ hv)
      obtain ⟨x, hx, -⟩ := h.lt_inv hlt
      exact Or.inr (Or.inr ((hmem v).mpr ⟨hold, by rw [hx]; rfl⟩))
    · rcases ht.found v hold with hd | hw
      · exact Or.inl (Or.inl hd)
      · rcases List.mem_cons.mp (hrest.mem_iff.mp hw) with rfl | hw
        · exact Or.inl (Or.inr rfl)
        · exact Or.inr (Or.inl hw)
  expanded v hv := by
    rw [h.done] at hv
    have hold : st.dist v ≠ top := by
      rcases List.mem_append.mp hv with hv | hv
      · exact ht.expanded v hv
      · rw [List.mem_singleton.mp hv]
        exact hu
    exact ((h.dist_le v).trans_lt (lt_of_le_of_ne (ht.labelled.le_top v) hold)).ne

theorem Tree.settled_expand (ht : Tree weight s top st parent) (hs : Settled weight s st)
    (hu : st.dist u ≠ top) (hsh : Shortest weight s u (st.dist u))
    (h : Expands weight top u st st') (hpar : SetsParents u st.dist st'.dist parent parent') :
    Settled weight s st' := by
  have hkept := fun v hv => (ht.kept hs hu hsh h hpar (v := v) hv).1
  have hcases : ∀ v ∈ st'.done, v ∈ st.done ∨ v = u := by
    intro v hv
    rw [h.done] at hv
    simpa using hv
  constructor
  · intro v hv
    rw [hkept v (hcases v hv)]
    rcases hcases v hv with hv | rfl
    · exact hs.final v hv
    · exact hsh
  · intro v hv w x hx
    rw [hkept v (hcases v hv)]
    rcases hcases v hv with hv | rfl
    · exact (h.dist_le w).trans (hs.relaxed v hv w x hx)
    · rw [h.relaxed w x hx]
      exact min_le_right _ _

-- Every path shorter than `top` leaves the expanded vertices through a candidate with a label.
theorem Tree.frontier (ht : Tree weight s top st parent) (hs : Settled weight s st)
    (hpos : NonNegative weight) (hcons : Consistent weight estimate) {vs : List V} {v : V} {l : R}
    (hp : Path weight s vs v l) (hl : l < top) :
    v ∈ st.done ∨ ∃ y ∈ st.waiting, st.dist y ≠ top ∧ st.dist y + estimate y ≤ l + estimate v := by
  induction hp with
  | nil =>
    have hne : st.dist s ≠ top := by
      rw [ht.labelled.source]
      exact hl.ne
    rcases ht.found s hne with hd | hw
    · exact Or.inl hd
    · exact Or.inr ⟨s, hw, hne, by rw [ht.labelled.source]⟩
  | @snoc vs v l w x hp hx ih =>
    have hx0 := hpos v w x hx
    rcases ih (by linarith) with hd | ⟨y, hy, hne, hle⟩
    · have hvw := hs.relaxed v hd w x hx
      have hvl := hs.final v hd vs l hp
      have hlt : st.dist w < top := by linarith
      rcases ht.found w hlt.ne with hwd | hww
      · exact Or.inl hwd
      · exact Or.inr ⟨w, hww, hlt.ne, by linarith⟩
    · have hc := hcons v w x hx
      exact Or.inr ⟨y, hy, hne, by linarith⟩

theorem Tree.selected (ht : Tree weight s top st parent) (hs : Settled weight s st)
    (hpos : NonNegative weight) (hcons : Consistent weight estimate) (hsel : Selects estimate st u) :
    Shortest weight s u (st.dist u) := by
  intro vs l hp
  rcases le_or_gt top l with hl | hl
  · exact (ht.labelled.le_top u).trans hl
  · rcases ht.frontier hs hpos hcons hp hl with hd | ⟨y, hy, -, hle⟩
    · exact hs.final u hd vs l hp
    · have hmin := hsel y hy
      linarith

theorem Tree.not_top (ht : Tree weight s top st parent) (hs : Settled weight s st)
    (hpos : NonNegative weight) (hcons : Consistent weight estimate)
    (hsel : Selects estimate st u) {g : V} (hg : g ∉ st.done)
    (hnear : ∃ vs l, Path weight s vs g l ∧ l < top) (hest : estimate g ≤ estimate u) :
    st.dist u ≠ top := by
  intro hu
  obtain ⟨vs, l, hp, hl⟩ := hnear
  rcases ht.frontier hs hpos hcons hp hl with hd | ⟨y, hy, -, hle⟩
  · exact hg hd
  · have hmin := hsel y hy
    linarith

theorem Tree.waiting_expand (ht : Tree weight s top st parent) (hlen : LengthsBelow weight s top)
    (hwait : ∀ y ∈ st.waiting, st.dist y ≠ top) (hu : u ∈ st.waiting)
    (h : Expands weight top u st st') : ∀ y ∈ st'.waiting, st'.dist y ≠ top := by
  obtain ⟨rest, news, hrest, hnews, -, hmem⟩ := h.waiting
  intro y hy
  rcases List.mem_append.mp (hnews.mem_iff.mp hy) with hy | hy
  · have hold := hwait y (hrest.mem_iff.mpr (List.mem_cons_of_mem u hy))
    exact ((h.dist_le y).trans_lt (lt_of_le_of_ne (ht.labelled.le_top y) hold)).ne
  · obtain ⟨hy, hedge⟩ := (hmem y).mp hy
    obtain ⟨x, hx⟩ := Option.isSome_iff_exists.mp hedge
    have hutop := hwait u hu
    obtain ⟨vs, hc, hnd, hvs⟩ := ht.linked u hutop
    have hfresh : y ∉ vs ++ [u] := by
      intro hm
      rcases List.mem_append.mp hm with hm | hm
      · exact ht.expanded y (hvs y hm) hy
      · rw [← List.mem_singleton.mp hm] at hutop
        exact hutop hy
    have hlt : st.dist u + x < top :=
      hlen (vs ++ [u]) y _ (hc.path.snoc hx) (nodup_snoc hnd hfresh)
    rw [h.relaxed y x hx]
    exact ((min_le_right _ _).trans_lt hlt).ne

end Trees

section Termination

variable {st st' : State V R} {u : V}

def unlabelled (verts : Finset V) (top : R) (st : State V R) : Finset V :=
  verts.filter fun v => st.dist v = top

def pending (top : R) (st : State V R) : ℕ :=
  st.waiting.countP fun v => st.dist v ≠ top

-- A vertex is labelled for the first time, or a labelled candidate leaves the list for good.
theorem Expands.measure_lt (h : Expands weight top u st st') (hle : ∀ v, st.dist v ≤ top)
    (hu : st.dist u ≠ top) {verts : Finset V} (hverts : ∀ v w, (weight v w).isSome → w ∈ verts) :
    Prod.Lex (· < ·) (· < ·) ((unlabelled verts top st').card, pending top st')
      ((unlabelled verts top st).card, pending top st) := by
  have hback : ∀ v, st'.dist v = top → st.dist v = top := by
    intro v hv
    exact le_antisymm (hle v) (hv ▸ h.dist_le v)
  have hsub : unlabelled verts top st' ⊆ unlabelled verts top st := by
    intro v hv
    rw [unlabelled, Finset.mem_filter] at hv ⊢
    exact ⟨hv.1, hback v hv.2⟩
  by_cases hnew : ∃ v, st.dist v = top ∧ st'.dist v ≠ top
  · obtain ⟨v, hv, hv'⟩ := hnew
    have hlt : st'.dist v < st.dist v := lt_of_le_of_ne (h.dist_le v) (hv ▸ hv')
    obtain ⟨x, hx, -⟩ := h.lt_inv hlt
    apply Prod.Lex.left
    apply Finset.card_lt_card
    refine Finset.ssubset_iff_of_subset hsub |>.mpr ⟨v, ?_, ?_⟩
    · rw [unlabelled, Finset.mem_filter]
      exact ⟨hverts u v (by rw [hx]; rfl), hv⟩
    · rw [unlabelled, Finset.mem_filter]
      exact fun hm => hv' hm.2
  · have hsame : ∀ v, st'.dist v = top ↔ st.dist v = top := by
      intro v
      refine ⟨hback v, fun hv => ?_⟩
      by_contra hne
      exact hnew ⟨v, hv, hne⟩
    have hcard : unlabelled verts top st' = unlabelled verts top st := by
      simp only [unlabelled, hsame]
    rw [hcard]
    apply Prod.Lex.right
    obtain ⟨rest, news, hrest, hnews, -, hmem⟩ := h.waiting
    have hnone : news.countP (fun v => st.dist v ≠ top) = 0 := by
      rw [List.countP_eq_zero]
      intro y hy
      simpa using ((hmem y).mp hy).1
    rw [pending, pending, hnews.countP_eq, hrest.countP_eq]
    simp only [ne_eq, hsame] at hnone ⊢
    rw [List.countP_append, hnone, List.countP_cons_of_pos (by simpa using hu)]
    omega

end Termination

end LabelSetting
