import Mathlib.Algebra.Order.Field.Basic
import Mathlib.Data.List.Sublists
import Mathlib.Data.Finset.Card
import Mathlib.Tactic

set_option linter.unusedSectionVars false

namespace LabelSetting

variable {V R : Type*} [Field R] [LinearOrder R] [IsStrictOrderedRing R]

inductive Path (weight : V → V → Option R) (s : V) : List V → V → R → Prop
  | nil : Path weight s [] s 0
  | snoc {vs v l w x} : Path weight s vs v l → weight v w = some x →
      Path weight s (vs ++ [v]) w (l + x)

def Reachable (weight : V → V → Option R) (s v : V) : Prop :=
  ∃ vs l, Path weight s vs v l

def Shortest (weight : V → V → Option R) (s v : V) (d : R) : Prop :=
  ∀ vs l, Path weight s vs v l → d ≤ l

def Distance (weight : V → V → Option R) (s v : V) (d : R) : Prop :=
  (∃ vs, Path weight s vs v d) ∧ Shortest weight s v d

def NonNegative (weight : V → V → Option R) : Prop :=
  ∀ v w x, weight v w = some x → 0 ≤ x

def LengthsBelow (weight : V → V → Option R) (s : V) (top : R) : Prop :=
  ∀ vs v l, Path weight s vs v l → (vs ++ [v]).Nodup → l < top

def Consistent (weight : V → V → Option R) (estimate : V → R) : Prop :=
  ∀ v w x, weight v w = some x → estimate v ≤ x + estimate w

section Paths

variable {weight : V → V → Option R} {s : V}

theorem nodup_snoc {vs : List V} {v : V} (hnd : vs.Nodup) (hv : v ∉ vs) : (vs ++ [v]).Nodup := by
  rw [← List.concat_eq_append]
  exact List.Nodup.concat hv hnd

theorem Path.snoc_inv {vs : List V} {u w : V} {l : R} (h : Path weight s (vs ++ [u]) w l) :
    ∃ l' x, Path weight s vs u l' ∧ weight u w = some x ∧ l = l' + x := by
  generalize hvs : vs ++ [u] = us at h
  cases h with
  | nil => simp at hvs
  | snoc hp hw =>
    obtain ⟨rfl, rfl⟩ := List.append_singleton_inj.mp hvs
    exact ⟨_, _, hp, hw, rfl⟩

theorem Path.nil_inv {v : V} {l : R} (h : Path weight s [] v l) : v = s ∧ l = 0 := by
  generalize hvs : ([] : List V) = us at h
  cases h with
  | nil => exact ⟨rfl, rfl⟩
  | snoc => simp at hvs

theorem Path.nonneg (hpos : NonNegative weight) {vs : List V} {v : V} {l : R}
    (h : Path weight s vs v l) : 0 ≤ l := by
  induction h with
  | nil => exact le_refl 0
  | snoc _ hw ih => exact add_nonneg ih (hpos _ _ _ hw)

theorem Path.le_length {m : R} (hm : ∀ v w x, weight v w = some x → x ≤ m) {vs : List V} {v : V}
    {l : R} (h : Path weight s vs v l) : l ≤ vs.length * m := by
  induction h with
  | nil => simp
  | snoc _ hw ih =>
    rw [List.length_append, List.length_singleton, Nat.cast_add, Nat.cast_one, add_mul, one_mul]
    exact add_le_add ih (hm _ _ _ hw)

theorem Path.sources {vs : List V} {v : V} {l : R} (h : Path weight s vs v l) :
    ∀ u ∈ vs, ∃ w, (weight u w).isSome := by
  induction h with
  | nil =>
    intro u hu
    cases hu
  | snoc _ hw ih =>
    intro u hu
    rcases List.mem_append.mp hu with hu | hu
    · exact ih u hu
    · rw [List.mem_singleton.mp hu]
      exact ⟨_, by rw [hw]; rfl⟩

theorem lengthsBelow_of_le {m top : R} {verts : Finset V}
    (hm : ∀ v w x, weight v w = some x → x ≤ m) (hm0 : 0 ≤ m)
    (hverts : ∀ v w, (weight v w).isSome → v ∈ verts) (htop : verts.card * m < top) :
    LengthsBelow weight s top := by
  classical
  intro vs v l hp hnd
  have hsub : vs.toFinset ⊆ verts := by
    intro u hu
    obtain ⟨w, hw⟩ := hp.sources u (List.mem_toFinset.mp hu)
    exact hverts u w hw
  have hlen : vs.length ≤ verts.card := by
    rw [← List.toFinset_card_of_nodup (List.nodup_append.mp hnd).1]
    exact Finset.card_le_card hsub
  calc l ≤ vs.length * m := hp.le_length hm
    _ ≤ verts.card * m := mul_le_mul_of_nonneg_right (Nat.cast_le.mpr hlen) hm0
    _ < top := htop

end Paths

structure State (V R : Type*) where
  dist : V → R
  done : List V
  waiting : List V

structure Starts (s : V) (top : R) (st : State V R) : Prop where
  source : st.dist s = 0
  others : ∀ v, v ≠ s → st.dist v = top
  done : st.done = []
  waiting : st.waiting = [s]

structure Expands (weight : V → V → Option R) (top : R) (u : V) (st st' : State V R) : Prop where
  done : st'.done = st.done ++ [u]
  kept : ∀ w, weight u w = none → st'.dist w = st.dist w
  relaxed : ∀ w x, weight u w = some x → st'.dist w = min (st.dist w) (st.dist u + x)
  waiting : ∃ rest news, st.waiting.Perm (u :: rest) ∧ st'.waiting.Perm (rest ++ news) ∧
    news.Nodup ∧ ∀ y, y ∈ news ↔ st.dist y = top ∧ (weight u y).isSome

structure Inv (weight : V → V → Option R) (s : V) (top : R) (st : State V R) : Prop where
  source : st.dist s = 0
  le_top : ∀ v, st.dist v ≤ top
  realized : ∀ v, st.dist v ≠ top → ∃ vs, Path weight s vs v (st.dist v) ∧ vs.Sublist st.done
  bounded : ∀ vs v l, Path weight s vs v l → vs.Sublist st.done → st.dist v ≤ l
  nodup : (st.done ++ st.waiting).Nodup
  discovered : ∀ v, st.dist v ≠ top ↔ v ∈ st.done ∨ v ∈ st.waiting
  explored : ∀ u ∈ st.done, ∀ w, (weight u w).isSome → st.dist w ≠ top

section Invariant

variable {weight : V → V → Option R} {s : V} {top : R} {st st' : State V R}

theorem top_pos (hshort : LengthsBelow weight s top) : 0 < top :=
  hshort [] s 0 .nil (by simp)

theorem Starts.inv (h : Starts s top st) (hshort : LengthsBelow weight s top) :
    Inv weight s top st := by
  have htop := top_pos hshort
  have heq : ∀ v, st.dist v ≠ top ↔ v = s := by
    intro v
    constructor
    · intro hv
      by_contra hne
      exact hv (h.others v hne)
    · rintro rfl
      rw [h.source]
      exact htop.ne
  constructor
  · exact h.source
  · intro v
    by_cases hv : v = s
    · rw [hv, h.source]
      exact htop.le
    · exact (h.others v hv).le
  · intro v hv
    obtain rfl := (heq v).mp hv
    exact ⟨[], by rw [h.source]; exact .nil, List.nil_sublist _⟩
  · intro vs v l hp hsub
    rw [h.done, List.sublist_nil] at hsub
    subst hsub
    obtain ⟨rfl, rfl⟩ := hp.nil_inv
    exact h.source.le
  · simp [h.done, h.waiting]
  · intro v
    rw [heq, h.done, h.waiting]
    simp
  · simp [h.done]

theorem Inv.dist_nonneg (hi : Inv weight s top st) (hpos : NonNegative weight) {v : V}
    (hv : st.dist v ≠ top) : 0 ≤ st.dist v := by
  obtain ⟨vs, hp, -⟩ := hi.realized v hv
  exact hp.nonneg hpos

theorem Inv.not_done (hi : Inv weight s top st) {u : V} (hu : u ∈ st.waiting) : u ∉ st.done :=
  fun hd => (List.nodup_append.mp hi.nodup).2.2 u hd u hu rfl

theorem Inv.discovered_waiting (hi : Inv weight s top st) {u : V} (hu : u ∈ st.waiting) :
    st.dist u ≠ top :=
  (hi.discovered u).mpr (Or.inr hu)

theorem Inv.dist_lt_top (hi : Inv weight s top st) (hshort : LengthsBelow weight s top) {u w : V}
    {x : R} (hu : u ∈ st.waiting) (hw : weight u w = some x) (hnew : st.dist w = top) :
    st.dist u + x < top := by
  obtain ⟨vs, hp, hsub⟩ := hi.realized u (hi.discovered_waiting hu)
  have hud := hi.not_done hu
  have hwd : w ∉ st.done := fun hd => (hi.discovered w).mpr (Or.inl hd) hnew
  have hwu : w ≠ u := by
    rintro rfl
    exact hi.discovered_waiting hu hnew
  apply hshort (vs ++ [u]) w _ (hp.snoc hw)
  have hnd : vs.Nodup := (List.nodup_append.mp hi.nodup).1.sublist hsub
  have huvs : u ∉ vs := fun hm => hud (hsub.subset hm)
  have hwvs : w ∉ vs := fun hm => hwd (hsub.subset hm)
  apply nodup_snoc (nodup_snoc hnd huvs)
  intro hm
  rcases List.mem_append.mp hm with hm | hm
  · exact hwvs hm
  · exact hwu (List.mem_singleton.mp hm)

theorem Expands.dist_le (h : Expands weight top u st st') (v : V) : st'.dist v ≤ st.dist v := by
  cases hw : weight u v with
  | none => exact (h.kept v hw).le
  | some x => rw [h.relaxed v x hw]; exact min_le_left _ _

theorem Expands.dist_ne_top (h : Expands weight top u st st') (hi : Inv weight s top st)
    {v : V} (hv : st.dist v ≠ top) : st'.dist v ≠ top :=
  ((h.dist_le v).trans_lt (lt_of_le_of_ne (hi.le_top v) hv)).ne

theorem Expands.discovered_iff (h : Expands weight top u st st') (hi : Inv weight s top st)
    (hshort : LengthsBelow weight s top) (hu : u ∈ st.waiting) (v : V) :
    st'.dist v ≠ top ↔ st.dist v ≠ top ∨ (weight u v).isSome := by
  constructor
  · intro hv
    cases hw : weight u v with
    | none =>
      rw [h.kept v hw] at hv
      exact Or.inl hv
    | some x => exact Or.inr rfl
  · rintro (hv | hv)
    · exact h.dist_ne_top hi hv
    · obtain ⟨x, hx⟩ := Option.isSome_iff_exists.mp hv
      by_cases hnew : st.dist v = top
      · rw [h.relaxed v x hx]
        exact ((min_le_right _ _).trans_lt (hi.dist_lt_top hshort hu hx hnew)).ne
      · exact h.dist_ne_top hi hnew

theorem Inv.realized_expand (hi : Inv weight s top st) (hu : u ∈ st.waiting)
    (h : Expands weight top u st st') (v : V) (hv : st'.dist v ≠ top) :
    ∃ vs, Path weight s vs v (st'.dist v) ∧ vs.Sublist st'.done := by
  have hkeep : st'.dist v = st.dist v →
      ∃ vs, Path weight s vs v (st'.dist v) ∧ vs.Sublist st'.done := by
    intro heq
    rw [heq] at hv ⊢
    obtain ⟨vs, hp, hsub⟩ := hi.realized v hv
    exact ⟨vs, hp, by rw [h.done]; exact hsub.trans (List.sublist_append_left _ _)⟩
  cases hw : weight u v with
  | none => exact hkeep (h.kept v hw)
  | some x =>
    rcases le_total (st.dist v) (st.dist u + x) with hle | hle
    · exact hkeep (by rw [h.relaxed v x hw, min_eq_left hle])
    · obtain ⟨vs, hp, hsub⟩ := hi.realized u (hi.discovered_waiting hu)
      refine ⟨vs ++ [u], ?_, ?_⟩
      · rw [h.relaxed v x hw, min_eq_right hle]
        exact hp.snoc hw
      · rw [h.done]
        exact hsub.append (List.Sublist.refl [u])

theorem Inv.bounded_expand (hi : Inv weight s top st) (h : Expands weight top u st st')
    (vs : List V) (v : V) (l : R) (hp : Path weight s vs v l) (hsub : vs.Sublist st'.done) :
    st'.dist v ≤ l := by
  rw [h.done] at hsub
  obtain ⟨as, bs, rfl, has, hbs⟩ := List.sublist_append_iff.mp hsub
  rcases List.sublist_singleton.mp hbs with rfl | rfl
  · rw [List.append_nil] at hp
    exact (h.dist_le v).trans (hi.bounded as v l hp has)
  · obtain ⟨l', x, hp', hw, rfl⟩ := hp.snoc_inv
    have hu : st.dist u ≤ l' := hi.bounded as u l' hp' has
    rw [h.relaxed v x hw]
    exact (min_le_right _ _).trans (add_le_add_left hu x)

theorem Inv.expand (hi : Inv weight s top st) (hpos : NonNegative weight)
    (hshort : LengthsBelow weight s top) (hu : u ∈ st.waiting)
    (h : Expands weight top u st st') : Inv weight s top st' := by
  have hdisc := h.discovered_iff hi hshort hu
  obtain ⟨rest, news, hrest, hnews, hnd, hmem⟩ := h.waiting
  have hwaiting : ∀ y, y ∈ st.waiting ↔ y = u ∨ y ∈ rest := by
    intro y
    rw [hrest.mem_iff, List.mem_cons]
  have hwaiting' : ∀ y, y ∈ st'.waiting ↔ y ∈ rest ∨ y ∈ news := by
    intro y
    rw [hnews.mem_iff, List.mem_append]
  constructor
  · cases hw : weight u s with
    | none => rw [h.kept s hw, hi.source]
    | some x =>
      have hu0 := hi.dist_nonneg hpos (hi.discovered_waiting hu)
      rw [h.relaxed s x hw, hi.source]
      exact min_eq_left (add_nonneg hu0 (hpos u s x hw))
  · exact fun v => (h.dist_le v).trans (hi.le_top v)
  · exact hi.realized_expand hu h
  · exact hi.bounded_expand h
  · have hfresh : ∀ y ∈ news, y ∉ st.done ∧ y ∉ st.waiting := by
      intro y hy
      have htop := ((hmem y).mp hy).1
      exact ⟨fun hd => (hi.discovered y).mpr (Or.inl hd) htop,
        fun hw => (hi.discovered y).mpr (Or.inr hw) htop⟩
    have hold : (st.done ++ u :: rest).Nodup := (hrest.append_left st.done).nodup_iff.mp hi.nodup
    rw [h.done, List.append_assoc, (hnews.append_left _ |>.append_left _).nodup_iff,
      ← List.append_assoc, ← List.append_assoc, List.append_assoc st.done, List.singleton_append]
    refine List.nodup_append.mpr ⟨hold, hnd, ?_⟩
    intro a ha b hb hab
    rw [hab] at ha
    rcases List.mem_append.mp ha with ha | ha
    · exact (hfresh b hb).1 ha
    · exact (hfresh b hb).2 (hrest.mem_iff.mpr ha)
  · intro v
    rw [hdisc, hi.discovered, hwaiting, hwaiting', h.done, List.mem_append, List.mem_singleton,
      hmem]
    constructor
    · rintro ((hv | hv | hv) | hv)
      · exact Or.inl (Or.inl hv)
      · exact Or.inl (Or.inr hv)
      · exact Or.inr (Or.inl hv)
      · by_cases htop : st.dist v = top
        · exact Or.inr (Or.inr ⟨htop, hv⟩)
        · rcases (hi.discovered v).mp htop with hd | hw
          · exact Or.inl (Or.inl hd)
          · rcases (hwaiting v).mp hw with hw | hw
            · exact Or.inl (Or.inr hw)
            · exact Or.inr (Or.inl hw)
    · rintro ((hv | hv) | hv | hv)
      · exact Or.inl (Or.inl hv)
      · exact Or.inl (Or.inr (Or.inl hv))
      · exact Or.inl (Or.inr (Or.inr hv))
      · exact Or.inr hv.2
  · intro v hv w hw
    rw [h.done] at hv
    rcases List.mem_append.mp hv with hv | hv
    · exact h.dist_ne_top hi (hi.explored v hv w hw)
    · rw [List.mem_singleton.mp hv] at hw
      exact (hdisc w).mpr (Or.inr hw)

end Invariant

section Settled

variable {weight : V → V → Option R} {s : V} {top : R} {st st' : State V R} {estimate : V → R}

structure Settled (weight : V → V → Option R) (s : V) (st : State V R) : Prop where
  final : ∀ u ∈ st.done, Shortest weight s u (st.dist u)
  relaxed : ∀ u ∈ st.done, ∀ w x, weight u w = some x → st.dist w ≤ st.dist u + x

def Selects (estimate : V → R) (st : State V R) (u : V) : Prop :=
  ∀ y ∈ st.waiting, st.dist u + estimate u ≤ st.dist y + estimate y

theorem Starts.settled (h : Starts s top st) : Settled weight s st := by
  constructor <;> simp [h.done]

-- Every path leaves the expanded vertices through the candidate list.
theorem Settled.frontier (hs : Settled weight s st) (hi : Inv weight s top st)
    (hshort : LengthsBelow weight s top) (hcons : Consistent weight estimate) {vs : List V} {v : V}
    {l : R} (hp : Path weight s vs v l) :
    v ∈ st.done ∨ ∃ y ∈ st.waiting, st.dist y + estimate y ≤ l + estimate v := by
  induction hp with
  | nil =>
    have hne : st.dist s ≠ top := by
      rw [hi.source]
      exact (top_pos hshort).ne
    rcases (hi.discovered s).mp hne with hd | hw
    · exact Or.inl hd
    · exact Or.inr ⟨s, hw, by rw [hi.source]⟩
  | @snoc vs v l w x hp hx ih =>
    rcases ih with hd | ⟨y, hy, hle⟩
    · have hw := hi.explored v hd w (by rw [hx]; rfl)
      rcases (hi.discovered w).mp hw with hwd | hww
      · exact Or.inl hwd
      · have hvw := hs.relaxed v hd w x hx
        have hvl := hs.final v hd vs l hp
        exact Or.inr ⟨w, hww, by linarith⟩
    · have hc := hcons v w x hx
      exact Or.inr ⟨y, hy, by linarith⟩

theorem Settled.selected (hs : Settled weight s st) (hi : Inv weight s top st)
    (hshort : LengthsBelow weight s top) (hcons : Consistent weight estimate) {u : V}
    (hu : u ∈ st.waiting) (hsel : Selects estimate st u) : Shortest weight s u (st.dist u) := by
  intro vs l hp
  rcases hs.frontier hi hshort hcons hp with hd | ⟨y, hy, hle⟩
  · exact absurd hd (hi.not_done hu)
  · have hmin := hsel y hy
    linarith

theorem Inv.dist_eq_of_shortest (hi' : Inv weight s top st') (h : Expands weight top u st st')
    (hi : Inv weight s top st) {v : V} (hv : st.dist v ≠ top)
    (hsh : Shortest weight s v (st.dist v)) : st'.dist v = st.dist v := by
  obtain ⟨vs, hp, -⟩ := hi'.realized v (h.dist_ne_top hi hv)
  exact le_antisymm (h.dist_le v) (hsh vs _ hp)

theorem Settled.expand (hs : Settled weight s st) (hi : Inv weight s top st)
    (hpos : NonNegative weight) (hshort : LengthsBelow weight s top)
    (hcons : Consistent weight estimate) {u : V} (hu : u ∈ st.waiting)
    (hsel : Selects estimate st u) (h : Expands weight top u st st') : Settled weight s st' := by
  have hi' := hi.expand hpos hshort hu h
  have hsh : ∀ v ∈ st'.done, st.dist v ≠ top ∧ Shortest weight s v (st.dist v) := by
    intro v hv
    rw [h.done] at hv
    rcases List.mem_append.mp hv with hv | hv
    · exact ⟨(hi.discovered v).mpr (Or.inl hv), hs.final v hv⟩
    · rw [List.mem_singleton.mp hv]
      exact ⟨hi.discovered_waiting hu, hs.selected hi hshort hcons hu hsel⟩
  have heq : ∀ v ∈ st'.done, st'.dist v = st.dist v := by
    intro v hv
    exact hi'.dist_eq_of_shortest h hi (hsh v hv).1 (hsh v hv).2
  constructor
  · intro v hv
    rw [heq v hv]
    exact (hsh v hv).2
  · intro v hv w x hx
    rw [heq v hv]
    rw [h.done] at hv
    rcases List.mem_append.mp hv with hv | hv
    · exact (h.dist_le w).trans (hs.relaxed v hv w x hx)
    · rw [List.mem_singleton.mp hv] at hx ⊢
      rw [h.relaxed w x hx]
      exact min_le_right _ _

end Settled

section Results

variable {weight : V → V → Option R} {s g : V} {top : R} {st : State V R}

theorem Inv.exhausted (hi : Inv weight s top st) (hshort : LengthsBelow weight s top)
    (hnone : st.waiting = []) {v : V} (hv : Reachable weight s v) : v ∈ st.done := by
  obtain ⟨vs, l, hp⟩ := hv
  have hdone : ∀ w, st.dist w ≠ top → w ∈ st.done := by
    intro w hw
    rcases (hi.discovered w).mp hw with hd | hw
    · exact hd
    · rw [hnone] at hw
      cases hw
  induction hp with
  | nil =>
    apply hdone
    rw [hi.source]
    exact (top_pos hshort).ne
  | snoc _ hx ih => exact hdone _ (hi.explored _ ih _ (by rw [hx]; rfl))

theorem Inv.unreachable (hi : Inv weight s top st) {v : V} (hv : ¬ Reachable weight s v) :
    st.dist v = top := by
  by_contra hne
  obtain ⟨vs, hp, -⟩ := hi.realized v hne
  exact hv ⟨vs, _, hp⟩

theorem Inv.reachable (hi : Inv weight s top st) {v : V} (hv : st.dist v ≠ top) :
    Reachable weight s v := by
  obtain ⟨vs, hp, -⟩ := hi.realized v hv
  exact ⟨vs, _, hp⟩

theorem Inv.distance_iff (hi : Inv weight s top st) {v : V} (hv : st.dist v ≠ top) :
    Distance weight s v (st.dist v) ↔
      ∃ vs l, Path weight s vs v l ∧ Shortest weight s v l ∧ vs.Sublist st.done := by
  constructor
  · intro hd
    obtain ⟨vs, hp, hsub⟩ := hi.realized v hv
    exact ⟨vs, _, hp, hd.2, hsub⟩
  · rintro ⟨vs, l, hp, hsh, hsub⟩
    obtain ⟨us, hq, -⟩ := hi.realized v hv
    have hle := hi.bounded vs v l hp hsub
    have heq : st.dist v = l := le_antisymm hle (hsh us _ hq)
    rw [heq]
    exact ⟨⟨vs, hp⟩, hsh⟩

end Results

end LabelSetting
