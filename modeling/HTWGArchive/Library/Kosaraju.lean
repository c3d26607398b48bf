import HTWGArchive.Library.DepthFirst

namespace DepthFirst

variable {V : Type*}

inductive Forest (adj : V → List V) : Set V → List V → List (List V) → Prop
  | nil {vis} : Forest adj vis [] []
  | skip {vis w ws cs} : w ∈ vis → Forest adj vis ws cs → Forest adj vis (w :: ws) cs
  | tree {vis w ws vis' es cs} : w ∉ vis → Explore adj (insert w vis) (adj w) vis' es →
      Forest adj vis' ws cs → Forest adj vis (w :: ws) ((post es ++ [w]) :: cs)

theorem Forest.reach {adj : V → List V} {vis : Set V} {ws : List V} {cs : List (List V)}
    (h : Forest adj vis ws cs) {c : List V} (hc : c ∈ cs) {x : V} (hx : x ∈ c) :
    ∃ w ∈ ws, Reach adj w x := by
  induction h with
  | nil => cases hc
  | skip _ _ ih =>
    obtain ⟨w, hw, hpath⟩ := ih hc
    exact ⟨w, List.mem_cons_of_mem _ hw, hpath⟩
  | @tree vis v ws vis' es cs _ hex _ ih =>
    rcases List.mem_cons.mp hc with rfl | hc
    · refine ⟨v, List.mem_cons_self, ?_⟩
      rcases List.mem_append.mp hx with hx | hx
      · obtain ⟨u, hu, hpath⟩ := hex.reach hx
        exact hpath.head hu
      · rw [List.mem_singleton.mp hx]
        exact .refl
    · obtain ⟨w, hw, hpath⟩ := ih hc
      exact ⟨w, List.mem_cons_of_mem _ hw, hpath⟩

structure Components (succ : V → List V) (vis : Set V) (ws : List V) (cs : List (List V)) :
    Prop where
  inhabited : ∀ c ∈ cs, ∃ x, x ∈ c
  fresh : ∀ c ∈ cs, ∀ x ∈ c, x ∉ vis
  covers : ∀ x ∈ ws, x ∈ vis ∨ ∃ c ∈ cs, x ∈ c
  strong : ∀ c ∈ cs, ∀ x ∈ c, ∀ y ∈ c, Reach succ x y
  ordered : ∀ (i : ℕ) (c : List V), cs[i]? = some c → ∀ x ∈ c, ∀ y, Reach succ y x →
    y ∈ vis ∨ ∃ j ≤ i, ∃ d, cs[j]? = some d ∧ y ∈ d
  disjoint : cs.Pairwise List.Disjoint

theorem Components.unique {succ : V → List V} {vis : Set V} {ws : List V} {cs : List (List V)}
    (h : Components succ vis ws cs) {i j : ℕ} {c d : List V} {x : V} (hi : cs[i]? = some c)
    (hc : x ∈ c) (hj : cs[j]? = some d) (hd : x ∈ d) : i = j := by
  obtain ⟨hi', rfl⟩ := List.getElem?_eq_some_iff.mp hi
  obtain ⟨hj', rfl⟩ := List.getElem?_eq_some_iff.mp hj
  have hdis := List.pairwise_iff_getElem.mp h.disjoint
  rcases lt_trichotomy i j with hij | hij | hij
  · exact absurd hd (hdis i j hi' hj' hij hc)
  · exact hij
  · exact absurd hc (hdis j i hj' hi' hij hd)

theorem Components.index_le {succ : V → List V} {ws : List V} {cs : List (List V)}
    (h : Components succ ∅ ws cs) {i j : ℕ} {c d : List V} {x y : V} (hi : cs[i]? = some c)
    (hx : x ∈ c) (hj : cs[j]? = some d) (hy : y ∈ d) (hpath : Reach succ x y) : i ≤ j := by
  rcases h.ordered j d hj y hy x hpath with hv | ⟨k, hkj, e, hk, hxe⟩
  · cases hv
  · obtain rfl : i = k := h.unique hi hx hk hxe
    exact hkj

def Upto (order : List V) (j : ℕ) (x : V) : Prop :=
  ∃ i ≤ j, order[i]? = some x

def StepUpto (succ : V → List V) (order : List V) (j : ℕ) (x y : V) : Prop :=
  y ∈ succ x ∧ Upto order j x ∧ Upto order j y

theorem index_unique {order : List V} (hnd : order.Nodup) {i j : ℕ} {x : V}
    (hi : order[i]? = some x) (hj : order[j]? = some x) : i = j := by
  obtain ⟨hi', hxi⟩ := List.getElem?_eq_some_iff.mp hi
  obtain ⟨hj', hxj⟩ := List.getElem?_eq_some_iff.mp hj
  exact (hnd.getElem_inj_iff).mp (hxi.trans hxj.symm)

-- The finishing-time argument: a path into `r` whose vertices all finish no later than `r`
-- starts at a vertex that `r` reaches.
theorem Laced.reach_back {succ : V → List V} {order : List V} (hl : Laced succ order)
    (hnd : order.Nodup) {j : ℕ} {r x : V} (hr : order[j]? = some r)
    (hpath : Relation.ReflTransGen (StepUpto succ order j) x r) :
    ∀ (i : ℕ), order[i]? = some x → ∀ (k : ℕ) (z : V), i ≤ k → k ≤ j → order[k]? = some z →
      Reach succ r z := by
  induction hpath using Relation.ReflTransGen.head_induction_on with
  | refl =>
    intro i hi k z hik hkj hk
    obtain rfl : i = j := index_unique hnd hi hr
    obtain rfl : k = i := le_antisymm hkj hik
    obtain rfl : r = z := Option.some.inj (hr.symm.trans hk)
    exact .refl
  | @head a b hab _ ih =>
    intro i hi k z hik hkj hk
    obtain ⟨hedge, -, m, hmj, hm⟩ := hab
    by_cases hkm : m ≤ k
    · exact ih m hm k z hkm hkj hk
    · have hrb : Reach succ r b := ih m hm m b (le_refl m) hmj hm
      have hbz : Reach succ b z := hl i m a b hi hm (by omega) hedge k z hik (by omega) hk
      exact hrb.trans hbz

theorem Laced.reach_start {succ : V → List V} {order : List V} (hl : Laced succ order)
    (hnd : order.Nodup) {j : ℕ} {r x : V} (hr : order[j]? = some r)
    (hx : Upto order j x) (hpath : Relation.ReflTransGen (StepUpto succ order j) x r) :
    Reach succ r x := by
  obtain ⟨i, hij, hi⟩ := hx
  exact hl.reach_back hnd hr hpath i hi i x (le_refl i) hij hi

section Kosaraju

variable {succ adj : V → List V} {order : List V}

structure Finished (succ adj : V → List V) (order : List V) : Prop where
  inverse : ∀ x y, y ∈ adj x ↔ x ∈ succ y
  laced : Laced succ order
  nodup : order.Nodup
  vertices : ∀ x y, y ∈ succ x → x ∈ order ∧ y ∈ order

def Ancestral (adj : V → List V) (vis : Set V) : Prop :=
  ∀ x ∈ vis, ∀ y ∈ adj x, y ∈ vis

theorem Ancestral.reach (hf : Finished succ adj order) {vis : Set V} (ha : Ancestral adj vis)
    {x y : V} (hx : x ∈ vis) (hpath : Reach succ y x) : y ∈ vis := by
  induction hpath using Relation.ReflTransGen.head_induction_on with
  | refl => exact hx
  | head hab _ ih => exact ha _ ih _ ((hf.inverse _ _).mpr hab)

theorem Ancestral.explore {vis vis' : Set V} {w : V} {es : List (Event V)}
    (ha : Ancestral adj vis) (h : Explore adj (insert w vis) (adj w) vis' es) :
    Ancestral adj vis' := by
  intro x hx y hy
  rcases (h.mem_iff x).mp hx with hx | hx
  · rcases Set.mem_insert_iff.mp hx with rfl | hx
    · exact h.worklist hy
    · exact h.subset (Set.mem_insert_of_mem _ (ha x hx y hy))
  · exact h.closed hx hy

theorem Finished.tree_reach (hf : Finished succ adj order) {vis vis' : Set V} {w : V}
    {es : List (Event V)} (hw : w ∉ vis) (h : Explore adj (insert w vis) (adj w) vis' es) {j : ℕ}
    (hj : order[j]? = some w)
    (habove : ∀ (i : ℕ) (x : V), order[i]? = some x → j < i → x ∈ vis) {x : V}
    (hx : x ∈ post es) : Reach succ x w ∧ Reach succ w x := by
  have hupto : ∀ a, a ∈ order → a ∉ vis → Upto order j a := by
    intro a ha hav
    obtain ⟨i, hi⟩ := List.mem_iff_getElem?.mp ha
    exact ⟨i, not_lt.mp fun hlt => hav (habove i a hi hlt), hi⟩
  have hback : ∀ a b, StepOutside adj vis a b → StepUpto succ order j b a := by
    rintro a b ⟨hab, hav, hbv⟩
    have hba := (hf.inverse a b).mp hab
    obtain ⟨hbo, hao⟩ := hf.vertices b a hba
    exact ⟨hba, hupto b hbo hbv, hupto a hao hav⟩
  obtain ⟨u, hu, huv, hpath⟩ := h.sound hx
  have hwu : StepOutside adj vis w u := ⟨hu, hw, fun hm => huv (Set.mem_insert_of_mem _ hm)⟩
  have hto : Relation.ReflTransGen (StepUpto succ order j) x w := by
    have hout := (outside_mono (Set.subset_insert w vis) hpath).head hwu
    exact Relation.ReflTransGen.mono (fun a b hs => hback b a hs) x w hout.swap
  refine ⟨Relation.ReflTransGen.mono (fun _ _ hs => hs.1) x w hto, ?_⟩
  rcases hto.cases_head with rfl | ⟨b, hxb, -⟩
  · exact .refl
  · exact hf.laced.reach_start hf.nodup hj hxb.2.1 hto

-- The trees of the rest, and before them a class whose ancestors have all been visited with it.
theorem Components.cons {vis vis' : Set V} {w : V} {ws tree : List V} {cs : List (List V)}
    (hrest : Components succ vis' ws cs) (hmem : ∀ x, x ∈ vis' ↔ x ∈ vis ∨ x ∈ tree)
    (hw : w ∈ tree) (hfresh : ∀ x ∈ tree, x ∉ vis)
    (hstrong : ∀ x ∈ tree, ∀ y ∈ tree, Reach succ x y)
    (hclosed : ∀ x ∈ tree, ∀ y, Reach succ y x → y ∈ vis') :
    Components succ vis (w :: ws) (tree :: cs) := by
  constructor
  · intro c hc
    rcases List.mem_cons.mp hc with rfl | hc
    · exact ⟨w, hw⟩
    · exact hrest.inhabited c hc
  · intro c hc x hx
    rcases List.mem_cons.mp hc with rfl | hc
    · exact hfresh x hx
    · exact fun hv => hrest.fresh c hc x hx ((hmem x).mpr (Or.inl hv))
  · intro x hx
    rcases List.mem_cons.mp hx with rfl | hx
    · exact Or.inr ⟨tree, List.mem_cons_self, hw⟩
    · rcases hrest.covers x hx with hv | ⟨c, hc, hxc⟩
      · rcases (hmem x).mp hv with hv | hv
        · exact Or.inl hv
        · exact Or.inr ⟨_, List.mem_cons_self, hv⟩
      · exact Or.inr ⟨c, List.mem_cons_of_mem _ hc, hxc⟩
  · intro c hc x hx y hy
    rcases List.mem_cons.mp hc with rfl | hc
    · exact hstrong x hx y hy
    · exact hrest.strong c hc x hx y hy
  · intro i c hi x hx y hyx
    cases i with
    | zero =>
      obtain rfl : tree = c := by simpa using hi
      rcases (hmem y).mp (hclosed x hx y hyx) with hy | hy
      · exact Or.inl hy
      · exact Or.inr ⟨0, le_refl 0, _, rfl, hy⟩
    | succ i =>
      rcases hrest.ordered i c (by simpa using hi) x hx y hyx with hy | ⟨j, hji, d, hd, hy⟩
      · rcases (hmem y).mp hy with hy | hy
        · exact Or.inl hy
        · exact Or.inr ⟨0, Nat.zero_le _, _, rfl, hy⟩
      · exact Or.inr ⟨j + 1, Nat.succ_le_succ hji, d, by simpa using hd, hy⟩
  · refine List.pairwise_cons.mpr ⟨?_, hrest.disjoint⟩
    intro c hc x hx hxc
    exact hrest.fresh c hc x hxc ((hmem x).mpr (Or.inr hx))

theorem Forest.components (hf : Finished succ adj order) {vis : Set V} {ws : List V}
    {cs : List (List V)} (h : Forest adj vis ws cs) (ha : Ancestral adj vis) {done : List V}
    (hsplit : order = ws.reverse ++ done) (hdone : ∀ x ∈ done, x ∈ vis) :
    Components succ vis ws cs := by
  induction h generalizing done with
  | nil =>
    exact ⟨by simp, by simp, by simp, by simp, by simp, List.Pairwise.nil⟩
  | @skip vis w ws cs hw _ ih =>
    have hsplit' : order = ws.reverse ++ w :: done := by simpa using hsplit
    have hrest := ih ha hsplit' (by
      intro x hx
      rcases List.mem_cons.mp hx with rfl | hx
      · exact hw
      · exact hdone x hx)
    refine ⟨hrest.inhabited, hrest.fresh, ?_, hrest.strong, hrest.ordered, hrest.disjoint⟩
    intro x hx
    rcases List.mem_cons.mp hx with rfl | hx
    · exact Or.inl hw
    · exact hrest.covers x hx
  | @tree vis w ws vis' es cs hw hex _ ih =>
    have hsplit' : order = ws.reverse ++ w :: done := by simpa using hsplit
    have hmem : ∀ x, x ∈ vis' ↔ x ∈ vis ∨ x ∈ post es ++ [w] := by
      intro x
      rw [hex.mem_iff x, Set.mem_insert_iff, List.mem_append, List.mem_singleton]
      tauto
    have ha' := ha.explore hex
    have hrest := ih ha' hsplit' (by
      intro x hx
      rcases List.mem_cons.mp hx with rfl | hx
      · exact (hmem x).mpr (Or.inr (by simp))
      · exact (hmem x).mpr (Or.inl (hdone x hx)))
    have hj : order[ws.length]? = some w := by
      rw [hsplit', List.getElem?_append_right (by simp)]
      simp
    have habove : ∀ (i : ℕ) (x : V), order[i]? = some x → ws.length < i → x ∈ vis := by
      intro i x hi hlt
      rw [hsplit'] at hi
      rcases getElem?_around hi with ⟨hl, -⟩ | ⟨hl, -⟩ | ⟨-, hd⟩
      · rw [List.length_reverse] at hl
        omega
      · rw [List.length_reverse] at hl
        omega
      · exact hdone x (List.mem_of_getElem? hd)
    have hboth : ∀ x ∈ post es ++ [w], Reach succ x w ∧ Reach succ w x := by
      intro x hx
      rcases List.mem_append.mp hx with hx | hx
      · exact hf.tree_reach hw hex hj habove hx
      · rw [List.mem_singleton] at hx
        subst hx
        exact ⟨.refl, .refl⟩
    exact hrest.cons hmem (by simp) (fun x hx hv => hw (ha.reach hf hv (hboth x hx).2))
      (fun x hx y hy => (hboth x hx).1.trans (hboth y hy).2)
      (fun x hx y hyx => ha'.reach hf ((hmem x).mpr (Or.inr hx)) hyx)

end Kosaraju

end DepthFirst
