import Mathlib.Logic.Relation
import Mathlib.Data.Set.Insert
import Mathlib.Data.Finset.Card
import Mathlib.Data.Finset.Filter
import Mathlib.Tactic

namespace DepthFirst

variable {V : Type*}

inductive Event (V : Type*) where
  | enter (v : V)
  | leave (v : V)

def pre : List (Event V) → List V
  | [] => []
  | .enter v :: es => v :: pre es
  | .leave _ :: es => pre es

def post : List (Event V) → List V
  | [] => []
  | .enter _ :: es => post es
  | .leave v :: es => v :: post es

@[simp] theorem pre_append (es fs : List (Event V)) : pre (es ++ fs) = pre es ++ pre fs := by
  induction es with
  | nil => rfl
  | cons e es ih => cases e <;> simp [pre, ih]

@[simp] theorem post_append (es fs : List (Event V)) : post (es ++ fs) = post es ++ post fs := by
  induction es with
  | nil => rfl
  | cons e es ih => cases e <;> simp [post, ih]

inductive Explore (succ : V → List V) : Set V → List V → Set V → List (Event V) → Prop
  | nil {vis} : Explore succ vis [] vis []
  | skip {vis w ws vis' es} : w ∈ vis → Explore succ vis ws vis' es →
      Explore succ vis (w :: ws) vis' es
  | visit {vis w ws vis₁ es₁ vis₂ es₂} : w ∉ vis →
      Explore succ (insert w vis) (succ w) vis₁ es₁ → Explore succ vis₁ ws vis₂ es₂ →
      Explore succ vis (w :: ws) vis₂ (.enter w :: es₁ ++ .leave w :: es₂)

def Step (succ : V → List V) (x y : V) : Prop :=
  y ∈ succ x

def Reach (succ : V → List V) : V → V → Prop :=
  Relation.ReflTransGen (Step succ)

def StepOutside (succ : V → List V) (vis : Set V) (x y : V) : Prop :=
  y ∈ succ x ∧ x ∉ vis ∧ y ∉ vis

theorem reach_of_outside {succ : V → List V} {vis : Set V} {x y : V}
    (h : Relation.ReflTransGen (StepOutside succ vis) x y) : Reach succ x y :=
  Relation.ReflTransGen.mono (fun _ _ hs => hs.1) x y h

theorem outside_mono {succ : V → List V} {vis vis' : Set V} (hsub : vis ⊆ vis') {x y : V}
    (h : Relation.ReflTransGen (StepOutside succ vis') x y) :
    Relation.ReflTransGen (StepOutside succ vis) x y :=
  Relation.ReflTransGen.mono
    (fun _ _ hs => ⟨hs.1, fun hx => hs.2.1 (hsub hx), fun hy => hs.2.2 (hsub hy)⟩) x y h

section Facts

variable {succ : V → List V} {vis vis' : Set V} {ws : List V} {es : List (Event V)}

theorem Explore.mem_iff (h : Explore succ vis ws vis' es) (x : V) :
    x ∈ vis' ↔ x ∈ vis ∨ x ∈ post es := by
  induction h with
  | nil => simp [post]
  | skip _ _ ih => exact ih
  | visit _ _ _ ih₁ ih₂ =>
    simp only [ih₂, ih₁, Set.mem_insert_iff, List.cons_append, post, post_append, List.mem_append,
      List.mem_cons]
    tauto

theorem Explore.subset (h : Explore succ vis ws vis' es) : vis ⊆ vis' :=
  fun x hx => (h.mem_iff x).mpr (Or.inl hx)

theorem Explore.post_subset (h : Explore succ vis ws vis' es) {x : V} (hx : x ∈ post es) :
    x ∈ vis' :=
  (h.mem_iff x).mpr (Or.inr hx)

theorem Explore.fresh (h : Explore succ vis ws vis' es) {x : V} (hx : x ∈ post es) :
    x ∉ vis := by
  induction h with
  | nil => cases hx
  | skip _ _ ih => exact ih hx
  | visit hw h₁ _ ih₁ ih₂ =>
    simp only [List.cons_append, post, post_append, List.mem_append, List.mem_cons] at hx
    rcases hx with hx | rfl | hx
    · exact fun hv => ih₁ hx (Set.mem_insert_of_mem _ hv)
    · exact hw
    · exact fun hv => ih₂ hx (h₁.subset (Set.mem_insert_of_mem _ hv))

theorem Explore.nodup (h : Explore succ vis ws vis' es) : (post es).Nodup := by
  induction h with
  | nil => exact List.nodup_nil
  | skip _ _ ih => exact ih
  | visit _ h₁ h₂ ih₁ ih₂ =>
    simp only [List.cons_append, post, post_append]
    refine List.nodup_append.mpr ⟨ih₁, List.nodup_cons.mpr ⟨?_, ih₂⟩, ?_⟩
    · intro hw
      exact h₂.fresh hw (h₁.subset (Set.mem_insert _ _))
    · intro x hx y hy hxy
      subst hxy
      rcases List.mem_cons.mp hy with rfl | hy
      · exact h₁.fresh hx (Set.mem_insert _ _)
      · exact h₂.fresh hy (h₁.post_subset hx)

theorem Explore.perm (h : Explore succ vis ws vis' es) : (pre es).Perm (post es) := by
  induction h with
  | nil => exact List.Perm.refl _
  | skip _ _ ih => exact ih
  | visit _ _ _ ih₁ ih₂ =>
    simp only [List.cons_append, post, pre, post_append, pre_append]
    exact ((ih₁.append ih₂).cons _).trans List.perm_middle.symm

theorem Explore.worklist (h : Explore succ vis ws vis' es) {w : V} (hw : w ∈ ws) : w ∈ vis' := by
  induction h with
  | nil => cases hw
  | skip hv h ih =>
    rcases List.mem_cons.mp hw with rfl | hw
    · exact h.subset hv
    · exact ih hw
  | visit _ h₁ h₂ _ ih₂ =>
    rcases List.mem_cons.mp hw with rfl | hw
    · exact h₂.subset (h₁.subset (Set.mem_insert _ _))
    · exact ih₂ hw

theorem Explore.closed (h : Explore succ vis ws vis' es) {x y : V} (hx : x ∈ post es)
    (hy : y ∈ succ x) : y ∈ vis' := by
  induction h with
  | nil => cases hx
  | skip _ _ ih => exact ih hx
  | visit _ h₁ h₂ ih₁ ih₂ =>
    simp only [List.cons_append, post, post_append, List.mem_append, List.mem_cons] at hx
    rcases hx with hx | rfl | hx
    · exact h₂.subset (ih₁ hx)
    · exact h₂.subset (h₁.worklist hy)
    · exact ih₂ hx

theorem Explore.sound (h : Explore succ vis ws vis' es) {x : V} (hx : x ∈ post es) :
    ∃ w ∈ ws, w ∉ vis ∧ Relation.ReflTransGen (StepOutside succ vis) w x := by
  induction h with
  | nil => cases hx
  | skip _ _ ih =>
    obtain ⟨w, hw, hrest⟩ := ih hx
    exact ⟨w, List.mem_cons_of_mem _ hw, hrest⟩
  | @visit vis v ws vis₁ es₁ vis₂ es₂ hv h₁ h₂ ih₁ ih₂ =>
    simp only [List.cons_append, post, post_append, List.mem_append, List.mem_cons] at hx
    rcases hx with hx | rfl | hx
    · obtain ⟨w, hw, hwv, hpath⟩ := ih₁ hx
      have hwv' : w ∉ vis := fun hm => hwv (Set.mem_insert_of_mem _ hm)
      have hstep : StepOutside succ vis v w := ⟨hw, hv, hwv'⟩
      exact ⟨v, List.mem_cons_self, hv,
        (outside_mono (Set.subset_insert _ _) hpath).head hstep⟩
    · exact ⟨x, List.mem_cons_self, hv, .refl⟩
    · obtain ⟨w, hw, hwv, hpath⟩ := ih₂ hx
      have hsub : vis ⊆ vis₁ := (Set.subset_insert _ _).trans h₁.subset
      exact ⟨w, List.mem_cons_of_mem _ hw, fun hm => hwv (hsub hm), outside_mono hsub hpath⟩

theorem Explore.reach (h : Explore succ vis ws vis' es) {x : V} (hx : x ∈ post es) :
    ∃ w ∈ ws, Reach succ w x := by
  obtain ⟨w, hw, -, hpath⟩ := h.sound hx
  exact ⟨w, hw, reach_of_outside hpath⟩

-- From a visited set that no edge leaves, the walk visits exactly what the worklist reaches.
theorem Explore.visited_iff (h : Explore succ vis ws vis' es)
    (hclosed : ∀ x ∈ vis, ∀ y ∈ succ x, y ∈ vis) (x : V) :
    x ∈ vis' ↔ x ∈ vis ∨ ∃ w ∈ ws, Reach succ w x := by
  constructor
  · intro hx
    rcases (h.mem_iff x).mp hx with hx | hx
    · exact Or.inl hx
    · exact Or.inr (h.reach hx)
  · rintro (hx | ⟨w, hw, hpath⟩)
    · exact h.subset hx
    · induction hpath with
      | refl => exact h.worklist hw
      | tail _ hstep ih =>
        rcases (h.mem_iff _).mp ih with hv | hp
        · exact h.subset (hclosed _ hv _ hstep)
        · exact h.closed hp hstep

end Facts

def Laced (succ : V → List V) (order : List V) : Prop :=
  ∀ (i j : ℕ) (x y : V), order[i]? = some x → order[j]? = some y → i < j → y ∈ succ x →
    ∀ (k : ℕ) (z : V), i ≤ k → k < j → order[k]? = some z → Reach succ y z

theorem getElem?_around {as bs : List V} {w x : V} {i : ℕ}
    (h : (as ++ w :: bs)[i]? = some x) :
    (i < as.length ∧ as[i]? = some x) ∨ (i = as.length ∧ x = w) ∨
      (as.length < i ∧ bs[i - as.length - 1]? = some x) := by
  rcases lt_trichotomy i as.length with hi | hi | hi
  · rw [List.getElem?_append_left hi] at h
    exact Or.inl ⟨hi, h⟩
  · subst hi
    rw [List.getElem?_append_right (le_refl _), Nat.sub_self] at h
    exact Or.inr (Or.inl ⟨rfl, (Option.some.inj h).symm⟩)
  · obtain ⟨n, rfl⟩ := Nat.exists_eq_add_of_lt hi
    rw [List.getElem?_append_right (by omega)] at h
    refine Or.inr (Or.inr ⟨hi, ?_⟩)
    simpa [Nat.add_assoc, Nat.add_sub_cancel_left] using h

theorem Laced.around {succ : V → List V} {as bs : List V} {w : V} (ha : Laced succ as)
    (hb : Laced succ bs) (hreach : ∀ x ∈ as, Reach succ w x)
    (hout : ∀ x, x ∈ as ∨ x = w → ∀ y ∈ bs, y ∉ succ x) : Laced succ (as ++ w :: bs) := by
  intro i j x y hi hj hij hy k z hik hkj hk
  rcases getElem?_around hi with ⟨hil, hi⟩ | ⟨hil, rfl⟩ | ⟨hil, hi⟩
  · rcases getElem?_around hj with ⟨hjl, hj⟩ | ⟨hjl, rfl⟩ | ⟨hjl, hj⟩
    · rw [List.getElem?_append_left (by omega)] at hk
      exact ha i j x y hi hj hij hy k z hik hkj hk
    · rw [List.getElem?_append_left (by omega)] at hk
      exact hreach z (List.mem_of_getElem? hk)
    · exact absurd hy (hout x (Or.inl (List.mem_of_getElem? hi)) y (List.mem_of_getElem? hj))
  · rcases getElem?_around hj with ⟨hjl, hj⟩ | ⟨hjl, rfl⟩ | ⟨hjl, hj⟩
    · omega
    · omega
    · exact absurd hy (hout x (Or.inr rfl) y (List.mem_of_getElem? hj))
  · rcases getElem?_around hj with ⟨hjl, hj⟩ | ⟨hjl, rfl⟩ | ⟨hjl, hj⟩
    · omega
    · omega
    · rcases getElem?_around hk with ⟨hkl, hk⟩ | ⟨hkl, rfl⟩ | ⟨hkl, hk⟩
      · omega
      · omega
      · exact hb _ _ x y hi hj (by omega) hy _ z (by omega) (by omega) hk

theorem Explore.laced {succ : V → List V} {vis vis' : Set V} {ws : List V}
    {es : List (Event V)} (h : Explore succ vis ws vis' es) : Laced succ (post es) := by
  induction h with
  | nil =>
    intro i j x y hi
    cases hi
  | skip _ _ ih => exact ih
  | @visit vis w ws vis₁ es₁ vis₂ es₂ _ h₁ h₂ ih₁ ih₂ =>
    simp only [List.cons_append, post, post_append]
    refine ih₁.around ih₂ ?_ ?_
    · intro x hx
      obtain ⟨u, hu, hpath⟩ := h₁.reach hx
      exact hpath.head hu
    · rintro x (hx | rfl) y hy hs
      · exact h₂.fresh hy (h₁.closed hx hs)
      · exact h₂.fresh hy (h₁.worklist hs)

section Search

variable {S : Type*}

def apply (enter leave : V → S → S) (s : S) : Event V → S
  | .enter v => enter v s
  | .leave v => leave v s

def seenBy (seen : S → V → Bool) (s : S) : Set V :=
  {v | seen s v = true}

end Search

section Executable

universe u

variable {V S : Type u}

def search (adj : V → Option (List V)) (seen : S → V → Bool) (enter leave : V → S → S) :
    ℕ → V → S → Option S
  | 0, _, _ => none
  | fuel + 1, v, s => do
    let ws ← adj v
    let s' ← ws.foldlM
      (fun s w => if seen s w then some s else search adj seen enter leave fuel w s) (enter v s)
    some (leave v s')

structure Marking (adj : V → Option (List V)) (verts : Finset V) (seen : S → V → Bool)
    (enter leave : V → S → S) : Prop where
  enters : ∀ v s w, seen (enter v s) w = true ↔ w = v ∨ seen s w = true
  leaves : ∀ v s w, seen (leave v s) w = seen s w
  closed : ∀ v ∈ verts, ∃ ws, adj v = some ws ∧ ∀ w ∈ ws, w ∈ verts

def unseen (verts : Finset V) (seen : S → V → Bool) (s : S) : Finset V :=
  verts.filter fun w => seen s w = false

def successors (adj : V → Option (List V)) (v : V) : List V :=
  (adj v).getD []

variable {adj : V → Option (List V)} {verts : Finset V} {seen : S → V → Bool}
  {enter leave : V → S → S}

theorem Marking.seenBy_enter (h : Marking adj verts seen enter leave) (v : V) (s : S) :
    seenBy seen (enter v s) = insert v (seenBy seen s) := by
  ext w
  exact h.enters v s w

theorem Marking.seenBy_leave (h : Marking adj verts seen enter leave) (v : V) (s : S) :
    seenBy seen (leave v s) = seenBy seen s := by
  ext w
  simp [seenBy, h.leaves]

theorem unseen_subset {s s' : S} (hsub : seenBy seen s ⊆ seenBy seen s') :
    unseen verts seen s' ⊆ unseen verts seen s := by
  intro w hw
  obtain ⟨hwv, hws⟩ := Finset.mem_filter.mp hw
  refine Finset.mem_filter.mpr ⟨hwv, ?_⟩
  cases hs : seen s w with
  | false => rfl
  | true =>
    have hs' : seen s' w = true := hsub hs
    exact absurd (hs'.symm.trans hws) (by simp)

theorem Marking.unseen_enter (h : Marking adj verts seen enter leave) {v : V} (hv : v ∈ verts)
    {s : S} (hs : seen s v = false) :
    (unseen verts seen (enter v s)).card < (unseen verts seen s).card := by
  apply Finset.card_lt_card
  refine ⟨unseen_subset ?_, ?_⟩
  · rw [h.seenBy_enter]
    exact Set.subset_insert v _
  · intro hsub
    have hmem := hsub (Finset.mem_filter.mpr ⟨hv, hs⟩)
    have hnow := (h.enters v s v).mpr (Or.inl rfl)
    exact absurd ((Finset.mem_filter.mp hmem).2.symm.trans hnow) (by simp)

-- The outer induction is on the fuel, the inner one on the successors still to be tried.
theorem Marking.explores (h : Marking adj verts seen enter leave) (fuel : ℕ) (ws : List V)
    (hws : ∀ w ∈ ws, w ∈ verts) (s : S) (hfuel : (unseen verts seen s).card ≤ fuel) :
    ∃ es, ws.foldlM
        (fun s w => if seen s w then some s else search adj seen enter leave fuel w s) s =
      some (es.foldl (apply enter leave) s) ∧
      Explore (successors adj) (seenBy seen s) ws
        (seenBy seen (es.foldl (apply enter leave) s)) es := by
  induction fuel generalizing ws s with
  | zero =>
    have hnone : unseen verts seen s = ∅ := Finset.card_eq_zero.mp (Nat.le_zero.mp hfuel)
    have hall : ∀ w ∈ verts, seen s w = true := by
      intro w hw
      cases hs : seen s w with
      | true => rfl
      | false =>
        have hmem : w ∈ unseen verts seen s := Finset.mem_filter.mpr ⟨hw, hs⟩
        rw [hnone] at hmem
        cases hmem
    induction ws with
    | nil => exact ⟨[], rfl, .nil⟩
    | cons w ws ih =>
      obtain ⟨es, hes, hex⟩ := ih fun x hx => hws x (List.mem_cons_of_mem w hx)
      have hw : seen s w = true := hall w (hws w List.mem_cons_self)
      exact ⟨es, by simpa [hw] using hes, hex.skip hw⟩
  | succ fuel ihfuel =>
    induction ws generalizing s with
    | nil => exact ⟨[], rfl, .nil⟩
    | cons w ws ih =>
      have hrest : ∀ x ∈ ws, x ∈ verts := fun x hx => hws x (List.mem_cons_of_mem w hx)
      have hw : w ∈ verts := hws w List.mem_cons_self
      cases hs : seen s w with
      | true =>
        obtain ⟨es, hes, hex⟩ := ih hrest s hfuel
        exact ⟨es, by simpa [hs] using hes, hex.skip hs⟩
      | false =>
        obtain ⟨ns, hns, hsub⟩ := h.closed w hw
        have hless := h.unseen_enter hw hs
        obtain ⟨es₁, hes₁, hex₁⟩ := ihfuel ns hsub (enter w s) (by omega)
        have hsearch : search adj seen enter leave (fuel + 1) w s =
            some (leave w (es₁.foldl (apply enter leave) (enter w s))) := by
          simp [search, hns, hes₁]
        have hgrow : seenBy seen s ⊆
            seenBy seen (leave w (es₁.foldl (apply enter leave) (enter w s))) := by
          rw [h.seenBy_leave]
          refine Set.Subset.trans ?_ hex₁.subset
          rw [h.seenBy_enter]
          exact Set.subset_insert w _
        obtain ⟨es₂, hes₂, hex₂⟩ := ih hrest _
          ((Finset.card_le_card (unseen_subset hgrow)).trans hfuel)
        refine ⟨.enter w :: es₁ ++ .leave w :: es₂, ?_, ?_⟩
        · simp [hs, hsearch, hes₂, apply]
        · have hnot : w ∉ seenBy seen s := by simp [seenBy, hs]
          rw [h.seenBy_leave] at hex₂
          rw [h.seenBy_enter] at hex₁
          have hsucc : successors adj w = ns := by simp [successors, hns]
          have hvisit := Explore.visit hnot (hsucc ▸ hex₁) hex₂
          simpa [apply] using hvisit

theorem Marking.search_eq (h : Marking adj verts seen enter leave) {fuel : ℕ} {w : V}
    (hw : w ∈ verts) {s : S} (hs : seen s w = false)
    (hfuel : (unseen verts seen s).card ≤ fuel) :
    ∃ es, search adj seen enter leave fuel w s =
      some (leave w (es.foldl (apply enter leave) (enter w s))) ∧
      Explore (successors adj) (insert w (seenBy seen s)) (successors adj w)
        (seenBy seen (leave w (es.foldl (apply enter leave) (enter w s)))) es := by
  have hless := h.unseen_enter hw hs
  obtain ⟨n, rfl⟩ := Nat.exists_eq_succ_of_ne_zero (Nat.ne_of_gt (by omega : 0 < fuel))
  obtain ⟨ns, hns, hsub⟩ := h.closed w hw
  obtain ⟨es, hes, hex⟩ := h.explores n ns hsub (enter w s) (by omega)
  have hsucc : successors adj w = ns := by simp [successors, hns]
  refine ⟨es, by simp [search, hns, hes], ?_⟩
  rw [h.seenBy_leave, ← h.seenBy_enter, hsucc]
  exact hex

end Executable

end DepthFirst
