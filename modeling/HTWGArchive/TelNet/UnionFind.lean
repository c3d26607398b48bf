import Mathlib.Data.Nat.Log
import Mathlib.Data.Fintype.Card
import Mathlib.Algebra.Order.BigOperators.Group.Finset
import HTWGArchive.Library.Components
import HTWGArchive.Library.Slots

namespace TelNetApplication

open Slots Components

structure UnionFind where
  size : Int
  tree : List Int
  deriving DecidableEq, Repr

namespace UnionFind

def new (n : ℕ) : UnionFind where
  tree := List.replicate n (-1)
  size := n

-- The first argument bounds how often the body of the loop runs.
def findWithin (tree : List Int) : ℕ → Int → Option Int
  | 0, e =>
    match slot tree e with
    | none => none
    | some t => if 0 ≤ t then none else some e
  | fuel + 1, e =>
    match slot tree e with
    | none => none
    | some t => if 0 ≤ t then findWithin tree fuel t else some e

def find (u : UnionFind) (e : Int) : Option Int :=
  findWithin u.tree u.tree.length e

def union (u : UnionFind) (s1 s2 : Int) : Option UnionFind :=
  if s1 = s2 then none
  else
    match slot u.tree s1 with
    | none => none
    | some t1 =>
      if 0 ≤ t1 then some u
      else
        match slot u.tree s2 with
        | none => none
        | some t2 =>
          if 0 ≤ t2 then some u
          else if -t1 < -t2 then
            (write u.tree s1 s2).map fun tree => { tree := tree, size := u.size - 1 }
          else do
            let tree ← if -t1 = -t2 then write u.tree s1 (t1 - 1) else some u.tree
            let tree ← write tree s2 s1
            return { tree := tree, size := u.size - 1 }

-- The representatives, and ranks that grow along the parent links.
structure Forest (u : UnionFind) (n : ℕ) (ps : List (Fin n × Fin n)) (root : Fin n → Fin n)
    (rank : Fin n → ℕ) : Prop where
  length : u.tree.length = n
  top : ∀ i, root i = i → u.tree[(i : ℕ)]? = some (-(rank i : Int))
  below : ∀ i, root i ≠ i →
    ∃ p : Fin n, u.tree[(i : ℕ)]? = some ((p : ℕ) : Int) ∧ root p = root i ∧ rank i < rank p
  idem : ∀ i, root (root i) = root i
  rank_pos : ∀ i, 1 ≤ rank i
  rank_le : ∀ i, rank i ≤ rank (root i)
  weight : ∀ i, root i = i → 2 ^ (rank i - 1) ≤ (Finset.univ.filter fun j => root j = i).card
  joined : ∀ a b, root a = root b ↔ Joined ps a b
  counted : u.size = classes ps

variable {n : ℕ} {u : UnionFind} {ps qs : List (Fin n × Fin n)} {root : Fin n → Fin n}
  {rank : Fin n → ℕ}

theorem forest_new (n : ℕ) : Forest (new n) n [] id fun _ => 1 where
  length := List.length_replicate
  top i _ := by
    simp [new]
  below i hi := absurd rfl hi
  idem _ := rfl
  rank_pos _ := le_refl 1
  rank_le _ := le_refl 1
  weight i _ := by
    have hmem : i ∈ Finset.univ.filter fun j : Fin n => id j = i := by simp
    simpa using Finset.card_pos.mpr ⟨i, hmem⟩
  joined a b := joined_nil.symm
  counted := by
    rw [classes_nil, Nat.card_eq_fintype_card, Fintype.card_fin]
    rfl

theorem Forest.findWithin_eq (h : Forest u n ps root rank) {fuel : ℕ} {i : Fin n}
    (hfuel : rank (root i) ≤ rank i + fuel) :
    findWithin u.tree fuel (i : ℕ) = some ((root i : ℕ) : Int) := by
  induction fuel generalizing i with
  | zero =>
    by_cases hi : root i = i
    · have hneg : ¬ (0 : Int) ≤ -(rank i : Int) := by
        have hpos := h.rank_pos i
        omega
      simp only [findWithin, slot_natCast, h.top i hi, if_neg hneg, hi]
    · obtain ⟨p, -, hp, hlt⟩ := h.below i hi
      have hle := h.rank_le p
      rw [hp] at hle
      omega
  | succ fuel ih =>
    by_cases hi : root i = i
    · have hneg : ¬ (0 : Int) ≤ -(rank i : Int) := by
        have hpos := h.rank_pos i
        omega
      simp only [findWithin, slot_natCast, h.top i hi, if_neg hneg, hi]
    · obtain ⟨p, hslot, hp, hlt⟩ := h.below i hi
      have hpos : (0 : Int) ≤ ((p : ℕ) : Int) := Int.natCast_nonneg _
      simp only [findWithin, slot_natCast, hslot, if_pos hpos]
      rw [← hp]
      exact ih (by rw [hp]; omega)

theorem Forest.rank_le_log (h : Forest u n ps root rank) (i : Fin n) :
    rank (root i) ≤ rank i + Nat.log 2 n := by
  have hweight := h.weight (root i) (h.idem i)
  have hcard : (Finset.univ.filter fun j => root j = root i).card ≤ n := by
    simpa using Finset.card_le_univ (Finset.univ.filter fun j => root j = root i)
  have hlog := Nat.le_log_of_pow_le Nat.one_lt_two (hweight.trans hcard)
  have hpos := h.rank_pos i
  omega

theorem Forest.find_eq (h : Forest u n ps root rank) (i : Fin n) :
    u.find (i : ℕ) = some ((root i : ℕ) : Int) := by
  apply h.findWithin_eq
  rw [h.length]
  exact (h.rank_le_log i).trans (Nat.add_le_add_left (Nat.log_le_self 2 n) _)

theorem card_relabel {child top : Fin n} (hne : child ≠ top) :
    (Finset.univ.filter fun j => (if root j = child then top else root j) = top).card =
      (Finset.univ.filter fun j => root j = child).card +
        (Finset.univ.filter fun j => root j = top).card := by
  rw [← Finset.card_union_of_disjoint]
  · congr 1
    ext j
    simp only [Finset.mem_union, Finset.mem_filter, Finset.mem_univ, true_and]
    by_cases hr : root j = child
    · simp [hr]
    · simp [hr]
  · rw [Finset.disjoint_filter]
    intro j _ hjc hjt
    exact hne (hjc.symm.trans hjt)

theorem joined_relabel {child top a b : Fin n} (h : ∀ a b, root a = root b ↔ Joined ps a b)
    (hc : root child = child) (ht : root top = top) :
    (if root a = child then top else root a) = (if root b = child then top else root b) ↔
      Joined ((child, top) :: ps) a b := by
  rw [joined_cons, ← h, ← h, ← h, ← h, ← h, hc, ht]
  by_cases ha : root a = child
  · by_cases hb : root b = child
    · simp [ha, hb]
    · rw [if_pos ha, if_neg hb, ha]
      constructor
      · exact fun hab => Or.inr (Or.inl ⟨rfl, hab⟩)
      · rintro (hab | ⟨-, hab⟩ | ⟨hab, heq⟩)
        · exact absurd hab.symm hb
        · exact hab
        · exact absurd heq.symm hb
  · by_cases hb : root b = child
    · rw [if_neg ha, if_pos hb, hb]
      constructor
      · exact fun hab => Or.inr (Or.inr ⟨hab, rfl⟩)
      · rintro (hab | ⟨hab, -⟩ | ⟨hab, -⟩)
        · exact absurd hab ha
        · exact absurd hab ha
        · exact hab
    · rw [if_neg ha, if_neg hb]
      constructor
      · exact Or.inl
      · rintro (hab | ⟨hab, -⟩ | ⟨-, hab⟩)
        · exact hab
        · exact absurd hab ha
        · exact absurd hab.symm hb

section Link

variable {child top : Fin n} {k : ℕ}

-- The roots that are left keep their trees, but for `top`.
theorem relabel_self (hne : child ≠ top) (hc : root child = child) (ht : root top = top)
    {i : Fin n} (hi : (if root i = child then top else root i) = i) : i ≠ child ∧ root i = i := by
  by_cases hr : root i = child
  · rw [if_pos hr] at hi
    exact ⟨fun heq => hne (heq.symm.trans hi.symm), hi ▸ ht⟩
  · rw [if_neg hr] at hi
    exact ⟨fun heq => hr (heq ▸ hc), hi⟩

theorem rank_le_update (hk : rank top ≤ k) (i : Fin n) : rank i ≤ Function.update rank top k i := by
  by_cases hi : i = top
  · rw [hi, Function.update_self]
    exact hk
  · rw [Function.update_of_ne hi]

theorem Forest.link_rank (h : Forest u n ps root rank) (hne : child ≠ top) (ht : root top = top)
    (hk : rank top ≤ k) (hlt : rank child < k) (i : Fin n) :
    Function.update rank top k i ≤
      Function.update rank top k (if root i = child then top else root i) := by
  by_cases hit : i = top
  · rw [hit, ht, if_neg hne.symm]
  · rw [Function.update_of_ne hit]
    by_cases hr : root i = child
    · rw [if_pos hr, Function.update_self]
      have hle := h.rank_le i
      rw [hr] at hle
      omega
    · rw [if_neg hr]
      exact (h.rank_le i).trans (rank_le_update hk _)

theorem Forest.link_weight (h : Forest u n ps root rank) (hne : child ≠ top)
    (hc : root child = child) (ht : root top = top)
    (hweight : 2 ^ (k - 1) ≤ (Finset.univ.filter fun j => root j = child).card +
      (Finset.univ.filter fun j => root j = top).card)
    {i : Fin n} (hi : (if root i = child then top else root i) = i) :
    2 ^ (Function.update rank top k i - 1) ≤
      (Finset.univ.filter fun j => (if root j = child then top else root j) = i).card := by
  obtain ⟨hic, hroot⟩ := relabel_self hne hc ht hi
  by_cases hit : i = top
  · rw [hit, Function.update_self]
    exact hweight.trans (le_of_eq (card_relabel hne).symm)
  · rw [Function.update_of_ne hit]
    refine (h.weight i hroot).trans (Finset.card_le_card ?_)
    intro j hj
    simp only [Finset.mem_filter, Finset.mem_univ, true_and] at hj ⊢
    rw [hj, if_neg hic]

-- The root `child` is put below the root `top`, whose rank becomes `k`.
theorem Forest.link (h : Forest u n ps root rank) (child top : Fin n) {k : ℕ} {tree : List Int}
    (hne : child ≠ top) (hc : root child = child) (ht : root top = top) (hk : rank top ≤ k)
    (hlt : rank child < k)
    (hweight : 2 ^ (k - 1) ≤ (Finset.univ.filter fun j => root j = child).card +
      (Finset.univ.filter fun j => root j = top).card)
    (hlength : tree.length = n) (hchild : tree[(child : ℕ)]? = some ((top : ℕ) : Int))
    (htop : tree[(top : ℕ)]? = some (-(k : Int)))
    (hrest : ∀ i : Fin n, i ≠ child → i ≠ top → tree[(i : ℕ)]? = u.tree[(i : ℕ)]?)
    (hqs : ∀ a b, Joined qs a b ↔ Joined ((child, top) :: ps) a b) :
    Forest ⟨u.size - 1, tree⟩ n qs (fun i => if root i = child then top else root i)
      (Function.update rank top k) := by
  have hnotjoined : ¬ Joined ps child top := by
    rw [← h.joined, hc, ht]
    exact hne
  refine ⟨hlength, ?_, ?_, ?_, ?_, ?_, ?_, ?_, ?_⟩
  · intro i hi
    obtain ⟨hic, hroot⟩ := relabel_self hne hc ht hi
    by_cases hit : i = top
    · rw [hit, Function.update_self]
      exact htop
    · rw [Function.update_of_ne hit]
      simp only [hrest i hic hit]
      exact h.top i hroot
  · intro i hi
    by_cases hic : i = child
    · refine ⟨top, hic ▸ hchild, ?_, ?_⟩
      · rw [ht, if_neg hne.symm, hic, if_pos hc]
      · rw [Function.update_self, hic, Function.update_of_ne hne]
        exact hlt
    · have hroot : root i ≠ i := by
        intro hroot
        rw [if_neg (by rw [hroot]; exact hic)] at hi
        exact hi hroot
      have hit : i ≠ top := fun heq => hroot (heq ▸ ht)
      obtain ⟨p, hslot, hp, hrank⟩ := h.below i hroot
      refine ⟨p, ?_, ?_, ?_⟩
      · simp only [hrest i hic hit]
        exact hslot
      · rw [hp]
      · rw [Function.update_of_ne hit]
        exact lt_of_lt_of_le hrank (rank_le_update hk p)
  · intro i
    by_cases hr : root i = child
    · rw [if_pos hr, ht, if_neg hne.symm]
    · rw [if_neg hr, h.idem, if_neg hr]
  · exact fun i => (h.rank_pos i).trans (rank_le_update hk i)
  · exact h.link_rank hne ht hk hlt
  · exact fun i hi => h.link_weight hne hc ht hweight hi
  · intro a b
    rw [hqs]
    exact joined_relabel h.joined hc ht
  · have hclasses := classes_cons_of_not_joined hnotjoined
    rw [classes_congr hqs]
    simp only [h.counted, ← hclasses]
    push_cast
    omega

end Link

theorem joined_swap {s1 s2 a b : Fin n} :
    Joined ((s1, s2) :: ps) a b ↔ Joined ((s2, s1) :: ps) a b := by
  rw [joined_cons, joined_cons, or_comm (a := Joined ps a s1 ∧ Joined ps s2 b)]

theorem Forest.union_roots (h : Forest u n ps root rank) {s1 s2 : Fin n} (hne : s1 ≠ s2)
    (h1 : root s1 = s1) (h2 : root s2 = s2) :
    ∃ u' root' rank', u.union (s1 : ℕ) (s2 : ℕ) = some u' ∧
      Forest u' n ((s1, s2) :: ps) root' rank' := by
  have hcast : ((s1 : ℕ) : Int) ≠ ((s2 : ℕ) : Int) := fun heq => hne (Fin.ext (by omega))
  have hval : (s1 : ℕ) ≠ s2 := fun heq => hne (Fin.ext heq)
  have hpos1 := h.rank_pos s1
  have hpos2 := h.rank_pos s2
  have hlt1 : (s1 : ℕ) < u.tree.length := h.length ▸ s1.isLt
  have hlt2 : (s2 : ℕ) < u.tree.length := h.length ▸ s2.isLt
  have hneg1 : ¬ (0 : Int) ≤ -(rank s1 : Int) := by omega
  have hneg2 : ¬ (0 : Int) ≤ -(rank s2 : Int) := by omega
  unfold union
  simp only [if_neg hcast, slot_natCast, h.top s1 h1, h.top s2 h2, if_neg hneg1, if_neg hneg2,
    neg_neg]
  have hw1 := h.weight s1 h1
  have hw2 := h.weight s2 h2
  by_cases hless : (rank s1 : Int) < rank s2
  · rw [if_pos hless, write_natCast hlt1]
    refine ⟨_, _, _, rfl, h.link s1 s2 (k := rank s2) hne h1 h2 (le_refl _)
      (by omega) (by omega) (by simpa using h.length) ?_ ?_ ?_ (fun _ _ => Iff.rfl)⟩
    · simp [hlt1]
    · rw [List.getElem?_set_ne hval]
      exact h.top s2 h2
    · intro i hi _
      exact List.getElem?_set_ne (fun heq => hi (Fin.ext heq.symm))
  · rw [if_neg hless]
    by_cases heq : (rank s1 : Int) = rank s2
    · have hsame : rank s1 = rank s2 := by omega
      rw [if_pos heq, write_natCast hlt1]
      simp only [Option.bind_eq_bind, Option.bind_some]
      rw [write_natCast (by simpa using hlt2)]
      refine ⟨_, _, _, rfl, h.link s2 s1 (k := rank s1 + 1) hne.symm h2 h1
        (Nat.le_succ _) (by omega) ?_ (by simpa using h.length) ?_ ?_ ?_ (fun _ _ => joined_swap)⟩
      · obtain ⟨r, hr⟩ := Nat.exists_eq_succ_of_ne_zero (show rank s1 ≠ 0 by omega)
        rw [← hsame, hr, Nat.succ_sub_one] at hw2
        rw [hr, Nat.succ_sub_one] at hw1
        rw [hr, Nat.add_sub_cancel, Nat.pow_succ]
        omega
      · simp [hlt2]
      · rw [List.getElem?_set_ne hval.symm]
        simp only [List.getElem?_set_self hlt1, Option.some.injEq]
        push_cast
        omega
      · intro i hi2 hi1
        rw [List.getElem?_set_ne (fun heq => hi2 (Fin.ext heq.symm)),
          List.getElem?_set_ne (fun heq => hi1 (Fin.ext heq.symm))]
    · rw [if_neg heq]
      simp only [Option.bind_eq_bind, Option.bind_some]
      rw [write_natCast hlt2]
      refine ⟨_, _, _, rfl, h.link s2 s1 (k := rank s1) hne.symm h2 h1
        (le_refl _) (by omega) (by omega) (by simpa using h.length) ?_ ?_ ?_
        (fun _ _ => joined_swap)⟩
      · simp [hlt2]
      · rw [List.getElem?_set_ne hval.symm]
        exact h.top s1 h1
      · intro i hi _
        exact List.getElem?_set_ne (fun heq => hi (Fin.ext heq.symm))

def isRoot (u : UnionFind) (e : Int) : Prop :=
  ∃ t, slot u.tree e = some t ∧ t < 0

theorem Forest.isRoot_iff (h : Forest u n ps root rank) (i : Fin n) :
    u.isRoot (i : ℕ) ↔ root i = i := by
  simp only [isRoot, slot_natCast]
  constructor
  · rintro ⟨t, ht, hneg⟩
    by_contra hi
    obtain ⟨p, hslot, -⟩ := h.below i hi
    rw [hslot, Option.some.injEq] at ht
    omega
  · intro hi
    have hpos := h.rank_pos i
    exact ⟨_, h.top i hi, by omega⟩

instance (u : UnionFind) (e : Int) : Decidable (u.isRoot e) :=
  match hslot : slot u.tree e with
  | none => .isFalse (fun ⟨t, ht, _⟩ => by rw [hslot] at ht; cases ht)
  | some t =>
    decidable_of_iff (t < 0)
      ⟨fun ht => ⟨t, hslot, ht⟩, fun ⟨t', ht', hneg⟩ => by rw [hslot] at ht'; cases ht'; exact hneg⟩

theorem union_self (u : UnionFind) (s : Int) : u.union s s = none :=
  if_pos rfl

theorem Forest.union_below (h : Forest u n ps root rank) {s1 s2 : Fin n} (hne : s1 ≠ s2)
    (hroots : ¬ (u.isRoot (s1 : ℕ) ∧ u.isRoot (s2 : ℕ))) :
    u.union (s1 : ℕ) (s2 : ℕ) = some u := by
  rw [h.isRoot_iff, h.isRoot_iff, not_and_or] at hroots
  have hcast : ((s1 : ℕ) : Int) ≠ ((s2 : ℕ) : Int) := fun heq => hne (Fin.ext (by omega))
  unfold union
  simp only [if_neg hcast, slot_natCast]
  by_cases h1 : root s1 = s1
  · obtain ⟨p, hslot, -⟩ := h.below s2 (hroots.resolve_left (not_not.mpr h1))
    have hpos := h.rank_pos s1
    have hneg : ¬ (0 : Int) ≤ -(rank s1 : Int) := by omega
    simp only [h.top s1 h1, if_neg hneg, hslot, if_pos (Int.natCast_nonneg (p : ℕ))]
  · obtain ⟨p, hslot, -⟩ := h.below s1 h1
    simp only [hslot, if_pos (Int.natCast_nonneg (p : ℕ))]

inductive Call (n : ℕ) where
  | union (s1 s2 : Fin n)
  | find (e : Fin n)

-- A call that throws leaves the object as it is; the pairs are the unions performed.
def step (s : UnionFind × List (Fin n × Fin n)) : Call n → UnionFind × List (Fin n × Fin n)
  | .union s1 s2 =>
    ((s.1.union (s1 : ℕ) (s2 : ℕ)).getD s.1,
      if s1 ≠ s2 ∧ s.1.isRoot (s1 : ℕ) ∧ s.1.isRoot (s2 : ℕ) then (s1, s2) :: s.2 else s.2)
  | .find _ => s

def run (n : ℕ) (calls : List (Call n)) : UnionFind × List (Fin n × Fin n) :=
  calls.foldl step (new n, [])

def climb (tree : List Int) : ℕ → Int → Option Int
  | 0, e => some e
  | d + 1, e =>
    match slot tree e with
    | none => none
    | some t => if 0 ≤ t then climb tree d t else none

theorem Forest.climb_rank (h : Forest u n ps root rank) {d : ℕ} {i j : Fin n}
    (hclimb : climb u.tree d (i : ℕ) = some ((j : ℕ) : Int)) : rank i + d ≤ rank j := by
  induction d generalizing i with
  | zero =>
    have heq : i = j := Fin.ext (by simpa [climb] using hclimb)
    rw [heq]
    exact le_refl _
  | succ d ih =>
    by_cases hi : root i = i
    · have hpos := h.rank_pos i
      have hneg : ¬ (0 : Int) ≤ -(rank i : Int) := by omega
      simp only [climb, slot_natCast, h.top i hi, if_neg hneg] at hclimb
      cases hclimb
    · obtain ⟨p, hslot, -, hlt⟩ := h.below i hi
      simp only [climb, slot_natCast, hslot, if_pos (Int.natCast_nonneg (p : ℕ))] at hclimb
      have hrest := ih hclimb
      omega

structure Correct (u : UnionFind) (n : ℕ) (ps : List (Fin n × Fin n)) : Prop where
  acyclic : ∀ (e : Fin n) (d : ℕ), climb u.tree (d + 1) (e : ℕ) ≠ some ((e : ℕ) : Int)
  finds : ∀ e : Fin n, ∃ r : Fin n, u.find (e : ℕ) = some ((r : ℕ) : Int) ∧ u.isRoot (r : ℕ) ∧
    findWithin u.tree (Nat.log 2 n) (e : ℕ) = some ((r : ℕ) : Int)
  find_iff : ∀ a b : Fin n, u.find (a : ℕ) = u.find (b : ℕ) ↔ Joined ps a b
  size_eq : u.size = classes ps
  rank_gt : ∀ (r e : Fin n) (k d : ℕ), 0 < k → u.tree[(r : ℕ)]? = some (-(k : Int)) →
    climb u.tree d (e : ℕ) = some ((r : ℕ) : Int) → d < k
  class_size : ∀ (r : Fin n) (k : ℕ), 0 < k → u.tree[(r : ℕ)]? = some (-(k : Int)) →
    2 ^ (k - 1) ≤ (Finset.univ.filter fun e : Fin n =>
      u.find (e : ℕ) = some ((r : ℕ) : Int)).card
  union_same : ∀ s : Fin n, u.union (s : ℕ) (s : ℕ) = none
  union_below : ∀ s1 s2 : Fin n, s1 ≠ s2 → ¬ (u.isRoot (s1 : ℕ) ∧ u.isRoot (s2 : ℕ)) →
    u.union (s1 : ℕ) (s2 : ℕ) = some u
  union_roots : ∀ s1 s2 : Fin n, s1 ≠ s2 → u.isRoot (s1 : ℕ) → u.isRoot (s2 : ℕ) →
    (u.union (s1 : ℕ) (s2 : ℕ)).isSome

theorem Forest.rank_of_slot (h : Forest u n ps root rank) {r : Fin n} {k : ℕ} (hk : 0 < k)
    (hslot : u.tree[(r : ℕ)]? = some (-(k : Int))) : root r = r ∧ rank r = k := by
  by_cases hr : root r = r
  · rw [h.top r hr, Option.some.injEq] at hslot
    exact ⟨hr, by omega⟩
  · obtain ⟨p, hp, -⟩ := h.below r hr
    rw [hp, Option.some.injEq] at hslot
    omega

theorem Forest.correct (h : Forest u n ps root rank) : Correct u n ps := by
  have hfind : ∀ a b : Fin n, u.find (a : ℕ) = some ((b : ℕ) : Int) ↔ root a = b := by
    intro a b
    rw [h.find_eq, Option.some.injEq, Nat.cast_inj, Fin.val_inj]
  refine ⟨?_, ?_, ?_, h.counted, ?_, ?_, fun s => union_self u _, fun _ _ => h.union_below, ?_⟩
  · intro e d hclimb
    have hrank := h.climb_rank hclimb
    omega
  · intro e
    exact ⟨root e, h.find_eq e, (h.isRoot_iff _).mpr (h.idem e),
      h.findWithin_eq (h.rank_le_log e)⟩
  · intro a b
    rw [h.find_eq b, hfind]
    exact h.joined a b
  · intro r e k d hk hslot hclimb
    obtain ⟨-, hrank⟩ := h.rank_of_slot hk hslot
    have hle := h.climb_rank hclimb
    have hpos := h.rank_pos e
    omega
  · intro r k hk hslot
    obtain ⟨hroot, rfl⟩ := h.rank_of_slot hk hslot
    simp only [hfind]
    exact h.weight r hroot
  · intro s1 s2 hne h1 h2
    rw [h.isRoot_iff] at h1 h2
    obtain ⟨u', -, -, hu', -⟩ := h.union_roots hne h1 h2
    rw [hu']
    rfl

theorem Forest.step (h : Forest u n ps root rank) (c : Call n) :
    ∃ root' rank', Forest (step (u, ps) c).1 n (step (u, ps) c).2 root' rank' := by
  cases c with
  | find e => exact ⟨root, rank, h⟩
  | union s1 s2 =>
    simp only [UnionFind.step]
    by_cases hne : s1 = s2
    · subst hne
      rw [union_self, if_neg (fun hall => hall.1 rfl)]
      exact ⟨root, rank, h⟩
    · by_cases hroots : u.isRoot (s1 : ℕ) ∧ u.isRoot (s2 : ℕ)
      · obtain ⟨u', root', rank', hu', hforest⟩ := h.union_roots hne
          ((h.isRoot_iff s1).mp hroots.1) ((h.isRoot_iff s2).mp hroots.2)
        rw [hu', if_pos ⟨hne, hroots⟩]
        exact ⟨root', rank', hforest⟩
      · rw [h.union_below hne hroots, if_neg (fun hall => hroots hall.2)]
        exact ⟨root, rank, h⟩

theorem forest_foldl (h : Forest u n ps root rank) (calls : List (Call n)) :
    ∃ root' rank', Forest (calls.foldl step (u, ps)).1 n (calls.foldl step (u, ps)).2 root' rank' := by
  induction calls generalizing u ps root rank with
  | nil => exact ⟨root, rank, h⟩
  | cons c cs ih =>
    obtain ⟨root', rank', hnext⟩ := h.step c
    exact ih hnext

theorem union_find_correct (n : ℕ) (calls : List (Call n)) :
    Correct (run n calls).1 n (run n calls).2 := by
  obtain ⟨root, rank, h⟩ := forest_foldl (forest_new n) calls
  exact h.correct

end UnionFind

end TelNetApplication
