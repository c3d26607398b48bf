import HTWGArchive.Freespace.Malloc

namespace Freespace

open Tiling

-- What each policy puts first among the blocks that are large enough.
def better : Policy → ℕ → ℤ → ℕ → ℤ → Prop
  | .best, i, size, j, size' => size ≤ size' ∧ (size = size' → i ≤ j)
  | .worst, i, size, j, size' => size' ≤ size ∧ (size' = size → i ≤ j)
  | .first, i, _, j, _ => i ≤ j

structure Chosen (policy : Policy) (size : ℤ) (blocks : List Block) (i : ℕ) (b : Block) : Prop where
  at_index : blocks[i]? = some b
  fits : size ≤ b.2
  better : ∀ j b', blocks[j]? = some b' → size ≤ b'.2 → better policy i b.2 j b'.2

def NoneFits (size : ℤ) (blocks : List Block) : Prop :=
  ∀ b ∈ blocks, b.2 < size

-- The loop has looked at `seen`.
structure Searched (c : Config) (size : ℤ) (seen : List Block) (st : Search) : Prop where
  count : st.count = seen.length
  absent : st.best = none → NoneFits size seen ∧ st.bestSize = (Search.start c).bestSize
  present : ∀ i addr, st.best = some (i, addr) →
    Chosen c.policy size seen i (addr, st.bestSize)

theorem searched_start (c : Config) (size : ℤ) : Searched c size [] (Search.start c) := by
  refine ⟨rfl, fun _ => ⟨?_, rfl⟩, ?_⟩
  · intro b hb
    exact absurd hb List.not_mem_nil
  · intro i addr h
    cases h

variable {c : Config} {size : ℤ} {seen : List Block} {st : Search} {e : Block}

-- The loop goes on past a block that is too small or not preferred.
theorem Searched.skip (h : Searched c size seen st)
    (hskip : ¬ (size ≤ e.2 ∧ prefers c.policy e.2 st.bestSize))
    (hfresh : st.best = none → prefers c.policy e.2 st.bestSize) :
    Searched c size (seen ++ [e]) { st with count := st.count + 1 } := by
  refine ⟨?_, ?_, ?_⟩
  · simp [h.count]
  · intro hnone
    obtain ⟨hfits, hsize⟩ := h.absent hnone
    refine ⟨?_, hsize⟩
    intro b hb
    rcases List.mem_append.mp hb with hold | hnew
    · exact hfits b hold
    · obtain rfl := List.mem_singleton.mp hnew
      exact not_le.mp (fun hle => hskip ⟨hle, hfresh hnone⟩)
  · intro i addr hsome
    obtain ⟨hindex, hfits, hbetter⟩ := h.present i addr hsome
    have hi := (List.getElem?_eq_some_iff.mp hindex).1
    refine ⟨(List.getElem?_append_left hi).trans hindex, hfits, ?_⟩
    intro j b hb hle
    rcases Nat.lt_or_ge j seen.length with hlt | hge
    · rw [List.getElem?_append_left hlt] at hb
      exact hbetter j b hb hle
    · rw [List.getElem?_append_right hge, List.getElem?_singleton] at hb
      split at hb
      · obtain rfl := Option.some.inj hb
        have hpref : ¬ prefers c.policy e.2 st.bestSize := fun hp => hskip ⟨hle, hp⟩
        cases hpolicy : c.policy with
        | best =>
          rw [hpolicy] at hpref
          exact ⟨not_lt.mp hpref, fun _ => (hi.trans_le hge).le⟩
        | worst =>
          rw [hpolicy] at hpref
          exact ⟨not_lt.mp hpref, fun _ => (hi.trans_le hge).le⟩
        | first => exact (hi.trans_le hge).le
      · cases hb

theorem Searched.take (h : Searched c size seen st) (hfits : size ≤ e.2)
    (hpref : prefers c.policy e.2 st.bestSize) (hfirst : c.policy = .first → st.best = none) :
    Searched c size (seen ++ [e])
      { best := some (seen.length, e.1), bestSize := e.2, count := st.count + 1 } := by
  refine ⟨?_, ?_, ?_⟩
  · simp [h.count]
  · intro hnone
    cases hnone
  · intro i addr hsome
    cases hsome
    refine ⟨List.getElem?_concat_length, hfits, ?_⟩
    intro j b hb hle
    rcases Nat.lt_or_ge j seen.length with hlt | hge
    · rw [List.getElem?_append_left hlt] at hb
      cases hbest : st.best with
      | none =>
        have hsmall := (h.absent hbest).1 b (List.mem_of_getElem? hb)
        omega
      | some x =>
        obtain ⟨i, addr⟩ := x
        have hbetter := (h.present i addr hbest).better j b hb hle
        cases hpolicy : c.policy with
        | best =>
          rw [hpolicy] at hbetter hpref
          simp only [Freespace.better, prefers] at hbetter hpref ⊢
          omega
        | worst =>
          rw [hpolicy] at hbetter hpref
          simp only [Freespace.better, prefers] at hbetter hpref ⊢
          omega
        | first =>
          rw [hfirst hpolicy] at hbest
          cases hbest
    · have hself : Freespace.better c.policy seen.length e.2 j e.2 := by
        cases c.policy with
        | best => exact ⟨le_refl _, fun _ => hge⟩
        | worst => exact ⟨le_refl _, fun _ => hge⟩
        | first => exact hge
      rw [List.getElem?_append_right hge, List.getElem?_singleton] at hb
      split at hb
      · obtain rfl := Option.some.inj hb
        exact hself
      · cases hb

-- What the loop leaves behind; only `first` stops early.
structure Found (c : Config) (size : ℤ) (blocks : List Block) (st : Search) : Prop where
  absent : st.best = none → NoneFits size blocks ∧ st.count = blocks.length
  present : ∀ i addr, st.best = some (i, addr) → Chosen c.policy size blocks i (addr, st.bestSize) ∧
    st.count = if c.policy = .first then i + 1 else blocks.length

theorem Chosen.append {blocks : List Block} {i : ℕ} {b : Block}
    (h : Chosen .first size blocks i b) (rest : List Block) :
    Chosen .first size (blocks ++ rest) i b := by
  have hi := (List.getElem?_eq_some_iff.mp h.at_index).1
  refine ⟨(List.getElem?_append_left hi).trans h.at_index, h.fits, ?_⟩
  intro j b' hb' hle
  rcases Nat.lt_or_ge j blocks.length with hlt | hge
  · rw [List.getElem?_append_left hlt] at hb'
    exact h.better j b' hb' hle
  · exact (hi.trans_le hge).le

theorem search_found (seen rest : List Block)
    (hsentinel : ∀ b ∈ seen ++ rest, prefers c.policy b.2 (Search.start c).bestSize)
    (h : Searched c size seen st) (hfirst : c.policy = .first → st.best = none) :
    Found c size (seen ++ rest) (search c.policy size seen.length st rest) := by
  induction rest generalizing seen st with
  | nil =>
    rw [List.append_nil]
    refine ⟨fun hnone => ⟨(h.absent hnone).1, h.count⟩, fun i addr hsome => ?_⟩
    refine ⟨h.present i addr hsome, ?_⟩
    rw [if_neg]
    · exact h.count
    · intro hpolicy
      have hsome' : st.best = some (i, addr) := hsome
      rw [hfirst hpolicy] at hsome'
      cases hsome'
  | cons e rest ih =>
    obtain ⟨eaddr, esize⟩ := e
    have hsplit : seen ++ (eaddr, esize) :: rest = (seen ++ [(eaddr, esize)]) ++ rest := by simp
    have hlength : seen.length + 1 = (seen ++ [(eaddr, esize)]).length := by simp
    unfold search
    simp only
    split
    · rename_i hcond
      have htaken := h.take (e := (eaddr, esize)) hcond.1 hcond.2 hfirst
      split
      · rename_i hpolicy
        rw [hsplit]
        refine ⟨?_, ?_⟩
        · intro hnone
          cases hnone
        · intro i addr hsome
          have hchosen := htaken.present i addr hsome
          cases hsome
          rw [hpolicy] at hchosen ⊢
          exact ⟨hchosen.append rest, by rw [if_pos rfl, h.count]⟩
      · rename_i hpolicy
        rw [hsplit, hlength]
        exact ih _ (hsplit ▸ hsentinel) htaken (fun heq => absurd heq hpolicy)
    · rename_i hcond
      rw [hsplit, hlength]
      refine ih _ (hsplit ▸ hsentinel) (h.skip (e := (eaddr, esize)) hcond ?_) hfirst
      intro hnone
      rw [(h.absent hnone).2]
      exact hsentinel _ (List.mem_append_right _ List.mem_cons_self)

end Freespace
