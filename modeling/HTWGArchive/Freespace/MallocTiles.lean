import HTWGArchive.Freespace.MallocSearch

namespace Freespace

open Tiling

variable {c : Config} {h h' : Heap}

def Tiled (c : Config) (h : Heap) : Prop :=
  Tiles c.start (c.start + c.size) (h.freelist ++ h.sizemap)

-- What is left of the free list once `size` has been cut from block `i`.
def carve (freelist : List Block) (i : ℕ) (b : Block) (size : ℤ) : List Block :=
  if size < b.2 then freelist.set i (b.1 + size, b.2 - size) else freelist.eraseIdx i

theorem Tiled.sentinel (ht : Tiled c h) :
    ∀ b ∈ h.freelist, prefers c.policy b.2 (Search.start c).bestSize := by
  intro b hb
  have hmem : b ∈ h.freelist ++ h.sizemap := List.mem_append_left _ hb
  have hpos := ht.pos b hmem
  have hwithin := ht.within hmem
  cases hpolicy : c.policy with
  | best =>
    simp only [prefers, Search.start, hpolicy, if_true]
    omega
  | worst =>
    simp only [prefers, Search.start, hpolicy, reduceCtorEq, if_false]
    omega
  | first => trivial

-- A block cannot be free and allocated at once.
theorem Tiled.unmapped (ht : Tiled c h) {b : Block} (hb : b ∈ h.freelist) :
    ∀ b' ∈ h.sizemap, b'.1 ≠ b.1 := by
  intro b' hb' heq
  obtain ⟨pre, post, hsplit⟩ := List.append_of_mem hb
  have hperm : (h.freelist ++ h.sizemap).Perm (b :: (pre ++ post ++ h.sizemap)) := by
    rw [hsplit]
    exact List.perm_middle.append_right _
  have hapart := (ht.perm hperm).pairwise
  rw [List.pairwise_cons] at hapart
  have hb2 := ht.pos b (List.mem_append_left _ hb)
  have hb2' := ht.pos b' (List.mem_append_right _ hb')
  rcases hapart.1 b' (List.mem_append_right _ hb') with hle | hle
  · omega
  · omega

theorem addToMap_eq (freelist : List Block) (sizemap : List Block) {addr : ℤ} (size : ℤ)
    (hfree : ∀ b ∈ sizemap, b.1 ≠ addr) :
    addToMap { freelist := freelist, sizemap := sizemap } addr size =
      some { freelist := freelist, sizemap := sizemap ++ [(addr, size)] } := by
  rw [addToMap, if_neg]
  intro hany
  obtain ⟨b, hb, heq⟩ := List.any_eq_true.mp hany
  exact hfree b hb (by simpa using heq)

theorem malloc_found (ht : Tiled c h) (size : ℤ) :
    Found c (blockSize c size) h.freelist
      (search c.policy (blockSize c size) 0 (Search.start c) h.freelist) := by
  exact search_found [] h.freelist ht.sentinel (searched_start c (blockSize c size)) (fun _ => rfl)

-- What a call of `malloc` can do.
theorem malloc_cases (ht : Tiled c h) (size : ℤ) :
    (NoneFits (blockSize c size) h.freelist ∧
      malloc c h size = some (h, -1, h.freelist.length)) ∨
    ∃ i b, Chosen c.policy (blockSize c size) h.freelist i b ∧
      malloc c h size = some (
        { freelist := carve h.freelist i b (blockSize c size)
          sizemap := h.sizemap ++ [(b.1, blockSize c size)] }, b.1,
        if c.policy = .first then i + 1 else h.freelist.length) := by
  obtain ⟨habsent, hpresent⟩ := malloc_found ht size
  simp only [malloc]
  rcases hbest : (search c.policy (blockSize c size) 0 (Search.start c) h.freelist).best with
    - | ⟨i, addr⟩
  · obtain ⟨hfits, hcount⟩ := habsent hbest
    exact Or.inl ⟨hfits, by rw [hcount]⟩
  · obtain ⟨hchosen, hcount⟩ := hpresent i addr hbest
    refine Or.inr ⟨i, _, hchosen, ?_⟩
    have hmap := ht.unmapped (List.mem_of_getElem? hchosen.at_index)
    have hfits := hchosen.fits
    simp only [carve, hcount, addToMap_eq _ _ _ hmap, Option.map_some]
    simp only at hfits
    split
    · rfl
    · rw [if_pos (by omega)]

theorem carve_perm {freelist : List Block} {i : ℕ} {b : Block} (hb : freelist[i]? = some b)
    (size : ℤ) : freelist.Perm (b :: freelist.eraseIdx i) ∧
      (size < b.2 →
        (carve freelist i b size).Perm ((b.1 + size, b.2 - size) :: freelist.eraseIdx i)) := by
  obtain ⟨hi, rfl⟩ := List.getElem?_eq_some_iff.mp hb
  refine ⟨(List.getElem_cons_eraseIdx_perm hi).symm, fun hlt => ?_⟩
  rw [carve, if_pos hlt]
  exact List.set_perm_cons_eraseIdx hi _

theorem Tiled.carve (ht : Tiled c h) {i : ℕ} {b : Block} {size : ℤ} (hb : h.freelist[i]? = some b)
    (hsize : 0 < size) (hfits : size ≤ b.2) :
    Tiled c { freelist := carve h.freelist i b size, sizemap := h.sizemap ++ [(b.1, size)] } := by
  obtain ⟨hfree, hcarved⟩ := carve_perm hb size
  have hall : (h.freelist ++ h.sizemap).Perm (b :: (h.freelist.eraseIdx i ++ h.sizemap)) :=
    hfree.append_right _
  rcases hfits.lt_or_eq with hlt | heq
  · refine ((ht.perm hall).split hsize hlt).perm ?_
    have hmove : ((b.1, size) :: (h.freelist.eraseIdx i ++ h.sizemap)).Perm
        (h.freelist.eraseIdx i ++ (h.sizemap ++ [(b.1, size)])) := by
      rw [← List.append_assoc]
      exact (List.perm_append_singleton _ _).symm
    exact (hmove.cons _).trans ((hcarved hlt).symm.append_right _)
  · have hwhole : Freespace.carve h.freelist i b size = h.freelist.eraseIdx i :=
      if_neg (not_lt.mpr heq.ge)
    refine (ht.perm hall).perm ?_
    rw [hwhole, heq, ← List.append_assoc]
    exact (List.perm_append_singleton _ _).symm

theorem malloc_tiled (ht : Tiled c h) {size : ℤ} (hsize : 0 < blockSize c size) :
    ∃ h' addr count, malloc c h size = some (h', addr, count) ∧ Tiled c h' := by
  rcases malloc_cases ht size with ⟨-, heq⟩ | ⟨i, b, hchosen, heq⟩
  · exact ⟨_, _, _, heq, ht⟩
  · exact ⟨_, _, _, heq, ht.carve hchosen.at_index hsize hchosen.fits⟩

theorem insert_perm (order : Order) (b : Block) (freelist : List Block) :
    (insert order b freelist).Perm (b :: freelist) := by
  have hback : (freelist ++ [b]).Perm (b :: freelist) := List.perm_append_singleton b freelist
  cases order with
  | insertBack => exact hback
  | insertFront => exact List.Perm.refl _
  | addrsort => exact (List.perm_insertionSort _ _).trans hback
  | sizesortUp => exact (List.perm_insertionSort _ _).trans hback
  | sizesortDown => exact (List.perm_insertionSort _ _).trans hback

theorem coalesceFrom_tiles {start stop : ℤ} {curr : Block} {rest others : List Block}
    (ht : Tiles start stop (curr :: rest ++ others)) :
    Tiles start stop (coalesceFrom curr rest ++ others) := by
  induction rest generalizing curr others with
  | nil => exact ht
  | cons e rest ih =>
    obtain ⟨eaddr, esize⟩ := e
    unfold coalesceFrom
    split
    · rename_i heq
      subst heq
      exact ih ht.join
    · have hswap : (curr :: (eaddr, esize) :: rest ++ others).Perm
          ((eaddr, esize) :: rest ++ curr :: others) :=
        List.perm_middle.symm
      exact (ih (ht.perm hswap)).perm List.perm_middle

theorem coalesceAll_tiles {start stop : ℤ} {freelist others : List Block}
    (ht : Tiles start stop (freelist ++ others)) :
    Tiles start stop (coalesceAll freelist ++ others) := by
  cases freelist with
  | nil => exact ht
  | cons curr rest => exact coalesceFrom_tiles ht

theorem find_perm {sizemap : List Block} {addr : ℤ} {b : Block}
    (hb : sizemap.find? (fun b => b.1 = addr) = some b) :
    b.1 = addr ∧ sizemap.Perm (b :: sizemap.eraseP (fun b => b.1 = addr)) := by
  refine ⟨by simpa using List.find?_some hb, ?_⟩
  induction sizemap with
  | nil => cases hb
  | cons e sizemap ih =>
    by_cases he : e.1 = addr
    · rw [List.find?_cons_of_pos (by simpa using he)] at hb
      rw [List.eraseP_cons_of_pos (by simpa using he)]
      obtain rfl := Option.some.inj hb
      exact List.Perm.refl _
    · rw [List.find?_cons_of_neg (by simpa using he)] at hb
      rw [List.eraseP_cons_of_neg (by simpa using he)]
      exact ((ih hb).cons e).trans (List.Perm.swap _ _ _)

theorem free_tiled (ht : Tiled c h) (addr : ℤ) : Tiled c (free c h addr).1 := by
  unfold free
  split
  · exact ht
  · rename_i b hb
    obtain ⟨hkey, hperm⟩ := find_perm hb
    have hinsert : Tiles c.start (c.start + c.size)
        (insert c.returnPolicy (addr, b.2) h.freelist ++
          h.sizemap.eraseP (fun b => b.1 = addr)) := by
      refine ht.perm ?_
      have hblock : (addr, b.2) = b := Prod.ext hkey.symm rfl
      rw [hblock]
      refine (hperm.append_left _).trans ?_
      exact List.perm_middle.trans ((insert_perm c.returnPolicy b h.freelist).symm.append_right _)
    show Tiles _ _ (_ ++ _)
    simp only
    split
    · exact coalesceAll_tiles hinsert
    · exact hinsert

-- Every request takes at least one byte.
def Positive (c : Config) (calls : List Call) : Prop :=
  ∀ size, Call.malloc size ∈ calls → 0 < blockSize c size

theorem init_tiled (hsize : 0 < c.size) : Tiled c (init c) := by
  have hsingle : Tiles c.start (c.start + c.size) _ := Tiles.single (by omega)
  rw [add_sub_cancel_left] at hsingle
  exact hsingle

theorem runFrom_tiled {calls : List Call} (ht : Tiled c h) (hcalls : Positive c calls) :
    ∃ h', calls.foldlM (call c) h = some h' ∧ Tiled c h' := by
  induction calls generalizing h with
  | nil => exact ⟨h, rfl, ht⟩
  | cons e calls ih =>
    have hrest : Positive c calls := fun size hmem => hcalls size (List.mem_cons_of_mem _ hmem)
    cases e with
    | malloc size =>
      obtain ⟨h', addr, count, heq, ht'⟩ := malloc_tiled ht (hcalls size List.mem_cons_self)
      obtain ⟨h'', hrun, ht''⟩ := ih ht' hrest
      refine ⟨h'', ?_, ht''⟩
      rw [List.foldlM_cons, call, heq]
      exact hrun
    | free addr => exact ih (free_tiled ht addr) hrest

-- Whatever the policy, the order of the list and the alignment: no assertion fails and the free
-- and the allocated blocks are the heap, without an overlap and without a leak.
theorem run_tiles (c : Config) (hsize : 0 < c.size) (calls : List Call)
    (hcalls : Positive c calls) :
    ∃ h, run c calls = some h ∧
      Tiles c.start (c.start + c.size) (h.freelist ++ h.sizemap) ∧
      (h.freelist ++ h.sizemap).Pairwise Apart ∧
      ((h.freelist ++ h.sizemap).map Prod.snd).sum = c.size := by
  obtain ⟨h, hrun, ht⟩ := runFrom_tiled (init_tiled hsize) hcalls
  refine ⟨h, hrun, ht, ht.pairwise, ?_⟩
  rw [ht.sum (by omega), add_sub_cancel_left]

theorem run_tiles_mixed : ∃ h,
    run ⟨100, 1000, 4, .worst, .sizesortDown, true, 8, Or.inr (by decide)⟩
    [.malloc 3, .malloc 20, .free 1000, .malloc 5, .free 7] = some h ∧
      Tiles 1000 (1000 + 100) (h.freelist ++ h.sizemap) ∧
      (h.freelist ++ h.sizemap).Pairwise Apart ∧
      ((h.freelist ++ h.sizemap).map Prod.snd).sum = 100 :=
  run_tiles _ (by decide) _ (by simp [Positive, blockSize])

def small : Config :=
  ⟨20, 1000, 0, .best, .insertBack, false, -1, Or.inl rfl⟩

end Freespace
