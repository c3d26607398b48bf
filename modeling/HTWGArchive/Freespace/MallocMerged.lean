import HTWGArchive.Freespace.MallocTiles

namespace Freespace

open Tiling

variable {c : Config} {h : Heap}

def Ordered (a b : Block) : Prop :=
  a.1 + a.2 ≤ b.1

-- There is something allocated between two free blocks.
def Gapped (a b : Block) : Prop :=
  a.1 + a.2 < b.1

theorem carve_gapped {freelist : List Block} {i : ℕ} {b : Block} {size : ℤ}
    (hgapped : freelist.Pairwise Gapped) (hb : freelist[i]? = some b) (hsize : 0 < size) :
    (carve freelist i b size).Pairwise Gapped := by
  unfold carve
  split
  · obtain ⟨hi, rfl⟩ := List.getElem?_eq_some_iff.mp hb
    rw [List.pairwise_iff_getElem] at hgapped ⊢
    intro j k hj hk hjk
    rw [List.length_set] at hj hk
    have hold := hgapped j k hj hk hjk
    rw [List.getElem_set, List.getElem_set]
    unfold Gapped at hold ⊢
    split
    · rename_i hij
      subst hij
      rw [if_neg hjk.ne]
      simp only
      omega
    · split
      · rename_i hik
        subst hik
        simp only
        omega
      · exact hold
  · exact hgapped.sublist (List.eraseIdx_sublist _ _)

theorem ordered_of_sorted {blocks : List Block} (hpos : ∀ b ∈ blocks, 0 < b.2)
    (hsorted : blocks.Pairwise (fun a b => a.1 ≤ b.1)) (hapart : blocks.Pairwise Apart) :
    blocks.Pairwise Ordered := by
  refine (hsorted.and hapart).imp_of_mem ?_
  intro a b ha hb hab
  have ha2 := hpos a ha
  have hb2 := hpos b hb
  unfold Ordered
  rcases hab.2 with hle | hle
  · exact hle
  · have hle' := hab.1
    omega

theorem merge_ordered {curr : Block} {esize : ℤ} {rest : List Block}
    (hpos : ∀ b ∈ curr :: (curr.1 + curr.2, esize) :: rest, 0 < b.2)
    (hordered : (curr :: (curr.1 + curr.2, esize) :: rest).Pairwise Ordered) :
    (∀ b ∈ (curr.1, curr.2 + esize) :: rest, 0 < b.2) ∧
      ((curr.1, curr.2 + esize) :: rest).Pairwise Ordered := by
  obtain ⟨hcurr, hrest⟩ := List.pairwise_cons.mp hordered
  obtain ⟨hnext, hrest'⟩ := List.pairwise_cons.mp hrest
  refine ⟨?_, List.Pairwise.cons ?_ hrest'⟩
  · intro b hb
    rcases List.mem_cons.mp hb with rfl | hb
    · exact add_pos (hpos _ List.mem_cons_self)
        (hpos _ (List.mem_cons_of_mem _ List.mem_cons_self))
    · exact hpos b (List.mem_cons_of_mem _ (List.mem_cons_of_mem _ hb))
  · intro b hb
    have hlater : curr.1 + curr.2 + esize ≤ b.1 := hnext b hb
    simp only [Ordered]
    omega

theorem coalesceFrom_ge {curr : Block} {rest : List Block} (hpos : ∀ b ∈ curr :: rest, 0 < b.2)
    (hordered : (curr :: rest).Pairwise Ordered) : ∀ b ∈ coalesceFrom curr rest, curr.1 ≤ b.1 := by
  induction rest generalizing curr with
  | nil =>
    intro b hb
    obtain rfl := List.mem_singleton.mp hb
    exact le_refl _
  | cons e rest ih =>
    obtain ⟨eaddr, esize⟩ := e
    obtain ⟨hcurr, hrest⟩ := List.pairwise_cons.mp hordered
    have hfirst : curr.1 + curr.2 ≤ eaddr := hcurr _ List.mem_cons_self
    have hcurr2 := hpos curr List.mem_cons_self
    have hesize : 0 < esize := hpos _ (List.mem_cons_of_mem _ List.mem_cons_self)
    unfold coalesceFrom
    split
    · rename_i heq
      subst heq
      obtain ⟨hpos'', hordered'⟩ := merge_ordered hpos hordered
      exact ih hpos'' hordered'
    · intro b hb
      rcases List.mem_cons.mp hb with rfl | hb
      · exact le_refl _
      · have hge : eaddr ≤ b.1 := ih (fun b hb => hpos b (List.mem_cons_of_mem _ hb)) hrest b hb
        omega

theorem coalesceFrom_gapped {curr : Block} {rest : List Block}
    (hpos : ∀ b ∈ curr :: rest, 0 < b.2) (hordered : (curr :: rest).Pairwise Ordered) :
    (coalesceFrom curr rest).Pairwise Gapped := by
  induction rest generalizing curr with
  | nil => exact List.pairwise_singleton _ _
  | cons e rest ih =>
    obtain ⟨eaddr, esize⟩ := e
    obtain ⟨hcurr, hrest⟩ := List.pairwise_cons.mp hordered
    have hfirst : curr.1 + curr.2 ≤ eaddr := hcurr _ List.mem_cons_self
    have hcurr2 := hpos curr List.mem_cons_self
    have hesize : 0 < esize := hpos _ (List.mem_cons_of_mem _ List.mem_cons_self)
    have hpos' : ∀ b ∈ (eaddr, esize) :: rest, 0 < b.2 :=
      fun b hb => hpos b (List.mem_cons_of_mem _ hb)
    unfold coalesceFrom
    split
    · rename_i heq
      subst heq
      obtain ⟨hpos'', hordered'⟩ := merge_ordered hpos hordered
      exact ih hpos'' hordered'
    · rename_i hne
      refine List.Pairwise.cons ?_ (ih hpos' hrest)
      intro b hb
      have hge : eaddr ≤ b.1 := coalesceFrom_ge hpos' hrest b hb
      simp only [Gapped]
      omega

structure Merged (c : Config) (h : Heap) : Prop where
  tiled : Tiled c h
  gapped : h.freelist.Pairwise Gapped

theorem Merged.malloc (hm : Merged c h) {size : ℤ} (hsize : 0 < blockSize c size) {h' : Heap}
    {addr : ℤ} {count : ℕ} (hmalloc : malloc c h size = some (h', addr, count)) : Merged c h' := by
  rcases malloc_cases hm.tiled size with ⟨-, heq⟩ | ⟨i, b, hchosen, heq⟩
  · rw [heq] at hmalloc
    cases hmalloc
    exact hm
  · rw [heq] at hmalloc
    cases hmalloc
    exact ⟨hm.tiled.carve hchosen.at_index hsize hchosen.fits,
      carve_gapped hm.gapped hchosen.at_index hsize⟩

theorem Merged.free (hm : Merged c h) (horder : c.returnPolicy = .addrsort)
    (hcoalesce : c.coalesce = true) (addr : ℤ) : Merged c (free c h addr).1 := by
  refine ⟨free_tiled hm.tiled addr, ?_⟩
  unfold Freespace.free
  split
  · exact hm.gapped
  · rename_i b hb
    obtain ⟨hkey, hperm⟩ := find_perm hb
    have hblock : (addr, b.2) = b := Prod.ext hkey.symm rfl
    simp only [hcoalesce, if_true, horder, hblock]
    have hinsert : (insert .addrsort b h.freelist ++
        h.sizemap.eraseP (fun b => b.1 = addr)).Perm (h.freelist ++ h.sizemap) := by
      refine ((insert_perm .addrsort b h.freelist).append_right _).trans ?_
      exact List.perm_middle.symm.trans (hperm.symm.append_left _)
    have htiles := hm.tiled.perm hinsert.symm
    have hpos : ∀ e ∈ insert .addrsort b h.freelist, 0 < e.2 :=
      fun e he => htiles.pos e (List.mem_append_left _ he)
    have hordered : (insert .addrsort b h.freelist).Pairwise Ordered := by
      refine ordered_of_sorted hpos ?_ ((List.pairwise_append.mp htiles.pairwise).1)
      exact List.pairwise_insertionSort _ _
    generalize insert .addrsort b h.freelist = freelist at hpos hordered
    cases freelist with
    | nil => exact List.Pairwise.nil
    | cons curr rest => exact coalesceFrom_gapped hpos hordered

theorem run_merged (horder : c.returnPolicy = .addrsort) (hcoalesce : c.coalesce = true)
    {calls : List Call} (hm : Merged c h) (hcalls : Positive c calls) :
    ∃ h', calls.foldlM (call c) h = some h' ∧ Merged c h' := by
  induction calls generalizing h with
  | nil => exact ⟨h, rfl, hm⟩
  | cons e calls ih =>
    have hrest : Positive c calls := fun size hmem => hcalls size (List.mem_cons_of_mem _ hmem)
    cases e with
    | malloc size =>
      have hsize := hcalls size List.mem_cons_self
      obtain ⟨h', addr, count, heq, -⟩ := malloc_tiled hm.tiled hsize
      obtain ⟨h'', hrun, hm''⟩ := ih (hm.malloc hsize heq) hrest
      refine ⟨h'', ?_, hm''⟩
      rw [List.foldlM_cons, call, heq]
      exact hrun
    | free addr => exact ih (hm.free horder hcoalesce addr) hrest

-- Whatever stretch of the heap nothing is allocated in lies in one free block.
theorem Merged.room (hm : Merged c h) {x n : ℤ} (hn : 0 < n) (hstart : c.start ≤ x)
    (hstop : x + n ≤ c.start + c.size) (hapart : ∀ b ∈ h.sizemap, Apart (x, n) b) :
    ∃ b ∈ h.freelist, b.1 ≤ x ∧ x + n ≤ b.1 + b.2 := by
  have hfree : ∀ p, x ≤ p ∧ p < x + n → ∃ b ∈ h.freelist, b.1 ≤ p ∧ p < b.1 + b.2 := by
    intro p hp
    obtain ⟨b, hb, hin⟩ := hm.tiled.exists_mem (p := p) ⟨by omega, by omega⟩
    rcases List.mem_append.mp hb with hfree | halloc
    · exact ⟨b, hfree, hin⟩
    · rcases hapart b halloc with hle | hle
      · simp only at hle
        omega
      · simp only at hle
        omega
  obtain ⟨b, hb, hin⟩ := hfree x ⟨le_refl _, by omega⟩
  refine ⟨b, hb, hin.1, ?_⟩
  by_contra hshort
  have hshort' := not_le.mp hshort
  -- The byte after the block is free as well, in a block that the first one has a gap to.
  obtain ⟨b', hb', hin'⟩ := hfree (b.1 + b.2) ⟨by omega, by omega⟩
  have hne : b ≠ b' := by
    rintro rfl
    omega
  have hsymm : Std.Symm (fun e e' : Block => Gapped e e' ∨ Gapped e' e) := ⟨fun _ _ => Or.symm⟩
  have hgap := (hm.gapped.imp (S := fun e e' => Gapped e e' ∨ Gapped e' e) Or.inl).forall hb hb' hne
  unfold Gapped at hgap
  omega

theorem Merged.whole (hm : Merged c h) (hsize : 0 < c.size) (hnone : h.sizemap = []) :
    h.freelist = [(c.start, c.size)] := by
  obtain ⟨b, hb, hfirst, hlast⟩ := hm.room hsize (le_refl _) (le_refl _) (by simp [hnone])
  have hinside : ∀ e ∈ h.freelist, c.start ≤ e.1 ∧ e.1 + e.2 ≤ c.start + c.size ∧ 0 < e.2 := by
    intro e he
    have hmem : e ∈ h.freelist ++ h.sizemap := List.mem_append_left _ he
    exact ⟨(hm.tiled.within hmem).1, (hm.tiled.within hmem).2, hm.tiled.pos e hmem⟩
  have hwithin := hinside b hb
  have hwhole : b = (c.start, c.size) := Prod.ext (by omega) (by omega)
  obtain ⟨pre, post, hsplit⟩ := List.append_of_mem hb
  have hgapped := hm.gapped
  rw [hsplit, List.pairwise_append] at hgapped
  have hpre : pre = [] := by
    refine List.eq_nil_iff_forall_not_mem.mpr fun e he => ?_
    have hgap : e.1 + e.2 < b.1 := hgapped.2.2 e he b List.mem_cons_self
    have he' := hinside e (hsplit ▸ List.mem_append_left _ he)
    omega
  have hpost : post = [] := by
    refine List.eq_nil_iff_forall_not_mem.mpr fun e he => ?_
    have hgap : b.1 + b.2 < e.1 := (List.pairwise_cons.mp hgapped.2.1).1 e he
    have he' := hinside e (hsplit ▸ List.mem_append_right _ (List.mem_cons_of_mem _ he))
    omega
  rw [hsplit, hpre, hpost, hwhole]
  rfl

theorem init_merged (hsize : 0 < c.size) : Merged c (init c) :=
  ⟨init_tiled hsize, List.pairwise_singleton _ _⟩

theorem Merged.fails_iff (hm : Merged c h) (hstart : 0 ≤ c.start) {size : ℤ}
    (hpos : 0 < blockSize c size) : (∃ h' count, Freespace.malloc c h size = some (h', -1, count)) ↔
      ¬ ∃ x, c.start ≤ x ∧ x + blockSize c size ≤ c.start + c.size ∧
        ∀ b ∈ h.sizemap, Apart (x, blockSize c size) b := by
  have hdisjoint := (List.pairwise_append.mp hm.tiled.pairwise).2.2
  rcases malloc_cases hm.tiled size with ⟨hnone, heq⟩ | ⟨i, b, hchosen, heq⟩
  · refine iff_of_true ⟨_, _, heq⟩ ?_
    rintro ⟨x, hx, hstop, hapart⟩
    obtain ⟨b, hb, hfirst, hlast⟩ := hm.room hpos hx hstop hapart
    have hsmall := hnone b hb
    omega
  · have hb := List.mem_of_getElem? hchosen.at_index
    have hwithin := hm.tiled.within (List.mem_append_left _ hb)
    have hfits := hchosen.fits
    refine iff_of_false ?_ (not_not.mpr ⟨b.1, hwithin.1, by omega, ?_⟩)
    · rintro ⟨h', count, hfail⟩
      have haddr := congrArg (fun r => r.2.1) (Option.some.inj (heq.symm.trans hfail))
      simp only at haddr
      omega
    · intro b' hb'
      have hapart := hdisjoint b hb b' hb'
      unfold Apart at hapart ⊢
      simp only
      omega

def sorted : Config :=
  { small with policy := .first, returnPolicy := .addrsort, coalesce := true }

end Freespace
