import HTWGArchive.Library.Recency
import HTWGArchive.Paging.MultilevelTables
import Mathlib.Data.List.Perm.Subperm

namespace MultilevelTranslate

open PageTables

variable {a b d v n base : ℕ} {s s' s₁ : OS} {root : ℕ → Option Page}
  {owner owner' owner₁ : Page → Option Use} {dir t pp : Page} {vps : List ℕ}

-- How many pages of the page table it takes to map these.
def slots (vps : List ℕ) : ℕ :=
  (vps.map (fun v => v / 32)).dedup.length

theorem slots_append (vps : List ℕ) (v : ℕ) :
    slots (vps ++ [v]) = slots vps + if v / 32 ∈ vps.map (fun v => v / 32) then 0 else 1 := by
  rw [slots, List.map_append]
  exact Recency.length_dedup_append _ _

theorem slots_le (h : ∀ v ∈ vps, v < 1024) : slots vps ≤ min vps.length 32 := by
  have hlength : slots vps ≤ vps.length := by
    have hle := (List.dedup_sublist (vps.map (fun v => v / 32))).length_le
    rwa [List.length_map] at hle
  have hsub : (vps.map (fun v => v / 32)).dedup ⊆ List.range 32 := by
    intro i hi
    obtain ⟨v, hv, rfl⟩ := List.mem_map.mp (List.mem_dedup.mp hi)
    have hlt := h v hv
    exact List.mem_range.mpr (by omega)
  have hrange := ((List.nodup_dedup _).subperm hsub).length_le
  rw [List.length_range] at hrange
  exact le_min hlength hrange

-- The process has exactly these virtual pages, and the tables that they need.
structure Holds (owner : Page → Option Use) (a : ℕ) (vps : List ℕ) : Prop where
  nodup : vps.Nodup
  lt : ∀ v ∈ vps, v < 1024
  data : ∀ i j : Index, (∃ p, owner p = some (.data a i j)) ↔ 32 * (i : ℕ) + j ∈ vps
  table : ∀ i : Index, (∃ t, owner t = some (.table a i)) ↔ ∃ v ∈ vps, v / 32 = i

theorem dirIndex_shiftLeft (hv : v < 1024) : (dirIndex (v <<< pageBits) : ℕ) = v / 32 := by
  simp only [dirIndex, pageBits, Nat.shiftLeft_eq]
  omega

theorem tableIndex_shiftLeft (v : ℕ) : (tableIndex (v <<< pageBits) : ℕ) = v % 32 := by
  simp only [tableIndex, pageBits, Nat.shiftLeft_eq]
  omega

theorem Holds.push (h : Holds owner a vps) (hv : v < 1024) (hnew : v ∉ vps)
    (hdata : ∀ i j, (∃ p, owner' p = some (.data a i j)) ↔ (∃ p, owner p = some (.data a i j)) ∨
      (i = dirIndex (v <<< pageBits) ∧ j = tableIndex (v <<< pageBits)))
    (htable : ∀ i, (∃ t, owner' t = some (.table a i)) ↔ (∃ t, owner t = some (.table a i)) ∨
      i = dirIndex (v <<< pageBits)) : Holds owner' a (vps ++ [v]) := by
  have hdir := dirIndex_shiftLeft hv
  have htab := tableIndex_shiftLeft v
  refine ⟨?_, ?_, ?_, ?_⟩
  · rw [List.nodup_append]
    refine ⟨h.nodup, List.nodup_singleton v, ?_⟩
    intro w hw x hx
    obtain rfl := List.mem_singleton.mp hx
    exact fun heq => hnew (heq ▸ hw)
  · intro w hw
    rcases List.mem_append.mp hw with hold | hlast
    · exact h.lt w hold
    · exact (List.mem_singleton.mp hlast) ▸ hv
  · intro i j
    rw [hdata, h.data, List.mem_append, List.mem_singleton, Fin.ext_iff, Fin.ext_iff, hdir, htab]
    have hi := i.isLt
    have hj := j.isLt
    refine or_congr Iff.rfl ⟨fun heq => ?_, fun heq => ?_⟩ <;> omega
  · intro i
    rw [htable, h.table, Fin.ext_iff, hdir]
    constructor
    · rintro (⟨w, hw, heq⟩ | heq)
      · exact ⟨w, List.mem_append_left _ hw, heq⟩
      · exact ⟨v, List.mem_append_right _ List.mem_cons_self, heq.symm⟩
    · rintro ⟨w, hw, heq⟩
      rcases List.mem_append.mp hw with hold | hlast
      · exact Or.inl ⟨w, hold, heq⟩
      · obtain rfl := List.mem_singleton.mp hlast
        exact Or.inr heq.symm

theorem Holds.grown (h : Holds owner b vps) (hgrown : Grown a s s' owner owner') (hne : b ≠ a) :
    Holds owner' b vps := by
  refine ⟨h.nodup, h.lt, ?_, ?_⟩
  · intro i j
    rw [← h.data]
    exact exists_congr (fun p => hgrown.owns p _ hne)
  · intro i
    rw [← h.table]
    exact exists_congr (fun p => hgrown.owns p _ hne)

theorem Holds.no_data (h : Holds owner a vps) (hv : v < 1024) (hnew : v ∉ vps) (q : Page) :
    owner q ≠ some (.data a (dirIndex (v <<< pageBits)) (tableIndex (v <<< pageBits))) := by
  intro hq
  have hmem := (h.data _ _).mp ⟨q, hq⟩
  rw [dirIndex_shiftLeft hv, tableIndex_shiftLeft, Nat.div_add_mod] at hmem
  exact hnew hmem

theorem Holds.mem_slots (h : Holds owner a vps) (hv : v < 1024) :
    (∃ t, owner t = some (.table a (dirIndex (v <<< pageBits)))) ↔
      v / 32 ∈ vps.map (fun v => v / 32) := by
  rw [h.table, dirIndex_shiftLeft hv, List.mem_map]

def dataUse (a v : ℕ) : Use :=
  .data a (dirIndex (v <<< pageBits)) (tableIndex (v <<< pageBits))

theorem allocVirtualPage_of_table (h : Paged s root owner)
    (hnone : ∀ q, owner q ≠ some (dataUse a v)) (hfree : owner pp = none)
    (hused : s.usedPages pp = true) (ht : owner t = some (.table a (dirIndex (v <<< pageBits))))
    (hpage : pageTablePage a (v <<< pageBits) s₁ = .ok ((t : ℕ), s)) :
    ∃ s', allocVirtualPage a v pp s₁ = .ok s' ∧ s'.usedPagesCount = s.usedPagesCount ∧
      Paged s' root (Function.update owner pp (some (dataUse a v))) ∧
      Grown a s s' owner (Function.update owner pp (some (dataUse a v))) := by
  have hcell := (h.tables.table ht (tableIndex (v <<< pageBits))).of_none hnone
  obtain ⟨hpaged, hgrown⟩ := newData_paged h ht hnone hfree hused
  refine ⟨setPageTableEntry (32 * t + tableIndex (v <<< pageBits)) pp s, ?_, rfl, hpaged, hgrown⟩
  simp only [allocVirtualPage, hpage, getPageTableEntry_eq, hcell, coding_blank]
  rfl

theorem Holds.push_data (h : Holds owner a vps) (hv : v < 1024) (hnew : v ∉ vps)
    (hfree : owner₁ pp = none)
    (hdata : ∀ i j, (∃ p, owner₁ p = some (.data a i j)) ↔ ∃ p, owner p = some (.data a i j))
    (htables : ∀ i, (∃ t, owner₁ t = some (.table a i)) ↔ (∃ t, owner t = some (.table a i)) ∨
      i = dirIndex (v <<< pageBits)) :
    Holds (Function.update owner₁ pp (some (dataUse a v))) a (vps ++ [v]) := by
  refine h.push hv hnew ?_ ?_
  · intro i j
    rw [exists_update_owner hfree, hdata, dataUse]
    simp
  · intro i
    rw [exists_update_owner hfree, htables, dataUse]
    simp

theorem allocVirtualPage_spec (h : Paged s root owner) (hroot : root a = some dir)
    (hold : Holds owner a vps) (hv : v < 1024) (hnew : v ∉ vps) (hfree : owner pp = none)
    (hused : s.usedPages pp = true) :
    (∃ fault, allocVirtualPage a v pp s = .error fault ∧ Stops s.usedPagesCount fault ∧
      slots (vps ++ [v]) = slots vps + 1) ∨
    ∃ s' owner', allocVirtualPage a v pp s = .ok s' ∧ Paged s' root owner' ∧
      Grown a s s' owner owner' ∧ Holds owner' a (vps ++ [v]) ∧
      owner' pp = some (dataUse a v) ∧
      s'.usedPagesCount + slots vps = s.usedPagesCount + slots (vps ++ [v]) := by
  have hmore := slots_append vps v
  have hmem := hold.mem_slots hv
  have hdata := hold.no_data hv hnew
  obtain ⟨t, ht, hpage⟩ | ⟨hnone, hpage⟩ := pageTablePage_cases h hroot (v <<< pageBits)
  · obtain ⟨s', heq, hcount, hpaged, hgrown⟩ :=
      allocVirtualPage_of_table h hdata hfree hused ht hpage
    rw [if_pos (hmem.mp ⟨t, ht⟩)] at hmore
    refine Or.inr ⟨s', _, heq, hpaged, hgrown, hold.push_data hv hnew hfree
      (fun _ _ => Iff.rfl) (fun i => ⟨Or.inl, ?_⟩), Function.update_self _ _ _, by omega⟩
    rintro (hsome | rfl)
    · exact hsome
    · exact ⟨t, ht⟩
  · rw [if_neg (fun hin => (hmem.mpr hin).elim hnone)] at hmore
    cases hfind : findFree s with
    | error fault =>
      rw [hfind] at hpage
      refine Or.inl ⟨fault, ?_, findFree_error hfind, hmore⟩
      simp only [allocVirtualPage, hpage]
    | ok r =>
      obtain ⟨look, s₁⟩ := r
      obtain ⟨t, rfl, htfree, htused, hcount₁, hpaged₁, hgrown₁, hne⟩ := findFree_paged h hfind a
      rw [hfind] at hpage
      obtain ⟨hpaged₂, hgrown₂⟩ := newTable_paged hpaged₁ hroot hnone htfree htused
      have hfree₂ : Function.update owner t
          (some (Owner.table a (dirIndex (v <<< pageBits)))) pp = none := by
        rw [Function.update_of_ne (hne pp hused)]
        exact hfree
      have hdata₂ : ∀ q, Function.update owner t
          (some (Owner.table a (dirIndex (v <<< pageBits)))) q ≠ some (dataUse a v) := by
        intro q hq
        exact hdata q ((update_owner_iff htfree (by simp)).mp hq)
      obtain ⟨s', heq, hcount, hpaged, hgrown⟩ := allocVirtualPage_of_table hpaged₂ hdata₂ hfree₂
        (hgrown₁.used pp hused) (Function.update_self _ _ _) hpage
      refine Or.inr ⟨s', _, heq, hpaged, hgrown₁.trans (hgrown₂.trans hgrown),
        hold.push_data hv hnew hfree₂ ?_ ?_,
        Function.update_self _ _ _, ?_⟩
      · intro i j
        rw [exists_update_owner htfree]
        simp
      · intro i
        rw [exists_update_owner htfree]
        simp
      · have hinit : (initPageTablePage t (setPageDirEntry
            (32 * dir + dirIndex (v <<< pageBits)) t s₁)).usedPagesCount = s₁.usedPagesCount := rfl
        omega

theorem fillPage_paged (h : Paged s root owner) {i j : Index}
    (hpp : owner pp = some (.data a i j)) (hfill : fillPage pp (List.range pageSize) s = .ok s') :
    Paged s' root owner ∧ Grown a s s' owner owner ∧ s'.usedPagesCount = s.usedPagesCount := by
  obtain ⟨hs', hother⟩ := fillPage_of_ne (fun j hj => List.mem_range.mp hj) hfill
  have hsame : ∀ q use, owner q = some use → use ≠ .data a i j →
      ∀ k, cells s'.memory q k = cells s.memory q k := by
    intro q use hq huse k
    refine hother q ?_ k
    rintro rfl
    rw [hpp] at hq
    exact huse (Option.some.inj hq).symm
  have hused : s'.usedPages = s.usedPages := by rw [hs']
  refine ⟨⟨?_, ?_, ?_⟩, ⟨?_, fun _ _ _ => Iff.rfl, ?_⟩, ?_⟩
  · refine h.tables.fill ?_
    intro q use hq hinner k _
    refine hsame q use hq ?_ k
    rintro rfl
    cases hinner
  · rw [hs']
    exact h.pdbr
  · rw [hused]
    exact h.used
  · rw [hused]
    exact fun _ hp => hp
  · intro q use huse hq k
    exact hsame q use hq (fun heq => huse (heq ▸ rfl)) k
  · rw [hs']

def TooMuch (count : ℕ) (fault : Fault) : Prop :=
  fault = .noDraw ∨ (fault = .noFreePage ∧ 128 < count)

theorem Stops.tooMuch {count count' : ℕ} {fault : Fault} (h : Stops count fault)
    (hlt : count < count') : TooMuch count' fault := by
  obtain rfl | ⟨rfl, hle⟩ := h
  · exact Or.inl rfl
  · exact Or.inr ⟨rfl, by omega⟩

theorem allocPages_spec (h : Paged s root owner) (hroot : root a = some dir)
    (hold : Holds owner a vps) (hcount : s.usedPagesCount = base + vps.length + slots vps) :
    (∃ fault, allocPages a n vps s = .error fault ∧
      TooMuch (base + (vps.length + n) + min (vps.length + n) 32) fault) ∨
    ∃ vps' s' owner', allocPages a n vps s = .ok (vps', s') ∧ Paged s' root owner' ∧
      Grown a s s' owner owner' ∧ Holds owner' a vps' ∧ vps'.length = vps.length + n ∧
      s'.usedPagesCount = base + vps'.length + slots vps' := by
  induction n generalizing s owner vps with
  | zero =>
    exact Or.inr ⟨vps, s, owner, rfl, h, Grown.refl a s owner, hold, rfl, hcount⟩
  | succ n ih =>
    have hslots := slots_le hold.lt
    unfold allocPages
    cases hdraw : drawUntil vaPages (fun vp => vps.contains vp) s.draws with
    | error fault => exact Or.inl ⟨fault, rfl, Or.inl (drawUntil_error hdraw)⟩
    | ok r =>
      obtain ⟨v, draws⟩ := r
      obtain ⟨hv, hnew⟩ := drawUntil_spec hdraw
      have hnew : v ∉ vps := by simpa using hnew
      have hdrawn : Paged { s with draws := draws } root owner := ⟨h.tables, h.pdbr, h.used⟩
      have hgrown : Grown a s { s with draws := draws } owner owner :=
        ⟨fun _ hp => hp, fun _ _ _ => Iff.rfl, fun _ _ _ _ _ => rfl⟩
      simp only
      cases hfind : findFree { s with draws := draws } with
      | error fault =>
        exact Or.inl ⟨fault, rfl, (findFree_error hfind).tooMuch (by simp only [hcount]; omega)⟩
      | ok r =>
        obtain ⟨look, s₁⟩ := r
        obtain ⟨pp, rfl, hfree, hused, hcount₁, hpaged₁, hgrown₁, -⟩ :=
          findFree_paged hdrawn hfind a
        obtain ⟨fault, heq, hstops, hmore⟩ | ⟨s₂, owner₂, heq, hpaged₂, hgrown₂, hold₂, hpp,
          hcount₂⟩ := allocVirtualPage_spec hpaged₁ hroot hold hv hnew hfree hused
        · have hslots' : slots (vps ++ [v]) ≤ min (vps ++ [v]).length 32 := by
            apply slots_le
            intro w hw
            rcases List.mem_append.mp hw with hw | hw
            · exact hold.lt w hw
            · exact (List.mem_singleton.mp hw) ▸ hv
          rw [List.length_append, List.length_singleton, hmore] at hslots'
          simp only [heq]
          exact Or.inl ⟨fault, rfl, hstops.tooMuch (by simp only [hcount₁, hcount]; omega)⟩
        · simp only [heq]
          cases hfill : fillPage pp (List.range pageSize) s₂ with
          | error fault => exact Or.inl ⟨fault, rfl, Or.inl (fillPage_error hfill)⟩
          | ok s₃ =>
            obtain ⟨hpaged₃, hgrown₃, hcount₃⟩ := fillPage_paged hpaged₂ hpp hfill
            have hlength : (vps ++ [v]).length = vps.length + 1 := List.length_append
            have hnext : s₃.usedPagesCount = base + (vps ++ [v]).length + slots (vps ++ [v]) := by
              simp only [hcount] at hcount₁
              omega
            have hsum : (vps ++ [v]).length + n = vps.length + (n + 1) := by omega
            have hrest := ih hpaged₃ hold₂ hnext
            rw [hsum] at hrest
            obtain hstop | ⟨vps', s', owner', hok, hpaged', hgrown', hold', hlen, hcount'⟩ := hrest
            · exact Or.inl hstop
            · exact Or.inr ⟨vps', s', owner', hok, hpaged', hgrown.trans (hgrown₁.trans
                (hgrown₂.trans (hgrown₃.trans hgrown'))), hold', hlen, hcount'⟩

theorem newDirectory_paged (h : Paged s root owner) (hroot : root a = none)
    (hfree : owner dir = none) (hused : s.usedPages dir = true) :
    Paged (initPageDir dir { s with pdbr := Function.update s.pdbr a (some (dir : ℕ)) })
        (Function.update root a (some dir))
        (Function.update owner dir (some (.directory a))) ∧
      Grown a s (initPageDir dir { s with pdbr := Function.update s.pdbr a (some (dir : ℕ)) })
        owner (Function.update owner dir (some (.directory a))) := by
  have hother : ∀ q use, owner q = some use → ∀ i,
      cells (initPageDir dir { s with pdbr := Function.update s.pdbr a (some (dir : ℕ)) }).memory
        q i = cells s.memory q i := by
    intro q use hq i
    refine initPageDir_of_ne _ ?_ i
    rintro rfl
    rw [hfree] at hq
    cases hq
  refine ⟨⟨?_, ?_, ?_⟩, ⟨fun _ hp => hp, ?_, ?_⟩⟩
  · exact h.tables.newDirectory hroot hfree (fun i => initPageDir_same dir _ i)
      (fun q use hq _ i _ => hother q use hq i)
  · intro b
    rcases eq_or_ne b a with rfl | hne
    · exact (Function.update_self b _ _).trans
        (by rw [Function.update_self]; rfl)
    · exact (Function.update_of_ne hne _ _).trans
        ((h.pdbr b).trans (by rw [Function.update_of_ne hne]))
  · intro q hq
    rcases eq_or_ne q dir with rfl | hne
    · exact hused
    · rw [Function.update_of_ne hne] at hq
      exact h.used q hq
  · intro q use huse
    exact update_owner_iff hfree (fun heq => huse (heq ▸ rfl))
  · exact fun q use _ hq i => hother q use hq i

theorem Paged.holds_nil (h : Paged s root owner) (hroot : root a = none)
    (hfree : owner dir = none) :
    Holds (Function.update owner dir (some (.directory a))) a [] := by
  have hnodir : ∀ q, owner q ≠ some (.directory a) := by
    intro q hq
    rw [← h.tables.root, hroot] at hq
    cases hq
  have hnotable : ∀ i, ¬ ∃ t, owner t = some (.table a i) := by
    rintro i ⟨t, ht⟩
    obtain ⟨d, hd⟩ := h.tables.rooted ht
    exact hnodir d hd
  refine ⟨List.nodup_nil, fun _ hv => absurd hv List.not_mem_nil, ?_, ?_⟩
  · intro i j
    rw [exists_update_owner hfree]
    refine iff_of_false ?_ List.not_mem_nil
    rintro (⟨p, hp⟩ | hbad)
    · exact hnotable i (h.tables.tabled hp)
    · cases hbad
  · intro i
    rw [exists_update_owner hfree]
    refine iff_of_false ?_ (by simp)
    rintro (hsome | hbad)
    · exact hnotable i hsome
    · cases hbad

theorem procAlloc_spec (h : Paged s root owner) (hroot : root a = none) (numPages : ℕ) :
    (∃ fault, procAlloc a numPages s = .error fault ∧
      TooMuch (s.usedPagesCount + (1 + numPages + min numPages 32)) fault) ∨
    ∃ vps s' owner' dir, procAlloc a numPages s = .ok (vps, s') ∧
      Paged s' (Function.update root a (some dir)) owner' ∧ Grown a s s' owner owner' ∧
      Holds owner' a vps ∧ vps.length = numPages ∧
      s'.usedPagesCount ≤ s.usedPagesCount + (1 + numPages + min numPages 32) := by
  unfold procAlloc
  cases hfind : findFree s with
  | error fault => exact Or.inl ⟨fault, rfl, (findFree_error hfind).tooMuch (by omega)⟩
  | ok r =>
    obtain ⟨look, s₁⟩ := r
    obtain ⟨dir, rfl, hfree, hused, hcount₁, hpaged₁, hgrown₁, -⟩ := findFree_paged h hfind a
    obtain ⟨hpaged₂, hgrown₂⟩ := newDirectory_paged hpaged₁ hroot hfree hused
    have hstart : (initPageDir dir
        { s₁ with pdbr := Function.update s₁.pdbr a (some (dir : ℕ)) }).usedPagesCount =
          s.usedPagesCount + 1 + ([] : List ℕ).length + slots [] := hcount₁
    obtain ⟨fault, heq, hstop⟩ | ⟨vps, s', owner', heq, hpaged', hgrown', hold, hlen, hcount⟩ :=
      @allocPages_spec a numPages (s.usedPagesCount + 1) _ _ _ dir [] hpaged₂
        (Function.update_self _ _ _) (h.holds_nil hroot hfree) hstart
    · have hbound : s.usedPagesCount + 1 + (([] : List ℕ).length + numPages) +
          min (([] : List ℕ).length + numPages) 32 =
            s.usedPagesCount + (1 + numPages + min numPages 32) := by
        simp only [List.length_nil, Nat.zero_add]
        omega
      rw [hbound] at hstop
      exact Or.inl ⟨fault, heq, hstop⟩
    · have hslots := slots_le hold.lt
      have hlen' : vps.length = numPages := by simpa using hlen
      exact Or.inr ⟨vps, s', owner', dir, heq, hpaged', hgrown₁.trans (hgrown₂.trans hgrown'),
        hold, hlen', by omega⟩

structure System (s : OS) (allocated : List (ℕ × List ℕ)) (root : ℕ → Option Page)
    (owner : Page → Option Use) : Prop where
  paged : Paged s root owner
  holds : ∀ a vps, (a, vps) ∈ allocated → Holds owner a vps
  root : ∀ a, root a ≠ none ↔ a ∈ allocated.map Prod.fst

def demand (calls : List (ℕ × ℕ)) : ℕ :=
  (calls.map (fun call => 1 + call.2 + min call.2 32)).sum

theorem System.procAlloc {before : List (ℕ × List ℕ)} (h : System s before root owner)
    (hnew : a ∉ before.map Prod.fst) (numPages : ℕ) :
    (∃ fault, procAlloc a numPages s = .error fault ∧
      TooMuch (s.usedPagesCount + (1 + numPages + min numPages 32)) fault) ∨
    ∃ vps s' root' owner', procAlloc a numPages s = .ok (vps, s') ∧
      System s' (before ++ [(a, vps)]) root' owner' ∧ Grown a s s' owner owner' ∧
      vps.length = numPages ∧
      s'.usedPagesCount ≤ s.usedPagesCount + (1 + numPages + min numPages 32) := by
  have hroot : root a = none := by
    by_contra hne
    exact hnew ((h.root a).mp hne)
  obtain hstop | ⟨vps, s', owner', dir, heq, hpaged, hgrown, hold, hlen, hcount⟩ :=
    procAlloc_spec h.paged hroot numPages
  · exact Or.inl hstop
  · refine Or.inr ⟨vps, s', _, owner', heq, ⟨hpaged, ?_, ?_⟩, hgrown, hlen, hcount⟩
    · intro b vps' hmem
      rcases List.mem_append.mp hmem with hold' | hlast
      · refine (h.holds b vps' hold').grown hgrown ?_
        rintro rfl
        exact hnew (List.mem_map.mpr ⟨_, hold', rfl⟩)
      · cases List.mem_singleton.mp hlast
        exact hold
    · intro b
      rw [List.map_append, List.mem_append, ← h.root b]
      rcases eq_or_ne b a with rfl | hne
      · simp
      · simp [hne]

-- What a process has is as it was, and so are the bytes in it.
structure Same (b : ℕ) (s s' : OS) (owner owner' : Page → Option Use) : Prop where
  owns : ∀ p use, use.process = b → (owner' p = some use ↔ owner p = some use)
  bytes : ∀ p use, use.process = b → owner p = some use →
    ∀ i, cells s'.memory p i = cells s.memory p i

theorem Grown.same (h : Grown a s s' owner owner') (hne : b ≠ a) : Same b s s' owner owner' := by
  refine ⟨fun p use huse => h.owns p use ?_, fun p use huse => h.bytes p use ?_⟩
  · exact fun heq => hne (huse.symm.trans heq)
  · exact fun heq => hne (huse.symm.trans heq)

theorem Same.trans (h : Same b s s₁ owner owner₁) (h' : Same b s₁ s' owner₁ owner') :
    Same b s s' owner owner' := by
  refine ⟨fun p use huse => (h'.owns p use huse).trans (h.owns p use huse), ?_⟩
  intro p use huse hp i
  exact (h'.bytes p use huse ((h.owns p use huse).mpr hp) i).trans (h.bytes p use huse hp i)

theorem procAllocs_spec {before : List (ℕ × List ℕ)} {calls : List (ℕ × ℕ)}
    (h : System s before root owner)
    (hnodup : (before.map Prod.fst ++ calls.map Prod.fst).Nodup) :
    (∃ fault, procAllocs calls s = .error fault ∧
      TooMuch (s.usedPagesCount + demand calls) fault) ∨
    ∃ l s' root' owner', procAllocs calls s = .ok (l, s') ∧ System s' (before ++ l) root' owner' ∧
      (∀ b ∈ before.map Prod.fst, Same b s s' owner owner') ∧
      l.map (fun r => (r.1, r.2.length)) = calls := by
  induction calls generalizing s before root owner with
  | nil =>
    exact Or.inr ⟨[], s, root, owner, rfl, by rwa [List.append_nil],
      fun _ _ => ⟨fun _ _ _ => Iff.rfl, fun _ _ _ _ _ => rfl⟩, rfl⟩
  | cons call calls ih =>
    obtain ⟨a, numPages⟩ := call
    have hnew : a ∉ before.map Prod.fst := by
      intro hmem
      exact (List.nodup_append.mp hnodup).2.2 a hmem a List.mem_cons_self rfl
    have hdemand : demand ((a, numPages) :: calls) =
        1 + numPages + min numPages 32 + demand calls := rfl
    unfold procAllocs
    obtain ⟨fault, heq, hstop⟩ | ⟨vps, s₁, root₁, owner₁, heq, hsys, hgrown, hlen, hcount⟩ :=
      h.procAlloc hnew numPages
    · simp only [heq]
      refine Or.inl ⟨fault, rfl, ?_⟩
      obtain rfl | ⟨rfl, hlt⟩ := hstop
      · exact Or.inl rfl
      · exact Or.inr ⟨rfl, by omega⟩
    · have hnodup' : ((before ++ [(a, vps)]).map Prod.fst ++ calls.map Prod.fst).Nodup := by
        simpa using hnodup
      simp only [heq]
      obtain ⟨fault, heq', hstop⟩ | ⟨l, s', root', owner', heq', hsys', hsame, hl⟩ :=
        ih hsys hnodup'
      · rw [heq']
        refine Or.inl ⟨fault, rfl, ?_⟩
        obtain rfl | ⟨rfl, hlt⟩ := hstop
        · exact Or.inl rfl
        · exact Or.inr ⟨rfl, by omega⟩
      · rw [heq']
        refine Or.inr ⟨(a, vps) :: l, s', root', owner', rfl, ?_, ?_, ?_⟩
        · simpa using hsys'
        · intro b hb
          have hne : b ≠ a := fun heq => hnew (heq ▸ hb)
          refine (hgrown.same hne).trans (hsame b ?_)
          rw [List.map_append]
          exact List.mem_append_left _ hb
        · rw [List.map_cons, hl, hlen]

theorem procAllocs_append {calls : List (ℕ × ℕ)} {l : List (ℕ × List ℕ)} (more : List (ℕ × ℕ))
    (h : procAllocs calls s = .ok (l, s₁)) :
    procAllocs (calls ++ more) s = (procAllocs more s₁).map (fun r => (l ++ r.1, r.2)) := by
  induction calls generalizing s l with
  | nil =>
    cases h
    rw [List.nil_append]
    cases procAllocs more s₁ with
    | error fault => rfl
    | ok r => rfl
  | cons call calls ih =>
    cases hone : procAlloc call.1 call.2 s with
    | error fault =>
      simp only [procAllocs, hone] at h
      cases h
    | ok r =>
      cases hrest : procAllocs calls r.2 with
      | error fault =>
        simp only [procAllocs, hone, hrest] at h
        cases h
      | ok r' =>
        simp only [procAllocs, hone, hrest] at h
        cases h
        have hlater := ih hrest
        cases hmore : procAllocs more r'.2 with
        | error fault =>
          rw [hmore] at hlater
          simp only [List.cons_append, procAllocs, hone, hlater]
          rfl
        | ok r'' =>
          rw [hmore] at hlater
          simp only [List.cons_append, procAllocs, hone, hlater]
          rfl

theorem init_system (draws : List ℕ) :
    System (OS.init draws) [] (fun _ => none) (fun _ => none) := by
  refine ⟨⟨⟨?_, ?_, ?_, ?_, ?_⟩, fun _ => rfl, fun _ hp => absurd rfl hp⟩, ?_, ?_⟩ <;> simp

end MultilevelTranslate
