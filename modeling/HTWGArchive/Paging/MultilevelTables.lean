import HTWGArchive.Library.PageTables
import HTWGArchive.Paging.MultilevelTranslate

namespace MultilevelTranslate

open PageTables

abbrev Page := Fin 128

abbrev Index := Fin 32

abbrev Use := Owner ℕ Index

theorem and_PDE_MASK (virtualAddr : ℕ) :
    (virtualAddr &&& PDE_MASK) >>> PDE_SHIFT = virtualAddr / 1024 % 32 := by
  rw [PDE_SHIFT, Nat.shiftRight_and_distrib, Nat.shiftRight_eq_div_pow]
  exact Nat.and_two_pow_sub_one_eq_mod _ 5

theorem and_PTE_MASK (virtualAddr : ℕ) :
    (virtualAddr &&& PTE_MASK) >>> PTE_SHIFT = virtualAddr / 32 % 32 := by
  rw [PTE_SHIFT, Nat.shiftRight_and_distrib, Nat.shiftRight_eq_div_pow]
  exact Nat.and_two_pow_sub_one_eq_mod _ 5

theorem and_OFFSET_MASK (virtualAddr : ℕ) : virtualAddr &&& OFFSET_MASK = virtualAddr % 32 :=
  Nat.and_two_pow_sub_one_eq_mod _ 5

theorem shiftLeft_or (page : ℕ) {bits : ℕ} (h : bits < 32) :
    (page <<< pageBits) ||| bits = 32 * page + bits := by
  rw [pageBits, ← Nat.shiftLeft_add_eq_or_of_lt (b := bits) (i := 5) h, Nat.shiftLeft_eq]
  omega

theorem or_page {page : ℕ} (h : page < 128) : 0x80 ||| page = 128 + page :=
  (Nat.shiftLeft_add_eq_or_of_lt (b := page) (i := 7) h 1).symm

theorem and_valid (entry : ℕ) : (entry &&& 0x80) >>> 7 = entry / 128 % 2 := by
  rw [Nat.shiftRight_and_distrib, Nat.shiftRight_eq_div_pow]
  exact Nat.and_two_pow_sub_one_eq_mod _ 1

theorem and_pfn (entry : ℕ) : entry &&& 0x7f = entry % 128 :=
  Nat.and_two_pow_sub_one_eq_mod _ 7

def target (entry : ℕ) : Option Page :=
  if entry / 128 % 2 = 0 then none else some ⟨entry % 128, Nat.mod_lt _ (by decide)⟩

theorem target_add (page : Page) : target (128 + page) = some page := by
  have hlt := page.isLt
  have hvalid : (128 + (page : ℕ)) / 128 % 2 = 1 := by omega
  have hpfn : (128 + (page : ℕ)) % 128 = page := by omega
  simp only [target, hvalid, hpfn, Nat.one_ne_zero, if_false]

def coding : Coding Page ℕ where
  entry := fun page => 128 + (page : ℕ)
  target := target
  blank := 127
  target_entry := target_add
  target_blank := rfl

theorem coding_entry (page : Page) : coding.entry page = 128 + (page : ℕ) :=
  rfl

theorem coding_blank : coding.blank = 127 :=
  rfl

theorem coding_target (entry : ℕ) : coding.target entry = target entry :=
  rfl

def cells (memory : ℕ → ℕ) (page : Page) (i : Index) : ℕ :=
  memory (32 * page + i)

theorem cells_update_same {memory : ℕ → ℕ} (page : Page) (i : Index) (value : ℕ) :
    cells (Function.update memory (32 * page + i) value) page i = value :=
  Function.update_self _ _ _

theorem cells_update_of_ne {memory : ℕ → ℕ} {page q : Page} {i j : Index} (value : ℕ)
    (h : ¬ OneCell page i q j) :
    cells (Function.update memory (32 * page + i) value) q j = cells memory q j := by
  refine Function.update_of_ne (fun heq => h ?_) _ _
  have hi := i.isLt
  have hj := j.isLt
  exact ⟨Fin.ext (by omega), Fin.ext (by omega)⟩

-- What a loop over the bytes of one page leaves alone.
theorem foldl_update_of_ne {addr base : ℕ} (memory : ℕ → ℕ) (value : ℕ) (l : List ℕ)
    (h : ∀ i ∈ l, base + i ≠ addr) :
    l.foldl (fun memory i => Function.update memory (base + i) value) memory addr =
      memory addr := by
  induction l generalizing memory with
  | nil => rfl
  | cons i l ih =>
    rw [List.foldl_cons, ih _ (fun j hj => h j (List.mem_cons_of_mem _ hj)),
      Function.update_of_ne (h i List.mem_cons_self).symm]

theorem foldl_update_of_mem {base i : ℕ} (memory : ℕ → ℕ) (value : ℕ) {l : List ℕ} (h : i ∈ l) :
    l.foldl (fun memory i => Function.update memory (base + i) value) memory (base + i) =
      value := by
  induction l generalizing memory with
  | nil => exact absurd h List.not_mem_nil
  | cons k l ih =>
    rw [List.foldl_cons]
    by_cases hi : i ∈ l
    · exact ih _ hi
    · obtain rfl | hmem := List.mem_cons.mp h
      · rw [foldl_update_of_ne _ _ _ (fun j hj heq => hi (by
          obtain rfl : j = i := by omega
          exact hj)), Function.update_self]
      · exact absurd hmem hi

theorem initPageDir_same (page : Page) (s : OS) (i : Index) :
    cells (initPageDir page s).memory page i = 127 := by
  have hbase : 32 * (page : ℕ) + i = (page : ℕ) <<< pageBits + i := by
    rw [pageBits, Nat.shiftLeft_eq]
    omega
  rw [cells, hbase]
  exact foldl_update_of_mem _ _ (List.mem_range.mpr i.isLt)

theorem initPageDir_of_ne {page q : Page} (s : OS) (h : q ≠ page) (i : Index) :
    cells (initPageDir page s).memory q i = cells s.memory q i := by
  refine foldl_update_of_ne _ _ _ (fun j hj heq => h (Fin.ext ?_))
  have hj' := List.mem_range.mp hj
  have hi := i.isLt
  rw [pageBits, Nat.shiftLeft_eq] at heq
  rw [pageSize] at hj'
  omega

theorem fillPage_of_ne {page : Page} {js : List ℕ} {s s' : OS} (hjs : ∀ j ∈ js, j < 32)
    (h : fillPage page js s = .ok s') :
    s' = { s with memory := s'.memory, draws := s'.draws } ∧
      ∀ q ≠ page, ∀ i, cells s'.memory q i = cells s.memory q i := by
  induction js generalizing s with
  | nil =>
    cases h
    exact ⟨rfl, fun _ _ _ => rfl⟩
  | cons j js ih =>
    unfold fillPage at h
    split at h
    · cases h
    · split at h
      · obtain ⟨hrest, hother⟩ := ih (fun k hk => hjs k (List.mem_cons_of_mem _ hk)) h
        refine ⟨hrest, fun q hq i => (hother q hq i).trans ?_⟩
        refine Function.update_of_ne (fun heq => hq (Fin.ext ?_)) _ _
        have hj := hjs j List.mem_cons_self
        have hi := i.isLt
        rw [pageSize] at heq
        omega
      · cases h

theorem fillPage_error {page : ℕ} {js : List ℕ} {s : OS} {fault : Fault}
    (h : fillPage page js s = .error fault) : fault = .noDraw := by
  induction js generalizing s with
  | nil => cases h
  | cons j js ih =>
    unfold fillPage at h
    split at h
    · cases h
      rfl
    · split at h
      · exact ih h
      · cases h
        rfl

theorem drawUntil_spec {n look : ℕ} {taken : ℕ → Bool} {draws draws' : List ℕ}
    (h : drawUntil n taken draws = .ok (look, draws')) : look < n ∧ taken look = false := by
  induction draws with
  | nil => cases h
  | cons r draws ih =>
    unfold drawUntil at h
    split at h
    · cases h
    · rename_i hlt
      split at h
      · exact ih h
      · rename_i hfree
        cases h
        exact ⟨by omega, by simpa using hfree⟩

theorem drawUntil_error {n : ℕ} {taken : ℕ → Bool} {draws : List ℕ} {fault : Fault}
    (h : drawUntil n taken draws = .error fault) : fault = .noDraw := by
  induction draws with
  | nil =>
    cases h
    rfl
  | cons r draws ih =>
    unfold drawUntil at h
    split at h
    · cases h
      rfl
    · split at h
      · exact ih h
      · cases h

theorem findFree_spec {s s' : OS} {look : ℕ} (h : findFree s = .ok (look, s')) :
    ∃ page : Page, look = page ∧ s.usedPages page = false ∧
      s' = { s with usedPagesCount := s.usedPagesCount + 1
                    usedPages := Function.update s.usedPages page true
                    draws := s'.draws } := by
  unfold findFree at h
  split at h
  · split at h
    · cases h
    · rename_i hdraw
      cases h
      obtain ⟨hlt, hfree⟩ := drawUntil_spec hdraw
      exact ⟨⟨look, hlt⟩, rfl, hfree, rfl⟩
  · cases h

def Stops (count : ℕ) (fault : Fault) : Prop :=
  fault = .noDraw ∨ (fault = .noFreePage ∧ 128 ≤ count)

theorem findFree_error {s : OS} {fault : Fault} (h : findFree s = .error fault) :
    Stops s.usedPagesCount fault := by
  unfold findFree at h
  split at h
  · split at h
    · rename_i hdraw
      cases h
      exact Or.inl (drawUntil_error hdraw)
    · cases h
  · rename_i hfull
    cases h
    exact Or.inr ⟨rfl, Nat.le_of_not_lt hfull⟩

def dirIndex (virtualAddr : ℕ) : Index :=
  ⟨virtualAddr / 1024 % 32, Nat.mod_lt _ (by decide)⟩

def tableIndex (virtualAddr : ℕ) : Index :=
  ⟨virtualAddr / 32 % 32, Nat.mod_lt _ (by decide)⟩

theorem getPageDirEntry_eq {s : OS} {a : ℕ} {d : Page} (virtualAddr : ℕ)
    (h : s.pdbr a = some (d : ℕ)) :
    getPageDirEntry a virtualAddr s = .ok (cells s.memory d (dirIndex virtualAddr) / 128 % 2,
      cells s.memory d (dirIndex virtualAddr) % 128, 32 * d + dirIndex virtualAddr) := by
  have haddr : ((d : ℕ) <<< pageBits) ||| (virtualAddr / 1024 % 32) =
      32 * d + virtualAddr / 1024 % 32 := shiftLeft_or _ (Nat.mod_lt _ (by decide))
  simp only [getPageDirEntry, h, and_PDE_MASK, haddr, and_valid, and_pfn, dirIndex, cells]

theorem getPageTableEntry_eq (s : OS) (t : Page) (virtualAddr : ℕ) :
    getPageTableEntry virtualAddr t s = (cells s.memory t (tableIndex virtualAddr) / 128 % 2,
      cells s.memory t (tableIndex virtualAddr) % 128, 32 * (t : ℕ) + tableIndex virtualAddr) := by
  have haddr : ((t : ℕ) <<< pageBits) ||| (virtualAddr / 32 % 32) =
      32 * t + virtualAddr / 32 % 32 := shiftLeft_or _ (Nat.mod_lt _ (by decide))
  simp only [getPageTableEntry, and_PTE_MASK, haddr, and_valid, and_pfn, tableIndex, cells]

structure Paged (s : OS) (root : ℕ → Option Page) (owner : Page → Option Use) : Prop where
  tables : Tables coding root (cells s.memory) owner
  pdbr : ∀ a, s.pdbr a = (root a).map Fin.val
  used : ∀ p, owner p ≠ none → s.usedPages p = true

-- The pages of the other processes are as they were.
structure Grown (a : ℕ) (s s' : OS) (owner owner' : Page → Option Use) : Prop where
  used : ∀ p : Page, s.usedPages p = true → s'.usedPages p = true
  owns : ∀ p use, use.process ≠ a → (owner' p = some use ↔ owner p = some use)
  bytes : ∀ p use, use.process ≠ a → owner p = some use →
    ∀ i, cells s'.memory p i = cells s.memory p i

variable {a : ℕ} {s s' s₁ : OS} {root : ℕ → Option Page}
  {owner owner' owner₁ : Page → Option Use} {d t pp : Page}

theorem Grown.refl (a : ℕ) (s : OS) (owner : Page → Option Use) : Grown a s s owner owner :=
  ⟨fun _ h => h, fun _ _ _ => Iff.rfl, fun _ _ _ _ _ => rfl⟩

theorem Grown.trans (h : Grown a s s₁ owner owner₁) (h' : Grown a s₁ s' owner₁ owner') :
    Grown a s s' owner owner' := by
  refine ⟨fun p hp => h'.used p (h.used p hp), ?_, ?_⟩
  · intro p use huse
    exact (h'.owns p use huse).trans (h.owns p use huse)
  · intro p use huse hp i
    exact (h'.bytes p use huse ((h.owns p use huse).mpr hp) i).trans (h.bytes p use huse hp i)

theorem Paged.free (h : Paged s root owner) {p : Page} (hp : s.usedPages p = false) :
    owner p = none := by
  by_contra hne
  rw [h.used p hne] at hp
  cases hp

theorem findFree_paged (h : Paged s root owner) {look : ℕ} (hfind : findFree s = .ok (look, s'))
    (a : ℕ) :
    ∃ page : Page, look = page ∧ owner page = none ∧ s'.usedPages page = true ∧
      s'.usedPagesCount = s.usedPagesCount + 1 ∧ Paged s' root owner ∧ Grown a s s' owner owner ∧
        ∀ q : Page, s.usedPages q = true → q ≠ page := by
  obtain ⟨page, rfl, hfree, hs'⟩ := findFree_spec hfind
  have hne : ∀ q : Page, s.usedPages q = true → q ≠ page := by
    rintro q hq rfl
    rw [hfree] at hq
    cases hq
  have hkeep : ∀ q : Page, s.usedPages q = true → s'.usedPages q = true := by
    intro q hq
    rw [hs']
    exact (Function.update_of_ne (fun heq => hne q hq (Fin.ext heq)) _ _).trans hq
  refine ⟨page, rfl, h.free hfree, ?_, ?_, ⟨?_, ?_, ?_⟩, ⟨hkeep, fun _ _ _ => Iff.rfl, ?_⟩, hne⟩
  · rw [hs']
    exact Function.update_self _ _ _
  · rw [hs']
  · rw [hs']
    exact h.tables
  · rw [hs']
    exact h.pdbr
  · exact fun q hq => hkeep q (h.used q hq)
  · intro p use _ _ i
    rw [hs']

theorem pageTablePage_cases (h : Paged s root owner) (hroot : root a = some d)
    (virtualAddr : ℕ) :
    (∃ t : Page, owner t = some (.table a (dirIndex virtualAddr)) ∧
      pageTablePage a virtualAddr s = .ok ((t : ℕ), s)) ∨
    ((∀ q, owner q ≠ some (.table a (dirIndex virtualAddr))) ∧
      pageTablePage a virtualAddr s =
        match findFree s with
        | .error fault => .error fault
        | .ok (ptePage, s) => .ok (ptePage, initPageTablePage ptePage
            (setPageDirEntry (32 * d + dirIndex virtualAddr) ptePage s))) := by
  have hpdbr : s.pdbr a = some (d : ℕ) := by
    rw [h.pdbr, hroot]
    rfl
  unfold pageTablePage
  rw [getPageDirEntry_eq virtualAddr hpdbr]
  obtain ⟨hcell, hnone⟩ | ⟨t, hcell, ht⟩ :=
    h.tables.directory ((h.tables.root a d).mp hroot) (dirIndex virtualAddr)
  · refine Or.inr ⟨hnone, ?_⟩
    rw [hcell, coding_blank]
    rfl
  · have hvalid : (128 + (t : ℕ)) / 128 % 2 ≠ 0 := by omega
    have hpage : (128 + (t : ℕ)) % 128 = t := by omega
    refine Or.inl ⟨t, (ht t).mpr rfl, ?_⟩
    rw [hcell, coding_entry]
    simp only [if_neg hvalid, hpage]

-- The new page of the page table: blank, and reached from the directory.
theorem newTable_paged (h : Paged s root owner) (hroot : root a = some d) {i : Index}
    (hnone : ∀ q, owner q ≠ some (.table a i)) (hfree : owner t = none)
    (hused : s.usedPages t = true) :
    Paged (initPageTablePage t (setPageDirEntry (32 * d + i) t s)) root
        (Function.update owner t (some (.table a i))) ∧
      Grown a s (initPageTablePage t (setPageDirEntry (32 * d + i) t s)) owner
        (Function.update owner t (some (.table a i))) := by
  have hd := (h.tables.root a d).mp hroot
  have hne : d ≠ t := by
    rintro rfl
    rw [hd] at hfree
    cases hfree
  have hother : ∀ q j, q ≠ t → ¬ OneCell d i q j →
      cells (initPageTablePage t (setPageDirEntry (32 * d + i) t s)).memory q j =
        cells s.memory q j := by
    intro q j hq hcell
    exact (initPageDir_of_ne _ hq j).trans (cells_update_of_ne _ hcell)
  refine ⟨⟨?_, h.pdbr, ?_⟩, fun _ hp => hp, ?_, ?_⟩
  · refine h.tables.newTable hd hnone hfree ?_ ?_ ?_
    · have hentry : 0x80 ||| (t : ℕ) = 128 + t := or_page t.isLt
      refine (initPageDir_of_ne _ hne i).trans ((cells_update_same d i _).trans ?_)
      rw [hentry, coding_entry]
    · exact fun j => initPageDir_same t _ j
    · intro q use hq _ j hcell
      refine hother q j ?_ hcell
      rintro rfl
      rw [hfree] at hq
      cases hq
  · intro q hq
    rcases eq_or_ne q t with rfl | hqt
    · exact hused
    · rw [Function.update_of_ne hqt] at hq
      exact h.used q hq
  · intro q use huse
    exact update_owner_iff hfree (fun heq => huse (heq ▸ rfl))
  · intro q use huse hq j
    refine hother q j ?_ ?_
    · rintro rfl
      rw [hfree] at hq
      cases hq
    · rintro ⟨rfl, -⟩
      rw [hd] at hq
      cases hq
      exact huse rfl

theorem newData_paged (h : Paged s root owner) {i j : Index}
    (ht : owner t = some (.table a i)) (hnone : ∀ q, owner q ≠ some (.data a i j))
    (hfree : owner pp = none) (hused : s.usedPages pp = true) :
    Paged (setPageTableEntry (32 * t + j) pp s) root
        (Function.update owner pp (some (.data a i j))) ∧
      Grown a s (setPageTableEntry (32 * t + j) pp s) owner
        (Function.update owner pp (some (.data a i j))) := by
  refine ⟨⟨?_, h.pdbr, ?_⟩, fun _ hp => hp, ?_, ?_⟩
  · refine h.tables.newData ht hnone hfree ?_ ?_
    · have hentry : 0x80 ||| (pp : ℕ) = 128 + pp := or_page pp.isLt
      refine (cells_update_same t j _).trans ?_
      rw [hentry, coding_entry]
    · exact fun q use _ _ k hcell => cells_update_of_ne _ hcell
  · intro q hq
    rcases eq_or_ne q pp with rfl | hqp
    · exact hused
    · rw [Function.update_of_ne hqp] at hq
      exact h.used q hq
  · intro q use huse
    exact update_owner_iff hfree (fun heq => huse (heq ▸ rfl))
  · intro q use huse hq k
    refine cells_update_of_ne _ ?_
    rintro ⟨rfl, -⟩
    rw [ht] at hq
    cases hq
    exact huse rfl

end MultilevelTranslate
