import HTWGArchive.Paging.MultilevelRuns

namespace MultilevelTranslate

open PageTables

variable {a : ℕ} {s s' : OS} {root : ℕ → Option Page} {owner : Page → Option Use} {dir : Page}
  {vps : List ℕ} {allocated : List (ℕ × List ℕ)}

def address (virtualAddr : ℕ) : Outcome Page → ℤ
  | .directoryFault => -1
  | .tableFault => -2
  | .page p => ((32 * (p : ℕ) + virtualAddr % 32 : ℕ) : ℤ)

theorem target_of_invalid {entry : ℕ} (h : entry / 128 % 2 = 0) : target entry = none :=
  if_pos h

theorem target_of_valid {entry : ℕ} (h : entry / 128 % 2 = 1) :
    ∃ p : Page, target entry = some p ∧ (p : ℕ) = entry % 128 := by
  have hne : entry / 128 % 2 ≠ 0 := by omega
  exact ⟨_, if_neg hne, rfl⟩

theorem translate_eq_walk (h : Paged s root owner) (hroot : root a = some dir)
    (virtualAddr : ℕ) :
    translate a virtualAddr s = .ok (address virtualAddr
      (walk coding (cells s.memory) dir (dirIndex virtualAddr) (tableIndex virtualAddr))) := by
  have hpdbr : s.pdbr a = some (dir : ℕ) := by
    rw [h.pdbr, hroot]
    rfl
  unfold translate walk
  rw [getPageDirEntry_eq virtualAddr hpdbr]
  rcases Nat.mod_two_eq_zero_or_one (cells s.memory dir (dirIndex virtualAddr) / 128) with hd | hd
  · simp only [hd, coding_target, target_of_invalid hd]
    rfl
  · obtain ⟨t, ht, htval⟩ := target_of_valid hd
    simp only [hd, coding_target, ht, if_true, ← htval, getPageTableEntry_eq]
    rcases Nat.mod_two_eq_zero_or_one (cells s.memory t (tableIndex virtualAddr) / 128) with hp | hp
    · simp only [hp, target_of_invalid hp]
      rfl
    · obtain ⟨p, hpage, hpval⟩ := target_of_valid hp
      have hoffset : virtualAddr % 32 < 32 := Nat.mod_lt _ (by decide)
      simp only [hp, hpage, if_true, ← hpval, and_OFFSET_MASK, shiftLeft_or _ hoffset]
      rfl

def virtualPage (virtualAddr : ℕ) : ℕ :=
  virtualAddr / 32 % 1024

theorem virtualPage_eq (virtualAddr : ℕ) :
    32 * (dirIndex virtualAddr : ℕ) + tableIndex virtualAddr = virtualPage virtualAddr := by
  simp only [dirIndex, tableIndex, virtualPage]
  omega

-- The page that a virtual page of a process is in, by what the pages are for.
theorem exists_frame (h : System s allocated root owner) :
    ∃ frame : ℕ → ℕ → Option Page, ∀ a v p, frame a v = some p ↔
      v < 1024 ∧ owner p = some (dataUse a v) := by
  have hone : ∀ a v, ∃ o : Option Page, ∀ p, o = some p ↔
      v < 1024 ∧ owner p = some (dataUse a v) := by
    intro a v
    by_cases hsome : v < 1024 ∧ ∃ p, owner p = some (dataUse a v)
    · obtain ⟨hv, p, hp⟩ := hsome
      refine ⟨some p, fun q => ⟨?_, ?_⟩⟩
      · rintro heq
        obtain rfl := Option.some.inj heq
        exact ⟨hv, hp⟩
      · rintro ⟨-, hq⟩
        rw [h.paged.tables.data_unique hp hq]
    · refine ⟨none, fun q => ⟨fun heq => (by cases heq), ?_⟩⟩
      rintro ⟨hv, hq⟩
      exact absurd ⟨hv, q, hq⟩ hsome
  choose frame hframe using hone
  exact ⟨frame, hframe⟩

theorem dataUse_inj {a b v w : ℕ} (hv : v < 1024) (hw : w < 1024) (h : dataUse a v = dataUse b w) :
    a = b ∧ v = w := by
  obtain ⟨rfl, hdir, htab⟩ := Owner.data.inj h
  have hdir' := congrArg Fin.val hdir
  have htab' := congrArg Fin.val htab
  rw [dirIndex_shiftLeft hv, dirIndex_shiftLeft hw] at hdir'
  rw [tableIndex_shiftLeft, tableIndex_shiftLeft] at htab'
  exact ⟨rfl, by omega⟩

theorem dataUse_virtualPage (a virtualAddr : ℕ) :
    dataUse a (virtualPage virtualAddr) =
      .data a (dirIndex virtualAddr) (tableIndex virtualAddr) := by
  have hlt : virtualPage virtualAddr < 1024 := Nat.mod_lt _ (by decide)
  have hdir := dirIndex_shiftLeft hlt
  have htab := tableIndex_shiftLeft (virtualPage virtualAddr)
  rw [← virtualPage_eq virtualAddr] at hdir htab
  have hi := (tableIndex virtualAddr).isLt
  rw [dataUse, Owner.data.injEq]
  rw [← virtualPage_eq virtualAddr]
  exact ⟨rfl, Fin.ext (by omega), Fin.ext (by omega)⟩

def expected (frame : ℕ → Option Page) (vps : List ℕ) (virtualAddr : ℕ) : ℤ :=
  match frame (virtualPage virtualAddr) with
  | some p => ((32 * (p : ℕ) + virtualAddr % 32 : ℕ) : ℤ)
  | none => if ∃ v ∈ vps, v / 32 = virtualAddr / 1024 % 32 then -2 else -1

theorem expected_natCast {frame : ℕ → Option Page} {virtualAddr addr : ℕ}
    (h : expected frame vps virtualAddr = (addr : ℤ)) :
    ∃ p, frame (virtualPage virtualAddr) = some p ∧ addr = 32 * (p : ℕ) + virtualAddr % 32 := by
  unfold expected at h
  split at h
  · rename_i p hp
    exact ⟨p, hp, by omega⟩
  · split at h <;> omega

theorem System.translate {frame : ℕ → ℕ → Option Page} (h : System s allocated root owner)
    (hframe : ∀ a v p, frame a v = some p ↔ v < 1024 ∧ owner p = some (dataUse a v))
    (hmem : (a, vps) ∈ allocated) (virtualAddr : ℕ) :
    MultilevelTranslate.translate a virtualAddr s =
      .ok (expected (frame a) vps virtualAddr) := by
  have hin : a ∈ allocated.map Prod.fst := List.mem_map.mpr ⟨_, hmem, rfl⟩
  obtain ⟨dir, hroot⟩ := Option.ne_none_iff_exists'.mp ((h.root a).mpr hin)
  have hlt : virtualPage virtualAddr < 1024 := Nat.mod_lt _ (by decide)
  rw [translate_eq_walk h.paged hroot, expected]
  cases hf : frame a (virtualPage virtualAddr) with
  | some p =>
    have hp := ((hframe _ _ _).mp hf).2
    rw [dataUse_virtualPage] at hp
    rw [h.paged.tables.walk_data hroot hp]
    rfl
  | none =>
    have hnone : ∀ p, owner p ≠ some (.data a (dirIndex virtualAddr) (tableIndex virtualAddr)) := by
      intro p hp
      rw [← dataUse_virtualPage] at hp
      rw [(hframe _ _ _).mpr ⟨hlt, hp⟩] at hf
      cases hf
    have htable := (h.holds a vps hmem).table (dirIndex virtualAddr)
    by_cases hsome : ∃ v ∈ vps, v / 32 = virtualAddr / 1024 % 32
    · obtain ⟨t, ht⟩ := htable.mpr hsome
      simp only [h.paged.tables.walk_table hroot ht hnone, if_pos hsome]
      rfl
    · have hnotable := fun t ht => hsome (htable.mp ⟨t, ht⟩)
      simp only [h.paged.tables.walk_none hroot hnotable, if_neg hsome]
      rfl

-- What a run of the program leaves behind: each virtual page that was allocated has a page of its
-- own, and every address leads there or to the fault that fits.
theorem translate_of_procAllocs (draws : List ℕ) (calls : List (ℕ × ℕ))
    (hnodup : (calls.map Prod.fst).Nodup) :
    (∃ fault, procAllocs calls (OS.init draws) = .error fault ∧ TooMuch (demand calls) fault) ∨
    ∃ (l : List (ℕ × List ℕ)) (s : OS) (frame : ℕ → ℕ → Option Page),
      procAllocs calls (OS.init draws) = .ok (l, s) ∧
      l.map (fun r => (r.1, r.2.length)) = calls ∧
      (∀ a vps, (a, vps) ∈ l → vps.Nodup ∧ ∀ v, (frame a v).isSome ↔ v ∈ vps) ∧
      (∀ a b v w p, frame a v = some p → frame b w = some p → a = b ∧ v = w) ∧
      ∀ a vps, (a, vps) ∈ l → ∀ virtualAddr,
        translate a virtualAddr s = .ok (expected (frame a) vps virtualAddr) := by
  obtain ⟨fault, heq, hstop⟩ | ⟨l, s, root, owner, heq, hsys, -, hl⟩ :=
    procAllocs_spec (init_system draws) hnodup
  · rw [OS.init, Nat.zero_add] at hstop
    exact Or.inl ⟨fault, heq, hstop⟩
  · rw [List.nil_append] at hsys
    obtain ⟨frame, hframe⟩ := exists_frame hsys
    refine Or.inr ⟨l, s, frame, heq, hl, ?_, ?_, ?_⟩
    · intro a vps hmem
      have hold := hsys.holds a vps hmem
      refine ⟨hold.nodup, fun v => ?_⟩
      rw [Option.isSome_iff_exists]
      constructor
      · rintro ⟨p, hp⟩
        obtain ⟨hv, howner⟩ := (hframe a v p).mp hp
        have hin := (hold.data _ _).mp ⟨p, howner⟩
        rwa [dirIndex_shiftLeft hv, tableIndex_shiftLeft, Nat.div_add_mod] at hin
      · intro hv
        have hlt := hold.lt v hv
        obtain ⟨p, hp⟩ := (hold.data (dirIndex (v <<< pageBits)) (tableIndex (v <<< pageBits))).mpr
          (by rwa [dirIndex_shiftLeft hlt, tableIndex_shiftLeft, Nat.div_add_mod])
        exact ⟨p, (hframe a v p).mpr ⟨hlt, hp⟩⟩
    · intro a b v w p hv hw
      obtain ⟨hvlt, hvp⟩ := (hframe a v p).mp hv
      obtain ⟨hwlt, hwp⟩ := (hframe b w p).mp hw
      exact dataUse_inj hvlt hwlt (Option.some.inj (hvp.symm.trans hwp))
    · exact fun a vps hmem virtualAddr => hsys.translate hframe hmem virtualAddr

def succeeds {α : Type} : Except Fault α → Bool
  | .ok _ => true
  | .error _ => false

theorem exists_of_succeeds {α : Type} {result : Except Fault α} (h : succeeds result = true) :
    ∃ r, result = .ok r := by
  cases result with
  | ok r => exact ⟨r, rfl⟩
  | error fault => cases h

-- Directory, virtual page, page and table page of each process, each followed by the bytes.
def twoProcesses : List ℕ :=
  [3, 40, 5, 7] ++ List.replicate 32 9 ++ [12, 40, 3, 88, 13] ++ List.replicate 32 30

theorem translate_of_procAllocs_two : ∃ (l : List (ℕ × List ℕ)) (s : OS)
    (frame : ℕ → ℕ → Option Page),
    procAllocs [(1, 1), (2, 1)] (OS.init twoProcesses) = .ok (l, s) ∧
    l.map (fun r => (r.1, r.2.length)) = [(1, 1), (2, 1)] ∧
    (∀ a vps, (a, vps) ∈ l → vps.Nodup ∧ ∀ v, (frame a v).isSome ↔ v ∈ vps) ∧
    (∀ a b v w p, frame a v = some p → frame b w = some p → a = b ∧ v = w) ∧
    ∀ a vps, (a, vps) ∈ l → ∀ virtualAddr,
      translate a virtualAddr s = .ok (expected (frame a) vps virtualAddr) := by
  have hsucceeds : succeeds (procAllocs [(1, 1), (2, 1)] (OS.init twoProcesses)) = true := by
    decide
  obtain ⟨fault, heq, -⟩ | hok := translate_of_procAllocs twoProcesses [(1, 1), (2, 1)] (by decide)
  · rw [heq] at hsucceeds
    cases hsucceeds
  · exact hok

-- A new process changes neither where the others' addresses lead nor what is there.
theorem procAllocs_isolate {draws : List ℕ} {calls more : List (ℕ × ℕ)}
    {l l' : List (ℕ × List ℕ)} {s s' : OS} (hnodup : ((calls ++ more).map Prod.fst).Nodup)
    (hrun : procAllocs calls (OS.init draws) = .ok (l, s))
    (hmore : procAllocs (calls ++ more) (OS.init draws) = .ok (l', s')) {a : ℕ}
    (ha : a ∈ calls.map Prod.fst) (virtualAddr : ℕ) :
    translate a virtualAddr s' = translate a virtualAddr s ∧
      ∀ addr : ℕ, translate a virtualAddr s = .ok (addr : ℤ) →
        getValue addr s' = getValue addr s := by
  rw [List.map_append] at hnodup
  obtain ⟨fault, heq, -⟩ | ⟨l₁, s₁, root, owner, heq, hsys, -, hl⟩ :=
    procAllocs_spec (init_system draws) (List.Nodup.of_append_left hnodup)
  · rw [hrun] at heq
    cases heq
  rw [hrun] at heq
  cases heq
  rw [List.nil_append] at hsys
  have hfst : l.map Prod.fst = calls.map Prod.fst := by
    rw [← hl, List.map_map]
    rfl
  rw [procAllocs_append more hrun] at hmore
  obtain ⟨fault, heq, -⟩ | ⟨l₂, s₂, root', owner', heq, hsys', hsame, -⟩ :=
    procAllocs_spec hsys (by rwa [hfst])
  · rw [heq] at hmore
    cases hmore
  rw [heq] at hmore
  cases hmore
  rw [← hfst] at ha
  obtain ⟨frame, hframe⟩ := exists_frame hsys
  obtain ⟨frame', hframe'⟩ := exists_frame hsys'
  have hkept := hsame a ha
  have hfa : frame' a = frame a := by
    funext v
    refine Option.ext (fun p => ?_)
    rw [hframe', hframe, hkept.owns p _ rfl]
  obtain ⟨⟨b, vps⟩, hmem, rfl⟩ := List.mem_map.mp ha
  have hbefore := hsys.translate hframe hmem virtualAddr
  have hafter := hsys'.translate hframe' (List.mem_append_left _ hmem) virtualAddr
  refine ⟨by rw [hbefore, hafter, hfa], fun addr haddr => ?_⟩
  rw [hbefore] at haddr
  have hvalue := Except.ok.inj haddr
  obtain ⟨p, hp, rfl⟩ := expected_natCast hvalue
  have howner := ((hframe _ _ _).mp hp).2
  exact hkept.bytes p _ rfl howner ⟨virtualAddr % 32, Nat.mod_lt _ (by decide)⟩

theorem procAllocs_isolate_two : ∃ l s l' s',
    procAllocs [(1, 1)] (OS.init twoProcesses) = .ok (l, s) ∧
    procAllocs ([(1, 1)] ++ [(2, 1)]) (OS.init twoProcesses) = .ok (l', s') ∧
    ∀ virtualAddr, translate 1 virtualAddr s' = translate 1 virtualAddr s ∧
      ∀ addr : ℕ, translate 1 virtualAddr s = .ok (addr : ℤ) →
        getValue addr s' = getValue addr s := by
  have hone : succeeds (procAllocs [(1, 1)] (OS.init twoProcesses)) = true := by decide
  have htwo : succeeds (procAllocs ([(1, 1)] ++ [(2, 1)]) (OS.init twoProcesses)) = true := by
    decide
  obtain ⟨⟨l, s⟩, hrun⟩ := exists_of_succeeds hone
  obtain ⟨⟨l', s'⟩, hmore⟩ := exists_of_succeeds htwo
  exact ⟨l, s, l', s', hrun, hmore, fun virtualAddr =>
    procAllocs_isolate (by decide) hrun hmore (by decide) virtualAddr⟩

end MultilevelTranslate
