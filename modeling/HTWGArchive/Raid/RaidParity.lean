import HTWGArchive.Library.StripedParity
import HTWGArchive.Raid.RaidMapping

namespace RaidSimulator

open StripedParity

variable {r : Raid}

theorem toNat_sub_emod {disk col n : ℕ} (hdisk : disk < n) (hcol : col < n) :
    (((disk : ℤ) - col) % n).toNat = if col ≤ disk then disk - col else disk + n - col := by
  split
  · rw [Int.emod_eq_of_lt (by omega) (by omega)]
    omega
  · rw [← Int.add_emod_right, Int.emod_eq_of_lt (by omega) (by omega)]
    omega

theorem shift_facts (r : Raid) {disk col : ℕ} (hdisk : disk < r.numDisks - 1)
    (hcol : col < r.numDisks) :
    r.shift disk (r.numDisks - 1 - col) col ≤ r.numDisks - 1 ∧
      r.shift disk (r.numDisks - 1 - col) col ≠ r.numDisks - 1 - col ∧
      ∀ disk' < r.numDisks - 1, r.shift disk (r.numDisks - 1 - col) col =
        r.shift disk' (r.numDisks - 1 - col) col → disk = disk' := by
  unfold Raid.shift
  cases r.raid5type with
  | LA =>
    simp only
    refine ⟨?_, ?_, fun l hl heq => ?_⟩
    · split <;> omega
    · split <;> omega
    · split at heq <;> split at heq <;> omega
  | LS =>
    simp only
    rw [toNat_sub_emod (by omega) hcol]
    refine ⟨?_, ?_, fun l hl heq => ?_⟩
    · split <;> omega
    · split <;> omega
    · rw [toNat_sub_emod (by omega) hcol] at heq
      split at heq <;> split at heq <;> omega

def Raid.column (r : Raid) (stripe disk : ℕ) : ℕ :=
  if r.raidLevel = .four then disk
  else r.shift disk (r.numDisks - 1 - stripe % r.numDisks) (stripe % r.numDisks)

def Raid.parity (r : Raid) (stripe : ℕ) : ℕ :=
  if r.raidLevel = .four then r.numDisks - 1 else r.numDisks - 1 - stripe % r.numDisks

theorem column_facts (r : Raid) (stripe : ℕ) {disk : ℕ} (hdisk : disk < r.numDisks - 1) :
    r.column stripe disk ≤ r.numDisks - 1 ∧ r.column stripe disk ≠ r.parity stripe ∧
      ∀ disk' < r.numDisks - 1, r.column stripe disk = r.column stripe disk' → disk = disk' := by
  unfold Raid.column Raid.parity
  split
  · exact ⟨by omega, by omega, fun _ _ heq => heq⟩
  · exact shift_facts r hdisk (Nat.mod_lt _ r.disks_pos)

def Raid.layout (r : Raid) (h : 2 ≤ r.numDisks) : Layout (r.numDisks - 1) r.chunkSize where
  disk := r.column
  parity := r.parity
  columns_pos := by omega
  chunk_pos := r.chunk_pos
  disk_le := fun hk => (column_facts r _ hk).1
  parity_le := by
    intro s
    unfold Raid.parity
    split <;> omega
  disk_inj := fun hk hl heq => (column_facts r _ hk).2.2 _ hl heq
  disk_ne_parity := fun hk => (column_facts r _ hk).2.1

def Raid.stripeOf (r : Raid) (bnum : ℕ) : ℕ :=
  stripe (r.numDisks - 1) r.chunkSize bnum

theorem bmap5'_eq (h : 2 ≤ r.numDisks) (hlevel : r.raidLevel ≠ .four) (bnum : ℕ) :
    r.bmap5' bnum = some (((r.layout h).block bnum).1, r.parity (r.stripeOf bnum),
      ((r.layout h).block bnum).2) := by
  have hk : bnum / r.chunkSize % (r.numDisks - 1) < r.numDisks - 1 := Nat.mod_lt _ (by omega)
  have hne := (column_facts r (r.stripeOf bnum) hk).2.1
  have hcolumn : r.column (r.stripeOf bnum) (bnum / r.chunkSize % (r.numDisks - 1)) =
      r.shift (bnum / r.chunkSize % (r.numDisks - 1))
        (r.numDisks - 1 - r.stripeOf bnum % r.numDisks) (r.stripeOf bnum % r.numDisks) :=
    if_neg hlevel
  have hparity : r.parity (r.stripeOf bnum) =
      r.numDisks - 1 - r.stripeOf bnum % r.numDisks := if_neg hlevel
  rw [hcolumn, hparity] at hne
  rw [hparity]
  refine (if_neg hne).trans ?_
  exact congrArg (fun disk => some (disk, r.numDisks - 1 - r.stripeOf bnum % r.numDisks,
    ((r.layout h).block bnum).2)) hcolumn.symm

theorem bmap45_eq (h : 2 ≤ r.numDisks) (bnum : ℕ) :
    r.bmap45 bnum = some ((r.layout h).block bnum) := by
  unfold Raid.bmap45
  split
  · rename_i hfour
    have hcolumn : r.column (r.stripeOf bnum) (bnum / r.chunkSize % (r.numDisks - 1)) =
        bnum / r.chunkSize % (r.numDisks - 1) := if_pos hfour
    have hdisk : ((r.layout h).block bnum).1 = bnum / r.chunkSize % (r.numDisks - 1) := hcolumn
    exact congrArg some (Prod.ext hdisk.symm rfl)
  · rename_i hfour
    rw [Raid.bmap5, bmap5'_eq h hfour]
    rfl

theorem stripeOf_mul (h : 2 ≤ r.numDisks) (snum : ℕ) :
    r.stripeOf (snum * r.blocksInStripe) = snum := by
  rw [Raid.stripeOf, stripe_eq_iff (by omega) r.chunk_pos, ← Raid.blocksInStripe]
  have hpos : 0 < r.blocksInStripe := Nat.mul_pos (by omega) r.chunk_pos
  omega

theorem pmap45_eq (h : 2 ≤ r.numDisks) (snum : ℕ) :
    r.pmap45 snum = some ((r.layout h).parity snum) := by
  unfold Raid.pmap45
  split
  · rename_i hfour
    have hparity : r.parity snum = r.numDisks - 1 := if_pos hfour
    exact congrArg some hparity.symm
  · rename_i hfour
    rw [Raid.pmap5, bmap5'_eq h hfour, stripeOf_mul h]
    rfl

theorem mapM_some {α β : Type} (f : α → β) (l : List α) :
    l.mapM (fun a => some (f a)) = some (l.map f) := by
  induction l with
  | nil => rfl
  | cons a l ih => simp [ih]

theorem mem_foldl_addOff {targets : List (ℕ × ℕ)} {offs : List ℕ} {off : ℕ} :
    off ∈ targets.foldl addOff offs ↔ off ∈ offs ∨ ∃ m ∈ targets, m.2 = off := by
  induction targets generalizing offs with
  | nil => simp
  | cons m targets ih =>
    rw [List.foldl_cons, ih, addOff]
    split
    · rename_i hmem
      constructor
      · rintro (hold | ⟨m', hm', heq⟩)
        · exact Or.inl hold
        · exact Or.inr ⟨m', List.mem_cons_of_mem _ hm', heq⟩
      · rintro (hold | ⟨m', hm', heq⟩)
        · exact Or.inl hold
        · rcases List.mem_cons.mp hm' with rfl | hm'
          · exact Or.inl (heq ▸ hmem)
          · exact Or.inr ⟨m', hm', heq⟩
    · simp [or_assoc, eq_comm]

theorem mem_offList {targets : List (ℕ × ℕ)} {off : ℕ} :
    off ∈ offList targets ↔ ∃ m ∈ targets, m.2 = off :=
  mem_foldl_addOff.trans (by simp)

theorem nodup_foldl_addOff (targets : List (ℕ × ℕ)) {offs : List ℕ} (h : offs.Nodup) :
    (targets.foldl addOff offs).Nodup := by
  induction targets generalizing offs with
  | nil => exact h
  | cons m targets ih =>
    refine ih ?_
    unfold addOff
    split
    · exact h
    · rename_i hnew
      rw [List.nodup_append]
      refine ⟨h, List.nodup_singleton _, ?_⟩
      intro a ha b hb
      obtain rfl := List.mem_singleton.mp hb
      exact fun heq => hnew (heq ▸ ha)

-- What a request for the blocks from `first` to `last` writes in one stripe.
def Raid.stripeWrites (r : Raid) (h : 2 ≤ r.numDisks) (stripe first last : ℕ) : List Op :=
  let targets := (List.range' first (last - first)).map (r.layout h).block
  targets.map (fun m => Op.write m.1 m.2) ++
    (offList targets).map (fun off => Op.write (r.parity stripe) off)

def Raid.stripeReads (r : Raid) (h : 2 ≤ r.numDisks) (stripe first last : ℕ) : List Op :=
  let targets := (List.range' first (last - first)).map (r.layout h).block
  if last - first + 1 ≤ r.blocksInStripe - (last - first) then
    targets.map (fun m => Op.read m.1 m.2) ++
      (offList targets).map (fun off => Op.read (r.parity stripe) off)
  else
    let stripeBegin := stripe * r.blocksInStripe
    let stripeEnd := stripeBegin + r.blocksInStripe
    ((List.range' stripeBegin (first - stripeBegin)).map (r.layout h).block ++
      (List.range' last (stripeEnd - last)).map (r.layout h).block).map
        (fun m => Op.read m.1 m.2)

theorem doPartialWrite_eq (h : 2 ≤ r.numDisks) (stripe first last : ℕ) :
    r.doPartialWrite r.bmap45 r.pmap45 stripe first last =
      some (r.stripeReads h stripe first last ++ r.stripeWrites h stripe first last) := by
  have hbmap : r.bmap45 = fun b => some ((r.layout h).block b) := funext (bmap45_eq h)
  unfold Raid.doPartialWrite Raid.stripeReads Raid.stripeWrites
  rw [hbmap, pmap45_eq h]
  simp only [mapM_some, Option.bind_eq_bind, Option.bind_some]
  split <;> rfl

end RaidSimulator
