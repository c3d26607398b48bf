import HTWGArchive.Raid.RaidParity

namespace RaidSimulator

open StripedParity

variable {r : Raid} {s first last b addr size : ℕ}

theorem stripeOf_eq (h : 2 ≤ r.numDisks) :
    r.stripeOf b = s ↔
      s * r.blocksInStripe ≤ b ∧ b < s * r.blocksInStripe + r.blocksInStripe :=
  stripe_eq_iff (by omega) r.chunk_pos

theorem blocksInStripe_pos (h : 2 ≤ r.numDisks) : 0 < r.blocksInStripe :=
  Nat.mul_pos (by omega) r.chunk_pos

theorem mem_targets (h : 2 ≤ r.numDisks) {m : ℕ × ℕ} :
    m ∈ (List.range' first (last - first)).map (r.layout h).block ↔
      ∃ b, (first ≤ b ∧ b < last) ∧ (r.layout h).block b = m := by
  rw [List.mem_map]
  refine exists_congr fun b => and_congr_left fun _ => ?_
  rw [List.mem_range'_1]
  omega

theorem mem_stripeWrites (h : 2 ≤ r.numDisks) {d off : ℕ} :
    Op.write d off ∈ r.stripeWrites h s first last ↔
      (∃ b, (first ≤ b ∧ b < last) ∧ (r.layout h).block b = (d, off)) ∨
      (d = r.parity s ∧ ∃ b, (first ≤ b ∧ b < last) ∧ ((r.layout h).block b).2 = off) := by
  unfold Raid.stripeWrites
  rw [List.mem_append]
  refine or_congr ?_ ?_
  · rw [List.mem_map]
    constructor
    · rintro ⟨m, hm, heq⟩
      obtain ⟨rfl, rfl⟩ := Op.write.inj heq
      exact (mem_targets h).mp hm
    · rintro hsome
      exact ⟨(d, off), (mem_targets h).mpr hsome, rfl⟩
  · rw [List.mem_map]
    constructor
    · rintro ⟨o, ho, heq⟩
      obtain ⟨rfl, rfl⟩ := Op.write.inj heq
      obtain ⟨m, hm, hoff⟩ := mem_offList.mp ho
      obtain ⟨b, hb, rfl⟩ := (mem_targets h).mp hm
      exact ⟨rfl, b, hb, hoff⟩
    · rintro ⟨rfl, b, hb, hoff⟩
      exact ⟨off, mem_offList.mpr ⟨_, (mem_targets h).mpr ⟨b, hb, rfl⟩, hoff⟩, rfl⟩

theorem not_write_mem_stripeReads (h : 2 ≤ r.numDisks) {d off : ℕ} :
    Op.write d off ∉ r.stripeReads h s first last := by
  unfold Raid.stripeReads
  split <;> simp

theorem not_read_mem_stripeWrites (h : 2 ≤ r.numDisks) {d off : ℕ} :
    Op.read d off ∉ r.stripeWrites h s first last := by
  unfold Raid.stripeWrites
  simp

-- Either the old parity and what is overwritten are read, or everything that is not.
theorem stripeReads_enough (h : 2 ≤ r.numDisks) :
    (∀ b, (first ≤ b ∧ b < last) →
      Op.read ((r.layout h).block b).1 ((r.layout h).block b).2 ∈ r.stripeReads h s first last ∧
      Op.read (r.parity s) ((r.layout h).block b).2 ∈ r.stripeReads h s first last) ∨
    ∀ b, r.stripeOf b = s → ¬ (first ≤ b ∧ b < last) →
      Op.read ((r.layout h).block b).1 ((r.layout h).block b).2 ∈
        r.stripeReads h s first last := by
  unfold Raid.stripeReads
  split
  · refine Or.inl fun b hb => ?_
    have htarget := (mem_targets h).mpr ⟨b, hb, rfl⟩
    refine ⟨List.mem_append_left _ (List.mem_map.mpr ⟨_, htarget, rfl⟩), ?_⟩
    exact List.mem_append_right _
      (List.mem_map.mpr ⟨_, mem_offList.mpr ⟨_, htarget, rfl⟩, rfl⟩)
  · refine Or.inr fun b hb hout => List.mem_map.mpr ⟨_, ?_, rfl⟩
    obtain ⟨hge, hlt⟩ := (stripeOf_eq h).mp hb
    rw [List.mem_append, mem_targets, mem_targets]
    by_cases hfirst : b < first
    · exact Or.inl ⟨b, ⟨hge, hfirst⟩, rfl⟩
    · exact Or.inr ⟨b, ⟨by omega, hlt⟩, rfl⟩

theorem nodup_stripeWrites (h : 2 ≤ r.numDisks) (hle : s * r.blocksInStripe ≤ first)
    (hend : last ≤ s * r.blocksInStripe + r.blocksInStripe) :
    (r.stripeWrites h s first last).Nodup := by
  unfold Raid.stripeWrites
  rw [List.nodup_append]
  refine ⟨?_, ?_, ?_⟩
  · refine List.Nodup.map ?_ (List.Nodup.map ?_ (List.nodup_range' _))
    · intro m m' heq
      obtain ⟨hdisk, hoff⟩ := Op.write.inj heq
      exact Prod.ext hdisk hoff
    · exact fun b b' heq => (r.layout h).block_inj heq
  · refine List.Nodup.map ?_ (nodup_foldl_addOff _ List.nodup_nil)
    exact fun off off' heq => (Op.write.inj heq).2
  · intro op hop op' hop' heq
    obtain ⟨m, hm, rfl⟩ := List.mem_map.mp hop
    obtain ⟨off, -, rfl⟩ := List.mem_map.mp hop'
    obtain ⟨b, ⟨hge, hlt⟩, rfl⟩ := (mem_targets h).mp hm
    have hstripe : r.stripeOf b = s := (stripeOf_eq h).mpr ⟨by omega, by omega⟩
    have hne := (r.layout h).block_ne_parity b
    exact hne ((Op.write.inj heq).1.trans (hstripe ▸ rfl))

-- The part of a request that lies in one stripe.
def Raid.low (r : Raid) (addr s : ℕ) : ℕ :=
  max addr (s * r.blocksInStripe)

def Raid.high (r : Raid) (addr size s : ℕ) : ℕ :=
  min (addr + size) (s * r.blocksInStripe + r.blocksInStripe)

def Raid.stripeOps (r : Raid) (h : 2 ≤ r.numDisks) (addr size s : ℕ) : List Op :=
  r.stripeReads h s (r.low addr s) (r.high addr size s) ++
    r.stripeWrites h s (r.low addr s) (r.high addr size s)

theorem last_eq {width start first left : ℕ} (h : start ≤ first) :
    (if start + width ≤ (if width ≤ left then first + width else first + left) then start + width
      else if width ≤ left then first + width else first + left) =
        min (first + left) (start + width) := by
  split <;> split at * <;> omega

theorem writeStripes_eq (h : 2 ≤ r.numDisks) {n left : ℕ}
    (haddr : addr < s * r.blocksInStripe + r.blocksInStripe) (hfirst : first = r.low addr s)
    (hleft : first + left = addr + size)
    (hfull : ∀ i, i + 1 < n → (s + i + 1) * r.blocksInStripe ≤ addr + size) :
    r.writeStripes r.bmap45 r.pmap45 (List.range' s n) left first =
      some ((List.range' s n).flatMap (r.stripeOps h addr size)) := by
  induction n generalizing s left first with
  | zero => rfl
  | succ n ih =>
    have hlow : s * r.blocksInStripe ≤ first := hfirst ▸ Nat.le_max_right _ _
    have hrest : r.writeStripes r.bmap45 r.pmap45 (List.range' (s + 1) n)
        (left - (r.high addr size s - first)) (r.high addr size s) =
          some ((List.range' (s + 1) n).flatMap (r.stripeOps h addr size)) := by
      cases n with
      | zero => rfl
      | succ n =>
        have hnext : (s + 1) * r.blocksInStripe = s * r.blocksInStripe + r.blocksInStripe :=
          Nat.succ_mul _ _
        have hend := hfull 0 (by omega)
        rw [Nat.add_zero, hnext] at hend
        have hhigh : r.high addr size s = s * r.blocksInStripe + r.blocksInStripe := by
          rw [Raid.high]
          omega
        have hbound : first ≤ s * r.blocksInStripe + r.blocksInStripe := by
          rw [hfirst, Raid.low]
          omega
        refine ih (by omega) ?_ (by omega) ?_
        · rw [hhigh, Raid.low, hnext]
          omega
        · intro i hi
          have hlater := hfull (i + 1) (by omega)
          rwa [show s + 1 + i + 1 = s + (i + 1) + 1 by omega]
    rw [List.range'_succ, List.flatMap_cons]
    unfold Raid.writeStripes
    dsimp only
    rw [last_eq hlow, hleft, ← Raid.high, doPartialWrite_eq h]
    simp only [Option.bind_eq_bind, Option.bind_some, hrest]
    rw [hfirst]
    rfl

def Raid.stripes (r : Raid) (addr size : ℕ) : List ℕ :=
  List.range' (addr / r.blocksInStripe)
    ((addr + size - 1) / r.blocksInStripe + 1 - addr / r.blocksInStripe)

def Raid.writeOps (r : Raid) (h : 2 ≤ r.numDisks) (addr size : ℕ) : List Op :=
  (r.stripes addr size).flatMap (r.stripeOps h addr size)

theorem enqueue45_write (h : 2 ≤ r.numDisks) (addr size : ℕ) :
    r.enqueue45 addr size true = some (r.writeOps h addr size) := by
  have hpos := blocksInStripe_pos h
  have hlow : addr / r.blocksInStripe * r.blocksInStripe ≤ addr := Nat.div_mul_le_self _ _
  have hhigh : addr < addr / r.blocksInStripe * r.blocksInStripe + r.blocksInStripe := by
    have hmod := Nat.mod_lt addr hpos
    have hsum := Nat.div_add_mod' addr r.blocksInStripe
    omega
  refine writeStripes_eq h hhigh (Nat.max_eq_left hlow).symm rfl ?_
  intro i hi
  have hle : addr / r.blocksInStripe + i + 1 ≤ (addr + size - 1) / r.blocksInStripe := by omega
  have hmul := (Nat.le_div_iff_mul_le hpos).mp hle
  omega

theorem stripeOf_div (h : 2 ≤ r.numDisks) (b : ℕ) : r.stripeOf b = b / r.blocksInStripe := by
  rw [stripeOf_eq h]
  have hmod := Nat.mod_lt b (blocksInStripe_pos h)
  have hsum := Nat.div_add_mod' b r.blocksInStripe
  omega

theorem mem_stripes (h : 2 ≤ r.numDisks) (hb : addr ≤ b ∧ b < addr + size) :
    r.stripeOf b ∈ r.stripes addr size := by
  have hfirst := Nat.div_le_div_right (c := r.blocksInStripe) hb.1
  have hlast := Nat.div_le_div_right (c := r.blocksInStripe) (Nat.le_sub_one_of_lt hb.2)
  rw [stripeOf_div h, Raid.stripes, List.mem_range'_1]
  omega

theorem mem_part (h : 2 ≤ r.numDisks) :
    (r.low addr s ≤ b ∧ b < r.high addr size s) ↔
      (addr ≤ b ∧ b < addr + size) ∧ r.stripeOf b = s := by
  rw [stripeOf_eq h, Raid.low, Raid.high]
  omega

theorem offset_stripe (h : 2 ≤ r.numDisks) (b : ℕ) :
    ((r.layout h).block b).2 / r.chunkSize = r.stripeOf b :=
  (r.layout h).offset_div b

theorem mem_writeOps (h : 2 ≤ r.numDisks) {d off : ℕ} :
    Op.write d off ∈ r.writeOps h addr size ↔
      (∃ b, (addr ≤ b ∧ b < addr + size) ∧ (r.layout h).block b = (d, off)) ∨
      (d = r.parity (off / r.chunkSize) ∧
        ∃ b, (addr ≤ b ∧ b < addr + size) ∧ ((r.layout h).block b).2 = off) := by
  rw [Raid.writeOps, List.mem_flatMap]
  constructor
  · rintro ⟨s, -, hmem⟩
    rcases List.mem_append.mp hmem with hread | hwrite
    · exact absurd hread (not_write_mem_stripeReads h)
    · rcases (mem_stripeWrites h).mp hwrite with ⟨b, hb, heq⟩ | ⟨rfl, b, hb, rfl⟩
      · exact Or.inl ⟨b, ((mem_part h).mp hb).1, heq⟩
      · obtain ⟨hin, rfl⟩ := (mem_part h).mp hb
        rw [offset_stripe h]
        exact Or.inr ⟨rfl, b, hin, rfl⟩
  · rintro (⟨b, hb, heq⟩ | ⟨rfl, b, hb, rfl⟩)
    · refine ⟨r.stripeOf b, mem_stripes h hb, List.mem_append_right _ ?_⟩
      exact (mem_stripeWrites h).mpr (Or.inl ⟨b, (mem_part h).mpr ⟨hb, rfl⟩, heq⟩)
    · refine ⟨r.stripeOf b, mem_stripes h hb, List.mem_append_right _ ?_⟩
      rw [offset_stripe h]
      exact (mem_stripeWrites h).mpr (Or.inr ⟨rfl, b, (mem_part h).mpr ⟨hb, rfl⟩, rfl⟩)

theorem writeOps_plan (h : 2 ≤ r.numDisks) (addr size : ℕ) :
    Plan (r.layout h) (fun b => addr ≤ b ∧ b < addr + size)
      (fun d off => Op.read d off ∈ r.writeOps h addr size)
      (fun d off => Op.write d off ∈ r.writeOps h addr size) := by
  refine ⟨fun d off => mem_writeOps h, ?_⟩
  rintro off ⟨b, hb, rfl⟩
  have hsub : ∀ op ∈ r.stripeReads h (r.stripeOf b) (r.low addr (r.stripeOf b))
      (r.high addr size (r.stripeOf b)), op ∈ r.writeOps h addr size := by
    intro op hop
    exact List.mem_flatMap.mpr ⟨r.stripeOf b, mem_stripes h hb, List.mem_append_left _ hop⟩
  have hparity : (r.layout h).parity (((r.layout h).block b).2 / r.chunkSize) =
      r.parity (r.stripeOf b) := by
    rw [offset_stripe h]
    rfl
  have hsame : ∀ c, ((r.layout h).block c).2 = ((r.layout h).block b).2 →
      r.stripeOf c = r.stripeOf b := by
    intro c hc
    rw [← offset_stripe h, hc, offset_stripe h]
  rcases @stripeReads_enough r (r.stripeOf b) (r.low addr (r.stripeOf b))
    (r.high addr size (r.stripeOf b)) h with hold | hrest
  · refine Or.inl ⟨?_, ?_⟩
    · rw [hparity]
      exact hsub _ (hold b ((mem_part h).mpr ⟨hb, rfl⟩)).2
    · rintro d ⟨c, hc, heq⟩
      have hpart := (mem_part h).mpr ⟨hc, hsame c (by rw [heq])⟩
      have hread := hsub _ (hold c hpart).1
      rwa [heq] at hread
  · refine Or.inr fun c hc hoff => ?_
    have hread := hsub _ (hrest c (hsame c hoff) (fun hin => hc ((mem_part h).mp hin).1))
    rwa [hoff] at hread

def Op.isWrite : Op → Bool
  | .read _ _ => false
  | .write _ _ => true

theorem filter_stripeOps (h : 2 ≤ r.numDisks) (addr size s : ℕ) :
    (r.stripeOps h addr size s).filter Op.isWrite =
      r.stripeWrites h s (r.low addr s) (r.high addr size s) := by
  have hreads : (r.stripeReads h s (r.low addr s) (r.high addr size s)).filter Op.isWrite = [] := by
    rw [List.filter_eq_nil_iff]
    intro op hop
    cases op with
    | read d off => simp [Op.isWrite]
    | write d off => exact absurd hop (not_write_mem_stripeReads h)
  have hwrites : (r.stripeWrites h s (r.low addr s) (r.high addr size s)).filter Op.isWrite =
      r.stripeWrites h s (r.low addr s) (r.high addr size s) := by
    rw [List.filter_eq_self]
    intro op hop
    cases op with
    | read d off => exact absurd hop (not_read_mem_stripeWrites h)
    | write d off => rfl
  rw [Raid.stripeOps, List.filter_append, hreads, hwrites, List.nil_append]

theorem stripe_of_stripeWrites (h : 2 ≤ r.numDisks) {d off : ℕ}
    (hmem : Op.write d off ∈ r.stripeWrites h s (r.low addr s) (r.high addr size s)) :
    off / r.chunkSize = s := by
  rcases (mem_stripeWrites h).mp hmem with ⟨b, hb, heq⟩ | ⟨-, b, hb, rfl⟩
  · rw [← ((mem_part h).mp hb).2, ← offset_stripe h, heq]
  · rw [offset_stripe h, ((mem_part h).mp hb).2]

theorem nodup_writeOps (h : 2 ≤ r.numDisks) (addr size : ℕ) :
    ((r.writeOps h addr size).filter Op.isWrite).Nodup := by
  rw [Raid.writeOps, List.filter_flatMap, List.nodup_flatMap]
  constructor
  · intro s _
    rw [filter_stripeOps]
    exact nodup_stripeWrites h (Nat.le_max_right _ _) (Nat.min_le_right _ _)
  · refine List.Pairwise.imp ?_ (List.nodup_range' 1)
    intro s s' hne op hop hop'
    simp only [filter_stripeOps] at hop hop'
    cases op with
    | read d off => exact not_read_mem_stripeWrites h hop
    | write d off =>
      exact hne ((stripe_of_stripeWrites h hop).symm.trans (stripe_of_stripeWrites h hop'))

theorem two_of_parity (h : r.raidLevel = .four ∨ r.raidLevel = .five) : 2 ≤ r.numDisks := by
  apply r.two_disks
  rcases h with h | h <;> rw [h] <;> decide

theorem enqueue_write (h : r.raidLevel = .four ∨ r.raidLevel = .five) (addr size : ℕ) :
    r.enqueue addr size true = some (r.writeOps (two_of_parity h) addr size) := by
  rw [← enqueue45_write]
  unfold Raid.enqueue
  rcases h with h | h <;> rw [h]

def leftSymmetric : Raid :=
  ⟨1, 4, .five, .LS, by decide, by decide, by decide, by decide⟩

-- Every block of every disk holds the parity of its row or one block of the array.
theorem disks_are_filled (r : Raid) :
    (r.raidLevel = .zero → ∀ d < r.numDisks, ∀ off, ∃! b, r.bmap0 b = (d, off)) ∧
    (r.raidLevel = .one → ∀ d < r.numDisks, ∀ off, ∃! b,
      ((r.bmap1 b).1 = d ∨ (r.bmap1 b).2.1 = d) ∧ (r.bmap1 b).2.2 = off) ∧
    (r.raidLevel = .four ∨ r.raidLevel = .five → ∀ d < r.numDisks, ∀ off,
      (r.pmap45 (off / r.chunkSize) = some d ∧ ∀ b, r.bmap45 b ≠ some (d, off)) ∨
      (r.pmap45 (off / r.chunkSize) ≠ some d ∧ ∃! b, r.bmap45 b = some (d, off))) := by
  refine ⟨?_, ?_, ?_⟩
  · intro _ d hd off
    exact existsUnique_spread hd r.chunk_pos off
  · intro hone d hd off
    have heven := r.mirrored hone
    have hpair : d / 2 < r.numDisks / 2 := by omega
    obtain ⟨b, hb, hunique⟩ := existsUnique_spread hpair r.chunk_pos off
    have hcol : ∀ b, (spread (r.numDisks / 2) r.chunkSize b).1 = d / 2 ↔
        (r.bmap1 b).1 = d ∨ (r.bmap1 b).2.1 = d := by
      intro b
      simp only [spread, Raid.bmap1]
      omega
    refine ⟨b, ⟨(hcol b).mp (congrArg Prod.fst hb), congrArg Prod.snd hb⟩, ?_⟩
    rintro b' ⟨hdisk, hoff⟩
    exact hunique b' (Prod.ext ((hcol b').mpr hdisk) hoff)
  · intro hlevel d hd off
    have htwo := two_of_parity hlevel
    simp only [pmap45_eq htwo, bmap45_eq htwo, Option.some_inj, ne_eq]
    by_cases hparity : (r.layout htwo).parity (off / r.chunkSize) = d
    · refine Or.inl ⟨hparity, fun b hb => ?_⟩
      have hne := (r.layout htwo).block_ne_parity b
      rw [← (r.layout htwo).offset_div, hb] at hne
      exact hne hparity.symm
    · obtain ⟨b, hb⟩ := (r.layout htwo).exists_block (by omega) (Ne.symm hparity)
      exact Or.inr ⟨hparity, b, hb, fun b' hb' => (r.layout htwo).block_inj (hb'.trans hb.symm)⟩

end RaidSimulator
