import HTWGArchive.X86.Peterson

namespace X86.Peterson

open Interleaving

-- What the thread `i` knows at the point `k`; it numbers itself by `bx`.
structure Known (i : Fin 2) (count : Int) (k : ℕ) (c : Context) : Prop where
  zero : c.registers .zero = 0
  self : c.registers .bx = (i : ℕ)
  flag : 1 ≤ k → c.registers .fx = 100
  other : match k with
    | 0 | 1 => True
    | 2 => c.registers .cx = (i : ℕ)
    | 3 => c.registers .cx = -(i : ℕ)
    | _ => c.registers .cx = 1 - (i : ℕ)
  loaded : k = 13 → c.registers .ax = count
  added : k = 14 → c.registers .ax = count + 1

def known (base : Int) (i : Fin 2) (count : Int) : Thread → Prop
  | .done => True
  | .running c => ∃ k : ℕ, c.pc = base + k ∧ k < 18 ∧ Known i count k c

-- The flag is up.
def interested (base : Int) : Thread → Prop
  | .done => False
  | .running c => 5 ≤ point base c ∧ point base c ≤ 15

-- The turn has been given away after that.
def deferred (base : Int) : Thread → Prop
  | .done => False
  | .running c => 6 ≤ point base c ∧ point base c ≤ 15

def passedAt (k : ℕ) (c : Context) : Prop :=
  (12 ≤ k ∧ k ≤ 15) ∨ (k = 7 ∧ c.registers .ax ≠ 1) ∨ (k = 8 ∧ c.conditions.neq = true) ∨
    (k = 10 ∧ c.registers .ax ≠ c.registers .cx) ∨ (k = 11 ∧ c.conditions.eq = false)

-- The thread is in the critical section or can no longer be kept out of it.
def passed (base : Int) : Thread → Prop
  | .done => False
  | .running c => passedAt (point base c) c

def left (base : Int) : Thread → ℕ
  | .done => 0
  | .running c => if point base c < 15 then 1 else 0

instance (base : Int) (l : Thread) : Decidable (interested base l) :=
  match l with
  | .done => inferInstanceAs (Decidable False)
  | .running c => inferInstanceAs (Decidable (5 ≤ point base c ∧ point base c ≤ 15))

structure Inv (base total : Int) (turn : Fin 2) (count : Int) (s : Threads 2) : Prop where
  code : Holds (code base) base s.shared
  addr : countAddr < base
  flags : ∀ i, s.shared.read (flagAddr i) = some (if interested base (s.locals i) then 1 else 0)
  readTurn : s.shared.read turnAddr = some ((turn : ℕ) : Int)
  readCount : s.shared.read countAddr = some count
  knows : ∀ i, known base i count (s.locals i)
  turns : ∀ i j, i ≠ j → passed base (s.locals i) → deferred base (s.locals j) → turn = i
  balance : count + ((∑ i, left base (s.locals i) : ℕ) : Int) = total

variable {base total count : Int} {turn i j : Fin 2} {k : ℕ} {s : Threads 2} {c : Context}
  {l : Thread} {m : Memory}

theorem interested_eq (hpc : c.pc = base + k) : interested base (.running c) ↔ 5 ≤ k ∧ k ≤ 15 := by
  rw [← point_eq hpc]
  rfl

theorem deferred_eq (hpc : c.pc = base + k) : deferred base (.running c) ↔ 6 ≤ k ∧ k ≤ 15 := by
  rw [← point_eq hpc]
  rfl

theorem passed_eq (hpc : c.pc = base + k) : passed base (.running c) ↔ passedAt k c := by
  rw [← point_eq hpc]
  rfl

theorem left_eq (hpc : c.pc = base + k) : left base (.running c) = if k < 15 then 1 else 0 := by
  rw [← point_eq hpc]
  rfl

theorem interested_of_deferred (h : deferred base l) : interested base l := by
  cases l with
  | done => exact h
  | running c => exact ⟨Nat.le_of_succ_le h.1, h.2⟩

theorem deferred_of_passed (h : passed base l) : deferred base l := by
  cases l with
  | done => exact h
  | running c =>
    unfold passed passedAt at h
    unfold deferred
    omega

-- Both past the loop would mean that both had the turn.
theorem Inv.exclusive (h : Inv base total turn count s) (hi : passed base (s.locals i))
    (hj : passed base (s.locals j)) : i = j := by
  by_contra hne
  have hturn := h.turns i j hne hi (deferred_of_passed hj)
  exact hne (hturn.symm.trans (h.turns j i (Ne.symm hne) hj (deferred_of_passed hi)))

theorem flagAddr_lt (hbase : countAddr < base) (i : Fin 2) : flagAddr i < base := by
  have hlt := i.isLt
  simp only [countAddr] at hbase
  simp only [flagAddr]
  omega

theorem flagAddr_ne (hne : i ≠ j) : flagAddr i ≠ flagAddr j := by
  simp only [flagAddr]
  omega

theorem flagAddr_ne_turn (i : Fin 2) : flagAddr i ≠ turnAddr := by
  have hlt := i.isLt
  simp only [flagAddr, turnAddr]
  omega

theorem flagAddr_ne_count (i : Fin 2) : flagAddr i ≠ countAddr := by
  have hlt := i.isLt
  simp only [flagAddr, countAddr]
  omega

theorem known_count {count' : Int} (h : known base i count l) (hl : ¬ passed base l) :
    known base i count' l := by
  cases l with
  | done => trivial
  | running c =>
    obtain ⟨k, hpc, hk, hknown⟩ := h
    rw [passed_eq hpc] at hl
    refine ⟨k, hpc, hk, { hknown with loaded := ?_, added := ?_ }⟩
    · rintro rfl
      exact absurd (Or.inl ⟨by decide, by decide⟩) hl
    · rintro rfl
      exact absurd (Or.inl ⟨by decide, by decide⟩) hl

-- What one step of the thread `i` has to keep.
theorem Inv.advance {turn' : Fin 2} {count' : Int} (h : Inv base total turn count s)
    (hcode : Holds (X86.Peterson.code base) base m)
    (hself : m.read (flagAddr i) = some (if interested base l then 1 else 0))
    (hframe : ∀ j, j ≠ i → m.read (flagAddr j) = s.shared.read (flagAddr j))
    (hturn : m.read turnAddr = some ((turn' : ℕ) : Int)) (hcount : m.read countAddr = some count')
    (hknown : known base i count' l)
    (hother : ∀ j, j ≠ i → known base j count' (s.locals j))
    (hpass : ∀ j, j ≠ i → passed base l → deferred base (s.locals j) → turn' = i)
    (hdefer : ∀ j, j ≠ i → passed base (s.locals j) → deferred base l → turn' = j)
    (hleft : count' + left base l = count + left base (s.locals i)) :
    Inv base total turn' count' (s.set i (l, m)) := by
  refine ⟨hcode, h.addr, ?_, hturn, hcount, ?_, ?_, ?_⟩
  · intro j
    rcases eq_or_ne j i with rfl | hne
    · rw [State.set_locals_self]
      exact hself
    · rw [State.set_locals_of_ne s hne, State.set_shared, hframe j hne]
      exact h.flags j
  · intro j
    rcases eq_or_ne j i with rfl | hne
    · rw [State.set_locals_self]
      exact hknown
    · rw [State.set_locals_of_ne s hne]
      exact hother j hne
  · intro a b hne ha hb
    rcases eq_or_ne a i with rfl | hai
    · rw [State.set_locals_self] at ha
      rw [State.set_locals_of_ne s (Ne.symm hne)] at hb
      exact hpass b (Ne.symm hne) ha hb
    · rw [State.set_locals_of_ne s hai] at ha
      rcases eq_or_ne b i with rfl | hbi
      · rw [State.set_locals_self] at hb
        exact hdefer a hai ha hb
      · exact absurd hne (by omega)
  · have hsum := ThreadSums.sum_update (left base) s.locals i l
    have hbefore := h.balance
    simp only [State.set]
    omega

-- A step that leaves the memory as it is.
theorem Inv.quiet (h : Inv base total turn count s) (hl : s.locals i = .running c)
    (hpc : c.pc = base + k) (k' : ℕ) {c' : Context} (hpc' : c'.pc = base + k') (hk' : k' < 18)
    (hknown : Known i count k' c') (hflag : 5 ≤ k' ∧ k' ≤ 15 ↔ 5 ≤ k ∧ k ≤ 15)
    (hdefer : 6 ≤ k' ∧ k' ≤ 15 → 6 ≤ k ∧ k ≤ 15) (hleft : k' < 15 ↔ k < 15)
    (hpass : passedAt k' c' → passedAt k c ∨
      ∀ j, j ≠ i → deferred base (s.locals j) → turn = i) :
    ∃ turn' count', Inv base total turn' count' (s.set i (.running c', s.shared)) := by
  refine ⟨turn, count, h.advance h.code ?_ (fun _ _ => rfl) h.readTurn h.readCount
    ⟨k', hpc', hk', hknown⟩ (fun j _ => h.knows j) ?_ ?_ ?_⟩
  · rw [h.flags i, hl]
    simp only [interested_eq hpc, interested_eq hpc', hflag]
  · intro j hne hp hd
    rcases hpass ((passed_eq hpc').mp hp) with hbefore | hturn
    · exact h.turns i j (Ne.symm hne) (by rw [hl]; exact (passed_eq hpc).mpr hbefore) hd
    · exact hturn j hne hd
  · intro j hne hp hd
    have hd' := hdefer ((deferred_eq hpc').mp hd)
    exact h.turns j i hne hp (by rw [hl]; exact (deferred_eq hpc).mpr hd')
  · rw [hl, left_eq hpc, left_eq hpc']
    simp only [hleft]

theorem Known.cx (h : Known i count k c) (hk : 4 ≤ k) : c.registers .cx = 1 - (i : ℕ) := by
  obtain ⟨n, rfl⟩ := Nat.exists_eq_add_of_le' hk
  exact h.other

-- From the point 4 on only `ax` and the conditions change.
theorem Known.later {count' : Int} (h : Known i count k c) (hk : 4 ≤ k) (k' : ℕ) {c' : Context}
    (hk' : 4 ≤ k') (hregs : ∀ r, r ≠ .ax → c'.registers r = c.registers r)
    (hload : k' = 13 → c'.registers .ax = count')
    (hadd : k' = 14 → c'.registers .ax = count' + 1) : Known i count' k' c' := by
  obtain ⟨n, rfl⟩ := Nat.exists_eq_add_of_le' hk'
  refine ⟨?_, ?_, ?_, ?_, hload, hadd⟩
  · rw [hregs _ (by decide), h.zero]
  · rw [hregs _ (by decide), h.self]
  · intro _
    rw [hregs _ (by decide), h.flag (by omega)]
  · exact (hregs .cx (by decide)).trans (h.cx hk)

theorem setReg_ne {pc v : Int} {r : Reg} (hr : r ≠ .ax) :
    ({ c with pc := pc }.setReg .ax v).registers r = c.registers r :=
  Function.update_of_ne hr _ _

theorem setReg_ax {pc v : Int} : ({ c with pc := pc }.setReg .ax v).registers .ax = v := by
  simp [Context.setReg]

theorem not_passed (hk : k ≤ 6 ∨ 16 ≤ k) : ¬ passedAt k c := by
  unfold passedAt
  omega

theorem Known.flag_addr (h : Known i count k c) (hk : 1 ≤ k) :
    c.registers .fx + 4 * c.registers .bx = flagAddr i := by
  rw [h.flag hk, h.self]
  rfl

-- `i` looks at the flag of the other thread.
theorem Inv.lookFlag (h : Inv base total turn count s) (hl : s.locals i = .running c)
    (hpc : c.pc = base + (6 : ℕ)) (hknown : Known i count 6 c) {f : Int}
    (hf : s.shared.read (c.registers .fx + 4 * c.registers .cx) = some f) :
    ∃ turn' count', Inv base total turn' count'
      (s.set i (.running ({ c with pc := base + (7 : ℕ) }.setReg .ax f), s.shared)) := by
  refine h.quiet hl hpc 7 rfl (by decide)
    (hknown.later (by decide) 7 (by decide) (fun r hr => setReg_ne hr) (fun h => absurd h (by decide))
      (fun h => absurd h (by decide))) (by decide) (by decide) (by decide) ?_
  intro hp
  refine Or.inr fun j hne hd => ?_
  have haddr : c.registers .fx + 4 * c.registers .cx = flagAddr j := by
    have hcx := hknown.cx (by decide)
    have hi := i.isLt
    have hj := j.isLt
    have hij : j.val ≠ i.val := fun heq => hne (Fin.ext heq)
    rw [hknown.flag (by decide), hcx]
    simp only [flagAddr]
    omega
  rw [haddr, h.flags j, if_pos (interested_of_deferred hd)] at hf
  obtain rfl := Option.some.inj hf
  exact absurd hp (by simp [passedAt, Context.setReg])

-- `i` looks at the turn.
theorem Inv.lookTurn (h : Inv base total turn count s) (hl : s.locals i = .running c)
    (hpc : c.pc = base + (9 : ℕ)) (hknown : Known i count 9 c) :
    ∃ turn' count', Inv base total turn' count'
      (s.set i (.running ({ c with pc := base + (10 : ℕ) }.setReg .ax ((turn : ℕ) : Int)),
        s.shared)) := by
  refine h.quiet hl hpc 10 rfl (by decide)
    (hknown.later (by decide) 10 (by decide) (fun r hr => setReg_ne hr)
      (fun h => absurd h (by decide)) (fun h => absurd h (by decide))) (by decide) (by decide)
    (by decide) ?_
  intro hp
  refine Or.inr fun j hne hd => ?_
  have hcx := hknown.cx (by decide)
  have hax : ((turn : ℕ) : Int) ≠ 1 - (i : ℕ) := by
    rw [← hcx]
    simpa [passedAt, Context.setReg] using hp
  omega

-- `i` writes its flag on the way in or on the way out.
theorem Inv.writeFlag (h : Inv base total turn count s) (hl : s.locals i = .running c)
    (hpc : c.pc = base + k) (hknown : Known i count k c) (hk : k = 4 ∨ k = 15) {f : Int}
    (hf : f = if k = 4 then 1 else 0) :
    ∃ turn' count', Inv base total turn' count'
      (s.set i (.running { c with pc := base + (k + 1 : ℕ) },
        s.shared.write (c.registers .fx + 4 * c.registers .bx) f)) := by
  have hpc' : ({ c with pc := base + (k + 1 : ℕ) } : Context).pc = base + (k + 1 : ℕ) := rfl
  have hnot : ¬ passedAt (k + 1) { c with pc := base + (k + 1 : ℕ) } := not_passed (by omega)
  rw [hknown.flag_addr (by omega)]
  refine ⟨turn, count, h.advance (h.code.write (flagAddr_lt h.addr i)) ?_ ?_ ?_ ?_
    ⟨k + 1, hpc', by omega, hknown.later (by omega) (k + 1) (by omega) (fun _ _ => rfl)
      (fun h => by omega) (fun h => by omega)⟩ (fun j _ => h.knows j) ?_ ?_ ?_⟩
  · rw [Memory.read_write_self, hf]
    simp only [interested_eq hpc']
    rcases hk with rfl | rfl <;> rfl
  · intro j hne
    exact Memory.read_write_of_ne (flagAddr_ne hne)
  · rw [Memory.read_write_of_ne (flagAddr_ne_turn i).symm]
    exact h.readTurn
  · rw [Memory.read_write_of_ne (flagAddr_ne_count i).symm]
    exact h.readCount
  · intro j _ hp
    exact absurd ((passed_eq hpc').mp hp) hnot
  · intro j _ _ hd
    have hd' := (deferred_eq hpc').mp hd
    omega
  · rw [hl, left_eq hpc, left_eq hpc']
    rcases hk with rfl | rfl <;> rfl

def otherThread (i : Fin 2) : Fin 2 := ⟨1 - i.val, by omega⟩

-- `i` gives the turn to the other thread.
theorem Inv.writeTurn (h : Inv base total turn count s) (hl : s.locals i = .running c)
    (hpc : c.pc = base + k) (hknown : Known i count k c) (hk : k = 5 ∨ k = 16) :
    ∃ turn' count', Inv base total turn' count'
      (s.set i (.running { c with pc := base + (k + 1 : ℕ) },
        s.shared.write turnAddr (c.registers .cx))) := by
  have haddr := h.addr
  have hi := i.isLt
  have hpc' : ({ c with pc := base + (k + 1 : ℕ) } : Context).pc = base + (k + 1 : ℕ) := rfl
  have hnot : ¬ passedAt (k + 1) { c with pc := base + (k + 1 : ℕ) } := not_passed (by omega)
  simp only [countAddr] at haddr
  refine ⟨otherThread i, count, h.advance (h.code.write (by simp only [turnAddr]; omega)) ?_ ?_ ?_ ?_
    ⟨k + 1, hpc', by omega, hknown.later (by omega) (k + 1) (by omega) (fun _ _ => rfl)
      (fun h => by omega) (fun h => by omega)⟩ (fun j _ => h.knows j) ?_ ?_ ?_⟩
  · rw [Memory.read_write_of_ne (flagAddr_ne_turn i), h.flags i, hl]
    simp only [interested_eq hpc, interested_eq hpc']
    rcases hk with rfl | rfl <;> rfl
  · exact fun j _ => Memory.read_write_of_ne (flagAddr_ne_turn j)
  · rw [Memory.read_write_self, hknown.cx (by omega)]
    simp only [otherThread]
    congr 1
    omega
  · rw [Memory.read_write_of_ne (by decide)]
    exact h.readCount
  · intro j _ hp
    exact absurd ((passed_eq hpc').mp hp) hnot
  · intro j hne _ _
    have hj := j.isLt
    have hij : j.val ≠ i.val := fun heq => hne (Fin.ext heq)
    apply Fin.ext
    simp only [otherThread]
    omega
  · rw [hl, left_eq hpc, left_eq hpc']
    rcases hk with rfl | rfl <;> rfl

theorem Inv.storeCount (h : Inv base total turn count s) (hl : s.locals i = .running c)
    (hpc : c.pc = base + (14 : ℕ)) (hknown : Known i count 14 c) :
    ∃ turn' count', Inv base total turn' count'
      (s.set i (.running { c with pc := base + (15 : ℕ) },
        s.shared.write countAddr (c.registers .ax))) := by
  have hpc' : ({ c with pc := base + (15 : ℕ) } : Context).pc = base + (15 : ℕ) := rfl
  have hpassed : passed base (s.locals i) := by
    rw [hl, passed_eq hpc]
    exact Or.inl ⟨by decide, by decide⟩
  refine ⟨turn, count + 1, h.advance (h.code.write h.addr) ?_ ?_ ?_ ?_
    ⟨15, hpc', by decide, hknown.later (by decide) 15 (by decide) (fun _ _ => rfl)
      (fun h => absurd h (by decide)) (fun h => absurd h (by decide))⟩ ?_ ?_ ?_ ?_⟩
  · rw [Memory.read_write_of_ne (flagAddr_ne_count i), h.flags i, hl]
    simp only [interested_eq hpc, interested_eq hpc']
    rfl
  · exact fun j _ => Memory.read_write_of_ne (flagAddr_ne_count j)
  · rw [Memory.read_write_of_ne (by decide)]
    exact h.readTurn
  · rw [Memory.read_write_self, hknown.added rfl]
  · intro j hne
    exact known_count (h.knows j) fun hj => hne (h.exclusive hj hpassed)
  · exact fun j hne _ hd => h.turns i j (Ne.symm hne) hpassed hd
  · exact fun j hne hp _ => h.turns j i hne hp (deferred_of_passed hpassed)
  · rw [hl, left_eq hpc, left_eq hpc']
    simp

-- The four instructions before the lock.
theorem Inv.prepare (h : Inv base total turn count s) (hl : s.locals i = .running c)
    (hpc : c.pc = base + k) (hk : k < 4) {c' : Context} (hpc' : c'.pc = base + (k + 1 : ℕ))
    (hknown : Known i count (k + 1) c') :
    ∃ turn' count', Inv base total turn' count' (s.set i (.running c', s.shared)) :=
  h.quiet hl hpc (k + 1) hpc' (by omega) hknown (by omega) (by omega) (by omega)
    (fun hp => absurd hp (not_passed (by omega)))

-- The instructions after the turn has been given away that only look.
theorem Inv.look (h : Inv base total turn count s) (hl : s.locals i = .running c)
    (hpc : c.pc = base + k) (hk : 6 ≤ k) (hk' : k < 15) (hknown : Known i count k c) (k' : ℕ)
    {c' : Context} (hpc' : c'.pc = base + k') (hlow : 6 ≤ k') (hhigh : k' < 15)
    (hregs : ∀ r, r ≠ .ax → c'.registers r = c.registers r)
    (hload : k' = 13 → c'.registers .ax = count)
    (hadd : k' = 14 → c'.registers .ax = count + 1) (hpass : passedAt k' c' → passedAt k c) :
    ∃ turn' count', Inv base total turn' count' (s.set i (.running c', s.shared)) :=
  h.quiet hl hpc k' hpc' (by omega)
    (hknown.later (by omega) k' (by omega) hregs hload hadd) (by omega) (by omega) (by omega)
    (fun hp => Or.inl (hpass hp))

theorem Inv.step {x : Thread × Memory} (h : Inv base total turn count s)
    (hx : threadStep (s.locals i) s.shared = some x) :
    ∃ turn' count', Inv base total turn' count' (s.set i x) := by
  cases hl : s.locals i with
  | done =>
    rw [hl] at hx
    cases hx
  | running c =>
    have hknown := h.knows i
    rw [hl] at hx hknown
    obtain ⟨k, hpc, hk, hknown⟩ := hknown
    have hzero := hknown.zero
    cases effect_of_step h.code hpc hk hzero hx with
    | lea =>
      refine h.prepare hl hpc (by decide) rfl ⟨?_, ?_, ?_, trivial, ?_, ?_⟩
      · simpa [Context.setReg] using hzero
      · simpa [Context.setReg] using hknown.self
      · exact fun _ => by simp [Context.setReg]
      · exact fun h => absurd h (by decide)
      · exact fun h => absurd h (by decide)
    | self =>
      refine h.prepare hl hpc (by decide) rfl ⟨?_, ?_, ?_, ?_, ?_, ?_⟩
      · simpa [Context.setReg] using hzero
      · simpa [Context.setReg] using hknown.self
      · exact fun _ => by simpa [Context.setReg] using hknown.flag (by decide)
      · simpa [Context.setReg] using hknown.self
      · exact fun h => absurd h (by decide)
      · exact fun h => absurd h (by decide)
    | neg =>
      have hcx : c.registers .cx = (i : ℕ) := hknown.other
      refine h.prepare hl hpc (by decide) rfl ⟨?_, ?_, ?_, ?_, ?_, ?_⟩
      · simpa [Context.setReg] using hzero
      · simpa [Context.setReg] using hknown.self
      · exact fun _ => by simpa [Context.setReg] using hknown.flag (by decide)
      · simpa [Context.setReg] using hcx
      · exact fun h => absurd h (by decide)
      · exact fun h => absurd h (by decide)
    | other =>
      have hcx : c.registers .cx = -(i : ℕ) := hknown.other
      refine h.prepare hl hpc (by decide) rfl ⟨?_, ?_, ?_, ?_, ?_, ?_⟩
      · simpa [Context.setReg] using hzero
      · simpa [Context.setReg] using hknown.self
      · exact fun _ => by simpa [Context.setReg] using hknown.flag (by decide)
      · simp [Context.setReg, hcx]
        omega
      · exact fun h => absurd h (by decide)
      · exact fun h => absurd h (by decide)
    | raise => exact h.writeFlag hl hpc hknown (Or.inl rfl) rfl
    | defer => exact h.writeTurn hl hpc hknown (Or.inl rfl)
    | lookFlag hf => exact h.lookFlag hl hpc hknown hf
    | testFlag =>
      refine h.look hl hpc (by decide) (by decide) hknown 8 rfl (by decide) (by decide)
        (fun _ _ => rfl) (fun h => absurd h (by decide)) (fun h => absurd h (by decide)) ?_
      intro hp
      simpa [passedAt, Context.setConditions, testAll] using hp
    | skip hneq =>
      refine h.look hl hpc (by decide) (by decide) hknown 12 rfl (by decide) (by decide)
        (fun _ _ => rfl) (fun h => absurd h (by decide)) (fun h => absurd h (by decide)) ?_
      exact fun _ => Or.inr (Or.inr (Or.inl ⟨rfl, hneq⟩))
    | stay hneq =>
      refine h.look hl hpc (by decide) (by decide) hknown 9 rfl (by decide) (by decide)
        (fun _ _ => rfl) (fun h => absurd h (by decide)) (fun h => absurd h (by decide)) ?_
      exact fun hp => absurd hp (by unfold passedAt; omega)
    | lookTurn hu =>
      rw [h.readTurn] at hu
      obtain rfl := Option.some.inj hu
      exact h.lookTurn hl hpc hknown
    | compare =>
      refine h.look hl hpc (by decide) (by decide) hknown 11 rfl (by decide) (by decide)
        (fun _ _ => rfl) (fun h => absurd h (by decide)) (fun h => absurd h (by decide)) ?_
      intro hp
      simpa [passedAt, Context.setConditions, testAll] using hp
    | back heq =>
      refine h.look hl hpc (by decide) (by decide) hknown 6 rfl (by decide) (by decide)
        (fun _ _ => rfl) (fun h => absurd h (by decide)) (fun h => absurd h (by decide)) ?_
      exact fun hp => absurd hp (not_passed (by decide))
    | go heq =>
      refine h.look hl hpc (by decide) (by decide) hknown 12 rfl (by decide) (by decide)
        (fun _ _ => rfl) (fun h => absurd h (by decide)) (fun h => absurd h (by decide)) ?_
      exact fun _ => Or.inr (Or.inr (Or.inr (Or.inr ⟨rfl, heq⟩)))
    | loadCount hcount =>
      rw [h.readCount] at hcount
      obtain rfl := Option.some.inj hcount
      refine h.look hl hpc (by decide) (by decide) hknown 13 rfl (by decide) (by decide)
        (fun r hr => setReg_ne hr) (fun _ => setReg_ax) (fun h => absurd h (by decide)) ?_
      exact fun _ => Or.inl ⟨by decide, by decide⟩
    | add =>
      refine h.look hl hpc (by decide) (by decide) hknown 14 rfl (by decide) (by decide)
        (fun r hr => setReg_ne hr) (fun h => absurd h (by decide)) (fun _ => ?_) ?_
      · rw [setReg_ax, hknown.loaded rfl]
      · exact fun _ => Or.inl ⟨by decide, by decide⟩
    | storeCount => exact h.storeCount hl hpc hknown
    | lower => exact h.writeFlag hl hpc hknown (Or.inr rfl) rfl
    | give => exact h.writeTurn hl hpc hknown (Or.inr rfl)
    | halt =>
      refine ⟨turn, count, h.advance (l := .done) h.code ?_ (fun _ _ => rfl) h.readTurn h.readCount
        trivial (fun j _ => h.knows j) (fun _ _ hp => hp.elim) (fun _ _ _ hd => hd.elim) ?_⟩
      · rw [h.flags i, hl]
        simp only [interested_eq hpc]
        rfl
      · rw [hl, left_eq hpc]
        rfl

section Runs

variable {o : Options} {argv : Fin 2 → List (Reg × Int)} {memory : Memory}

theorem inv_start (hmem : 0 < o.memsize) (hzero : ∀ t, ∀ x ∈ argv t, x.1 ≠ .zero)
    (hself : ∀ t : Fin 2, (o.process argv t).saved.registers .bx = (t : ℕ))
    (hload : load source o.loadaddr (initMemory o.memsize) = some memory) :
    Inv o.loadaddr 2 0 0 (o.threads argv memory) := by
  obtain ⟨hcode, haddr, hread⟩ := load_code hmem hload
  have hpc : ∀ t, (o.process argv t).saved.pc = o.loadaddr + (0 : ℕ) := by
    intro t
    simp [Options.process]
  refine ⟨hcode, haddr, ?_, hread _ (by decide) (by decide), hread _ (by decide) (by decide), ?_, ?_,
    ?_⟩
  · intro i
    have hi := i.isLt
    have hflag := hread (flagAddr i) (by simp only [flagAddr]; omega)
      (by simp only [flagAddr, countAddr]; omega)
    rw [if_neg]
    · exact hflag
    · exact fun h => absurd ((interested_eq (hpc i)).mp h).1 (by decide)
  · intro i
    exact ⟨0, hpc i, by decide, Options.process_zero (hzero i), hself i, fun h => absurd h (by decide),
      trivial, fun h => absurd h (by decide), fun h => absurd h (by decide)⟩
  · intro i j _ hp _
    exact absurd ((passed_eq (hpc i)).mp hp) (not_passed (by decide))
  · have hleft : ∀ i, left o.loadaddr ((o.threads argv memory).locals i) = 1 :=
      fun i => (left_eq (hpc i)).trans rfl
    simp only [hleft]
    rfl

theorem inv_reachable {s₀ : Threads 2} (hinit : Inv base total turn count s₀)
    (h : Reachable threadStep s₀ s) : ∃ turn' count', Inv base total turn' count' s := by
  refine h.invariant (I := fun s => ∃ turn' count', Inv base total turn' count' s)
    ⟨turn, count, hinit⟩ ?_
  rintro s i x ⟨turn', count', hinv⟩ hx
  exact hinv.step hx

-- The next instruction of `t` belongs to the critical section or lowers the flag.
def Critical (base : Int) (s : Threads 2) (t : Fin 2) : Prop :=
  ∃ c, s.locals t = .running c ∧ base + 12 ≤ c.pc ∧ c.pc < base + 16

theorem Critical.passed {t : Fin 2} (h : Critical base s t) : passed base (s.locals t) := by
  obtain ⟨c, hc, hge, hlt⟩ := h
  rw [hc]
  simp only [Peterson.passed, passedAt, point]
  omega

-- Two threads that number themselves 0 and 1 exclude each other, and both increments count.
theorem excludes_and_counts (o : Options) (argv : Fin 2 → List (Reg × Int)) (hmem : 0 < o.memsize)
    (hzero : ∀ t, ∀ x ∈ argv t, x.1 ≠ .zero)
    (hself : ∀ t : Fin 2, (o.process argv t).saved.registers .bx = (t : ℕ)) {memory : Memory}
    (hload : load source o.loadaddr (initMemory o.memsize) = some memory) {draw : ℕ}
    {m : Machine 2} (hstart : o.start argv memory draw = some m) :
    (∀ m', Run o.interrupts m m' → ∀ t u, Critical o.loadaddr m'.view t →
      Critical o.loadaddr m'.view u → t = u) ∧
    (∀ k m', Returns o.interrupts m k m' → m'.cpu.memory.read countAddr = some 2) := by
  obtain ⟨hview, hvalid⟩ := Options.start_view hstart
  have hinit := inv_start hmem hzero hself hload
  rw [← hview] at hinit
  constructor
  · intro m' hrun t u ht hu
    obtain ⟨turn, count, hinv⟩ := inv_reachable hinit (hrun.simulates hvalid).1
    exact hinv.exclusive ht.passed hu.passed
  · intro k m' hreturns
    obtain ⟨hreach, hdone⟩ := hreturns.simulates hvalid
    obtain ⟨turn, count, hinv⟩ := inv_reachable hinit hreach
    have hbalance := hinv.balance
    have hzero : ∑ i, left o.loadaddr (m'.view.locals i) = 0 :=
      Finset.sum_eq_zero fun i _ => by rw [hdone i]; rfl
    rw [hzero] at hbalance
    have hcount : count = 2 := by simpa using hbalance
    exact hcount ▸ hinv.readCount

theorem excludes_and_counts_numbered :
    let o : Options :=
      { intfreq := 1, intrand := false, procsched := [], loadaddr := 1000, memsize := 1 }
    let argv : Fin 2 → List (Reg × Int) := fun t => [(.bx, t.val)]
    ∃ memory, ∃ m : Machine 2, load source 1000 (initMemory 1) = some memory ∧
      o.start argv memory 0 = some m ∧
      (∀ m', Run o.interrupts m m' → ∀ t u, Critical 1000 m'.view t → Critical 1000 m'.view u →
        t = u) ∧
      (∀ k m', Returns o.interrupts m k m' → m'.cpu.memory.read countAddr = some 2) := by
  intro o argv
  obtain ⟨memory, hload⟩ := Option.isSome_iff_exists.mp
    (show (load source 1000 (initMemory 1)).isSome = true from rfl)
  obtain ⟨m, hstart⟩ := Option.isSome_iff_exists.mp
    (show (o.start argv memory 0).isSome = true from rfl)
  exact ⟨memory, m, hload, hstart,
    excludes_and_counts o argv (by decide) (by decide) (by decide) hload hstart⟩

end Runs

end X86.Peterson
