import HTWGArchive.Paging.PagingPolicy

namespace PagingPolicy

open DemandPaging

variable {o : Options} {addrIndex n : ℕ} {future : List ℕ} {s s' : State}

theorem pop_eq {memory : List ℕ} {i : ℕ} (hi : i < memory.length) :
    pop memory i = .ok (memory[i], memory.eraseIdx i) := by
  have hnonneg : ¬ ((i : ℤ) < 0) := by omega
  simp only [pop, if_neg hnonneg, Int.toNat_natCast, List.getElem?_eq_getElem hi]

-- The loop has looked at `seen`; later pages win a tie.
theorem maxLoop_spec {referenced : ℕ → ℕ} {maxReplace replaceIdx : ℤ} {seen pages : List ℕ}
    (hseen : (seen = [] ∧ maxReplace = -1) ∨ ∃ i q, replaceIdx = (i : ℕ) ∧ seen[i]? = some q ∧
      maxReplace = referenced q ∧ ∀ p ∈ seen, referenced p ≤ referenced q)
    (hne : seen ++ pages ≠ []) :
    ∃ i q, maxLoop referenced maxReplace replaceIdx seen.length pages = (i : ℕ) ∧
      (seen ++ pages)[i]? = some q ∧ ∀ p ∈ seen ++ pages, referenced p ≤ referenced q := by
  induction pages generalizing seen maxReplace replaceIdx with
  | nil =>
    rw [List.append_nil] at hne ⊢
    obtain ⟨hnil, -⟩ | ⟨i, q, rfl, hq, -, hall⟩ := hseen
    · exact absurd hnil hne
    · exact ⟨i, q, rfl, hq, hall⟩
  | cons page pages ih =>
    have hsplit : seen ++ page :: pages = (seen ++ [page]) ++ pages := by simp
    have hlength : ((seen.length : ℤ) + 1) = ((seen ++ [page]).length : ℕ) := by simp
    rw [hsplit] at hne ⊢
    unfold maxLoop
    rw [hlength]
    split
    · rename_i hle
      refine ih (Or.inr ⟨seen.length, page, rfl, List.getElem?_concat_length, rfl, ?_⟩) hne
      intro p hp
      rcases List.mem_append.mp hp with hold | hnew
      · obtain ⟨rfl, -⟩ | ⟨i, q, -, -, hmax, hall⟩ := hseen
        · exact absurd hold List.not_mem_nil
        · have hold' := hall p hold
          omega
      · obtain rfl := List.mem_singleton.mp hnew
        exact Nat.le_refl _
    · rename_i hgt
      refine ih (Or.inr ?_) hne
      obtain ⟨rfl, rfl⟩ | ⟨i, q, hidx, hq, hmax, hall⟩ := hseen
      · exact absurd (by omega) hgt
      · have hi := (List.getElem?_eq_some_iff.mp hq).1
        refine ⟨i, q, hidx, (List.getElem?_append_left hi).trans hq, hmax, ?_⟩
        intro p hp
        rcases List.mem_append.mp hp with hold | hnew
        · exact hall p hold
        · obtain rfl := List.mem_singleton.mp hnew
          omega

theorem minLoop_spec {referenced : ℕ → ℕ} {minReplace replaceIdx : ℤ} {seen pages : List ℕ}
    (hseen : (seen = [] ∧ ∀ p ∈ pages, (referenced p : ℤ) < minReplace) ∨
      ∃ i, replaceIdx = (i : ℕ) ∧ i < seen.length)
    (hne : seen ++ pages ≠ []) :
    ∃ i, minLoop referenced minReplace replaceIdx seen.length pages = (i : ℕ) ∧
      i < (seen ++ pages).length := by
  induction pages generalizing seen minReplace replaceIdx with
  | nil =>
    rw [List.append_nil] at hne ⊢
    obtain ⟨hnil, -⟩ | ⟨i, rfl, hi⟩ := hseen
    · exact absurd hnil hne
    · exact ⟨i, rfl, hi⟩
  | cons page pages ih =>
    have hsplit : seen ++ page :: pages = (seen ++ [page]) ++ pages := by simp
    have hlength : ((seen.length : ℤ) + 1) = ((seen ++ [page]).length : ℕ) := by simp
    rw [hsplit] at hne ⊢
    unfold minLoop
    rw [hlength]
    split
    · exact ih (Or.inr ⟨seen.length, rfl, by simp⟩) hne
    · rename_i hge
      refine ih (Or.inr ?_) hne
      obtain ⟨rfl, hlt⟩ | ⟨i, hidx, hi⟩ := hseen
      · exact absurd (hlt page List.mem_cons_self) hge
      · exact ⟨i, hidx, by simp; omega⟩

theorem clockScan_spec {memory : List ℕ} {ref : ℕ → Option ℕ} {draws : List ℕ}
    (hdraws : ∀ d ∈ draws, d < memory.length) (href : ∀ p ∈ memory, ∃ bits, ref p = some bits) :
    clockScan memory ref draws = .error .noDraw ∨ ∃ v ref' draws',
      clockScan memory ref draws = .ok (v, ref', draws') ∧ v ∈ memory ∧ draws' ⊆ draws ∧
        ∀ p ∈ memory, p ≠ v → ∃ bits, ref' p = some bits := by
  induction draws generalizing ref with
  | nil => exact Or.inl rfl
  | cons draw draws ih =>
    have hdraw := hdraws draw List.mem_cons_self
    have hmem := List.getElem_mem hdraw
    obtain ⟨bits, hbits⟩ := href memory[draw] hmem
    unfold clockScan
    simp only [List.getElem?_eq_getElem hdraw, hbits]
    split
    · have hlower : ∀ p ∈ memory, ∃ bits',
          Function.update ref memory[draw] (some (bits - 1)) p = some bits' := by
        intro p hp
        rcases eq_or_ne p memory[draw] with rfl | hne
        · exact ⟨_, Function.update_self _ _ _⟩
        · rw [Function.update_of_ne hne]
          exact href p hp
      obtain heq | ⟨v, ref', draws', heq, hv, hsub, hafter⟩ :=
        ih (fun d hd => hdraws d (List.mem_cons_of_mem _ hd)) hlower
      · exact Or.inl heq
      · exact Or.inr ⟨v, ref', draws', heq, hv, List.subset_cons_of_subset draw hsub, hafter⟩
    · refine Or.inr ⟨memory[draw], _, draws, rfl, hmem, List.subset_cons_self draw draws, ?_⟩
      intro p hp hne
      rw [Function.update_of_ne hne]
      exact href p hp

structure Sound (o : Options) (s : State) : Prop where
  nodup : s.memory.Nodup
  count : s.count = s.memory.length
  filled : s.memory.length = min o.cachesize s.miss
  ref : ∀ p ∈ s.memory, ∃ bits, s.ref p = some bits
  draws : ∀ d ∈ s.draws, d < o.cachesize

structure Evicts (o : Options) (future : List ℕ) (s : State) (v : ℕ) (s' : State) : Prop where
  mem : v ∈ s.memory
  memory : s'.memory = s.memory.erase v
  count : s'.count = s.count
  hits : s'.hits = s.hits
  miss : s'.miss = s.miss
  ref : ∀ p ∈ s.memory, p ≠ v → ∃ bits, s'.ref p = some bits
  draws : s'.draws ⊆ s.draws
  furthest : o.policy = .opt → ∀ p ∈ s.memory, future.idxOf p ≤ future.idxOf v
  oldest : o.policy = .lru → s.memory.head? = some v

-- What the replacement may count on when it is called.
structure Full (o : Options) (s : State) : Prop where
  nodup : s.memory.Nodup
  count : s.count = s.memory.length
  full : s.memory.length = o.cachesize
  pos : 0 < o.cachesize
  ref : ∀ p ∈ s.memory, ∃ bits, s.ref p = some bits
  draws : ∀ d ∈ s.draws, d < o.cachesize

theorem pop_evicts (h : Full o s) {i : ℕ} {draws : List ℕ} (hi : i < s.memory.length)
    (hdraws : draws ⊆ s.draws)
    (hfurthest : o.policy = .opt → ∀ p ∈ s.memory, future.idxOf p ≤ future.idxOf s.memory[i])
    (holdest : o.policy = .lru → i = 0) :
    ∃ v s', (pop s.memory i).map (fun r => (r.1, { s with memory := r.2, draws := draws })) =
      .ok (v, s') ∧ Evicts o future s v s' := by
  rw [pop_eq hi]
  refine ⟨_, _, rfl, List.getElem_mem hi, ?_, rfl, rfl, rfl, fun p hp _ => h.ref p hp, hdraws,
    hfurthest, ?_⟩
  · exact (h.nodup.erase_getElem i hi).symm
  · intro hlru
    obtain rfl := holdest hlru
    exact List.head?_eq_getElem?.trans (List.getElem?_eq_getElem hi)

theorem replace_cases (h : Full o s) (addrIndex : ℕ) (future : List ℕ) :
    replace o addrIndex future s = .error .noDraw ∨
      ∃ v s', replace o addrIndex future s = .ok (v, s') ∧ Evicts o future s v s' := by
  have hpos : 0 < s.memory.length := by
    have hfull := h.full
    have hcache := h.pos
    omega
  have hne : s.memory ≠ [] := List.ne_nil_of_length_pos hpos
  have hcount := h.count
  have hsame : s.draws ⊆ s.draws := List.Subset.refl _
  cases hpolicy : o.policy with
  | fifo =>
    simp only [replace, hpolicy]
    exact Or.inr (pop_evicts h hpos hsame (by simp [hpolicy]) (by simp))
  | lru =>
    simp only [replace, hpolicy]
    exact Or.inr (pop_evicts h hpos hsame (by simp [hpolicy]) (by simp))
  | mru =>
    have hlast : (s.count : ℤ) - 1 = ((s.memory.length - 1 : ℕ) : ℤ) := by omega
    simp only [replace, hpolicy, hlast]
    exact Or.inr (pop_evicts h (by omega) hsame (by simp [hpolicy]) (by simp [hpolicy]))
  | rand =>
    simp only [replace, hpolicy]
    cases hdraws : s.draws with
    | nil => exact Or.inl rfl
    | cons draw draws =>
      have hdraw : draw < s.memory.length := by
        rw [h.full]
        exact h.draws draw (hdraws ▸ List.mem_cons_self)
      refine Or.inr (pop_evicts h hdraw ?_ (by simp [hpolicy]) (by simp [hpolicy]))
      rw [hdraws]
      exact List.subset_cons_self draw draws
  | clock =>
    have hdraws : ∀ d ∈ s.draws, d < s.memory.length := h.full.symm ▸ h.draws
    simp only [replace, hpolicy]
    rcases clockScan_spec hdraws h.ref with heq | ⟨v, ref', draws', heq, hv, hsub, href⟩
    · rw [heq]
      exact Or.inl rfl
    · rw [heq]
      refine Or.inr ⟨v, _, rfl, hv, rfl, rfl, rfl, rfl, href, hsub, ?_, ?_⟩
      · intro hopt
        rw [hpolicy] at hopt
        cases hopt
      · intro hlru
        rw [hpolicy] at hlru
        cases hlru
  | opt =>
    obtain ⟨i, q, hidx, hq, hall⟩ := @maxLoop_spec (whenReferenced addrIndex future) (-1) (-1) []
      s.memory (Or.inl ⟨rfl, rfl⟩) hne
    obtain ⟨hi, rfl⟩ := List.getElem?_eq_some_iff.mp hq
    have hloop : maxLoop (whenReferenced addrIndex future) (-1) (-1) 0 s.memory = (i : ℕ) := hidx
    simp only [replace, hpolicy, hloop]
    refine Or.inr (pop_evicts h hi hsame (fun _ p hp => ?_) (by simp [hpolicy]))
    exact Nat.add_le_add_iff_left.mp (hall p hp)
  | unopt =>
    have hbound : ∀ p ∈ s.memory, (whenReferenced addrIndex future p : ℤ) <
        (addrIndex : ℤ) + 1 + future.length + 1 := by
      intro p _
      have hle : future.idxOf p ≤ future.length := List.idxOf_le_length
      simp only [whenReferenced]
      omega
    obtain ⟨i, hidx, hi⟩ := @minLoop_spec (whenReferenced addrIndex future) _ (-1) [] s.memory
      (Or.inl ⟨rfl, hbound⟩) hne
    have hloop : minLoop (whenReferenced addrIndex future) (addrIndex + 1 + future.length + 1) (-1)
      0 s.memory = (i : ℕ) := hidx
    simp only [replace, hpolicy, hloop]
    exact Or.inr (pop_evicts h hi hsame (by simp [hpolicy]) (by simp [hpolicy]))

inductive Access (o : Options) (future : List ℕ) (n : ℕ) (s s' : State) : Prop where
  | hit : n ∈ s.memory → s'.hits = s.hits + 1 → s'.miss = s.miss →
      s'.memory = (if o.policy = .lru ∨ o.policy = .mru then s.memory.erase n ++ [n]
        else s.memory) → Access o future n s s'
  | room : n ∉ s.memory → s'.hits = s.hits → s'.miss = s.miss + 1 →
      s.memory.length < o.cachesize → s'.memory = s.memory ++ [n] → Access o future n s s'
  | evict (v : ℕ) : n ∉ s.memory → s'.hits = s.hits → s'.miss = s.miss + 1 →
      s.memory.length = o.cachesize → v ∈ s.memory → s'.memory = s.memory.erase v ++ [n] →
      (o.policy = .opt → ∀ p ∈ s.memory, future.idxOf p ≤ future.idxOf v) →
      (o.policy = .lru → s.memory.head? = some v) → Access o future n s s'

@[simp] theorem touch_memory (o : Options) (n : ℕ) (s : State) :
    (touch o n s).memory = s.memory := by
  unfold touch
  split <;> rfl

@[simp] theorem touch_count (o : Options) (n : ℕ) (s : State) :
    (touch o n s).count = s.count := by
  unfold touch
  split <;> rfl

@[simp] theorem touch_hits (o : Options) (n : ℕ) (s : State) : (touch o n s).hits = s.hits := by
  unfold touch
  split <;> rfl

@[simp] theorem touch_miss (o : Options) (n : ℕ) (s : State) : (touch o n s).miss = s.miss := by
  unfold touch
  split <;> rfl

@[simp] theorem touch_draws (o : Options) (n : ℕ) (s : State) :
    (touch o n s).draws = s.draws := by
  unfold touch
  split <;> rfl

theorem touch_ref (o : Options) (n : ℕ) (s : State) :
    ∃ bits, (touch o n s).ref = Function.update s.ref n (some bits) := by
  unfold touch
  split
  · exact ⟨1, rfl⟩
  · exact ⟨_, rfl⟩

theorem exists_touch_ref {p : ℕ} (h : p ≠ n → ∃ bits, s.ref p = some bits) :
    ∃ bits, (touch o n s).ref p = some bits := by
  obtain ⟨bits, href⟩ := touch_ref o n s
  rw [href]
  rcases eq_or_ne p n with rfl | hne
  · exact ⟨bits, Function.update_self _ _ _⟩
  · rw [Function.update_of_ne hne]
    exact h hne

theorem nodup_append_single {memory : List ℕ} (h : memory.Nodup) (hn : n ∉ memory) :
    (memory ++ [n]).Nodup := by
  rw [List.nodup_append]
  refine ⟨h, List.nodup_singleton n, ?_⟩
  intro p hp q hq
  obtain rfl := List.mem_singleton.mp hq
  exact fun heq => hn (heq ▸ hp)

theorem perm_erase_append (h : n ∈ s.memory) : (s.memory.erase n ++ [n]).Perm s.memory :=
  List.perm_append_comm.trans (List.perm_cons_erase h).symm

theorem access_hit (h : Sound o s) (hn : n ∈ s.memory) :
    ∃ s', access o addrIndex future n s = .ok s' ∧ Sound o s' ∧ Access o future n s s' := by
  have hmoved : (if o.policy = .lru ∨ o.policy = .mru then s.memory.erase n ++ [n]
      else s.memory).Perm s.memory := by
    split
    · exact perm_erase_append hn
    · exact List.Perm.refl _
  refine ⟨_, if_pos hn, ?_, .hit hn ?_ ?_ ?_⟩
  · refine ⟨?_, ?_, ?_, ?_, ?_⟩
    · rw [touch_memory]
      exact hmoved.nodup_iff.mpr h.nodup
    · rw [touch_memory, touch_count, hmoved.length_eq]
      exact h.count
    · rw [touch_memory, touch_miss, hmoved.length_eq]
      exact h.filled
    · intro p hp
      rw [touch_memory] at hp
      exact exists_touch_ref (fun _ => h.ref p (hmoved.mem_iff.mp hp))
    · rw [touch_draws]
      exact h.draws
  · rw [touch_hits]
  · rw [touch_miss]
  · rw [touch_memory]

theorem access_room (h : Sound o s) (hn : n ∉ s.memory) (hroom : s.count ≠ o.cachesize) :
    ∃ s', access o addrIndex future n s = .ok s' ∧ Sound o s' ∧ Access o future n s s' := by
  have hcount := h.count
  have hfilled := h.filled
  refine ⟨_, (if_neg hn).trans (if_neg hroom), ?_, .room hn ?_ ?_ (by omega) ?_⟩
  · refine ⟨?_, ?_, ?_, ?_, ?_⟩
    · rw [touch_memory]
      exact nodup_append_single h.nodup hn
    · rw [touch_memory, touch_count]
      simp [hcount]
    · rw [touch_memory, touch_miss]
      simp only [List.length_append, List.length_singleton]
      omega
    · intro p hp
      rw [touch_memory] at hp
      apply exists_touch_ref
      intro hne
      rcases List.mem_append.mp hp with hold | hnew
      · exact h.ref p hold
      · exact absurd (List.mem_singleton.mp hnew) hne
    · rw [touch_draws]
      exact h.draws
  · rw [touch_hits]
  · rw [touch_miss]
  · rw [touch_memory]

theorem access_evict (hpos : 0 < o.cachesize) (h : Sound o s) (hn : n ∉ s.memory)
    (hfull : s.count = o.cachesize) :
    access o addrIndex future n s = .error .noDraw ∨
      ∃ s', access o addrIndex future n s = .ok s' ∧ Sound o s' ∧ Access o future n s s' := by
  have hcount := h.count
  have hfilled := h.filled
  have hready : Full o { s with miss := s.miss + 1 } :=
    ⟨h.nodup, hcount, by rw [← hfull, ← hcount], hpos, h.ref, h.draws⟩
  simp only [access, if_neg hn, if_pos hfull]
  obtain heq | ⟨v, s₁, heq, hev⟩ := replace_cases hready addrIndex future
  · rw [heq]
    exact Or.inl rfl
  · rw [heq]
    have hgone : v ∉ s₁.memory ++ [n] := by
      rw [hev.memory, List.mem_append, List.mem_singleton]
      rintro (hold | rfl)
      · exact (h.nodup.mem_erase_iff.mp hold).1 rfl
      · exact hn hev.mem
    simp only [if_neg hgone]
    refine Or.inr ⟨_, rfl, ?_, .evict v hn ?_ ?_ (hcount.symm.trans hfull) hev.mem ?_
      hev.furthest hev.oldest⟩
    · refine ⟨?_, ?_, ?_, ?_, ?_⟩
      · rw [touch_memory]
        refine nodup_append_single ?_ ?_
        · rw [hev.memory]
          exact h.nodup.erase v
        · rw [hev.memory]
          exact fun hmem => hn (List.mem_of_mem_erase hmem)
      · have hlength := List.length_erase_of_mem hev.mem
        have hsome := List.length_pos_of_mem hev.mem
        rw [touch_memory, touch_count]
        simp only [List.length_append, List.length_singleton, hev.memory, hev.count]
        simp only at hlength hsome
        omega
      · have hlength := List.length_erase_of_mem hev.mem
        have hsome := List.length_pos_of_mem hev.mem
        rw [touch_memory, touch_miss]
        simp only [List.length_append, List.length_singleton, hev.memory, hev.miss]
        simp only at hlength hsome
        omega
      · intro p hp
        rw [touch_memory] at hp
        apply exists_touch_ref
        intro hne
        rcases List.mem_append.mp hp with hold | hnew
        · rw [hev.memory] at hold
          obtain ⟨hother, hmem⟩ := h.nodup.mem_erase_iff.mp hold
          exact hev.ref p hmem hother
        · exact absurd (List.mem_singleton.mp hnew) hne
      · rw [touch_draws]
        exact fun d hd => h.draws d (hev.draws hd)
    · rw [touch_hits]
      exact hev.hits
    · rw [touch_miss]
      exact hev.miss
    · rw [touch_memory]
      simp only [hev.memory]

theorem access_cases (hpos : 0 < o.cachesize) (h : Sound o s) (addrIndex : ℕ) (future : List ℕ)
    (n : ℕ) :
    access o addrIndex future n s = .error .noDraw ∨
      ∃ s', access o addrIndex future n s = .ok s' ∧ Sound o s' ∧ Access o future n s s' := by
  by_cases hn : n ∈ s.memory
  · exact Or.inr (access_hit h hn)
  · by_cases hfull : s.count = o.cachesize
    · exact access_evict hpos h hn hfull
    · exact Or.inr (access_room h hn hfull)

inductive Requests (o : Options) : State → List ℕ → State → Prop where
  | nil (s : State) : Requests o s [] s
  | cons {s s₁ s₂ : State} {n : ℕ} {future : List ℕ} : Sound o s → Access o future n s s₁ →
      Requests o s₁ future s₂ → Requests o s (n :: future) s₂

theorem accesses_cases (hpos : 0 < o.cachesize) (h : Sound o s) (addrIndex : ℕ) (l : List ℕ) :
    accesses o addrIndex s l = .error .noDraw ∨
      ∃ s', accesses o addrIndex s l = .ok s' ∧ Sound o s' ∧ Requests o s l s' := by
  induction l generalizing s addrIndex with
  | nil => exact Or.inr ⟨s, rfl, h, .nil s⟩
  | cons n future ih =>
    unfold accesses
    obtain heq | ⟨s₁, heq, hsound, hacc⟩ := access_cases hpos h addrIndex future n
    · rw [heq]
      exact Or.inl rfl
    · rw [heq]
      obtain hrest | ⟨s', hrest, hsound', hreq⟩ := ih hsound (addrIndex + 1)
      · exact Or.inl hrest
      · exact Or.inr ⟨s', hrest, hsound', .cons h hacc hreq⟩

theorem sound_init {draws : List ℕ} (hdraws : ∀ d ∈ draws, d < o.cachesize) :
    Sound o (State.init draws) :=
  ⟨List.nodup_nil, rfl, (Nat.min_zero _).symm, fun _ hp => absurd hp List.not_mem_nil, hdraws⟩

theorem run_cases (hpos : 0 < o.cachesize) (draws : List ℕ)
    (hdraws : ∀ d ∈ draws, d < o.cachesize) (addrList : List ℕ) :
    run o draws addrList = .error .noDraw ∨
      ∃ s', run o draws addrList = .ok s' ∧ Sound o s' ∧
        Requests o (State.init draws) addrList s' :=
  accesses_cases hpos (sound_init hdraws) 0 addrList

theorem Access.total (h : Access o future n s s') :
    s'.hits + s'.miss = s.hits + s.miss + 1 := by
  cases h <;> omega

theorem Requests.total {l : List ℕ} (h : Requests o s l s') :
    s'.hits + s'.miss = s.hits + s.miss + l.length := by
  induction h with
  | nil => rfl
  | cons _ hacc _ ih =>
    have hone := hacc.total
    rw [List.length_cons]
    omega

theorem mem_toFinset_append {memory : List ℕ} :
    (memory ++ [n]).toFinset = insert n memory.toFinset := by
  ext p
  simp

theorem toFinset_erase {memory : List ℕ} {v : ℕ} (h : memory.Nodup) :
    (memory.erase v).toFinset = memory.toFinset.erase v := by
  ext p
  simp [h.mem_erase_iff]

theorem Access.hit_toFinset (hn : n ∈ s.memory)
    (hmemory : s'.memory = (if o.policy = .lru ∨ o.policy = .mru then s.memory.erase n ++ [n]
      else s.memory)) : s'.memory.toFinset = s.memory.toFinset := by
  rw [hmemory]
  split
  · exact List.toFinset_eq_of_perm _ _ (perm_erase_append hn)
  · rfl

theorem Requests.serves {l : List ℕ} (h : Requests o s l s') :
    ∃ m, s'.miss = s.miss + m ∧ Serves o.cachesize s.memory.toFinset l m := by
  induction h with
  | nil s => exact ⟨0, rfl, .nil _⟩
  | @cons s s₁ s₂ n future hsound hacc _ ih =>
    obtain ⟨m, hmiss, hserves⟩ := ih
    cases hacc with
    | hit hn _ hsame hmemory =>
      refine ⟨m, by rw [hmiss, hsame], .hit (List.mem_toFinset.mpr hn) ?_ hserves⟩
      rw [Access.hit_toFinset hn hmemory]
    | room hn _ hone hroom hmemory =>
      rw [hmemory, mem_toFinset_append] at hserves
      refine ⟨m + 1, by omega, .miss (fun hmem => hn (List.mem_toFinset.mp hmem))
        (Finset.Subset.refl _) (Finset.mem_insert_self _ _) ?_ hserves⟩
      have hcard := Finset.card_insert_le n s.memory.toFinset
      have hlist := List.toFinset_card_le s.memory
      omega
    | evict v hn _ hone hfull hv hmemory _ _ =>
      rw [hmemory, mem_toFinset_append, toFinset_erase hsound.nodup] at hserves
      refine ⟨m + 1, by omega, .miss (fun hmem => hn (List.mem_toFinset.mp hmem))
        (Finset.insert_subset_insert n (Finset.erase_subset v _)) (Finset.mem_insert_self _ _) ?_
        hserves⟩
      have hcard := Finset.card_insert_le n (s.memory.toFinset.erase v)
      have hlt := Finset.card_erase_lt_of_mem (List.mem_toFinset.mpr hv)
      have hlist := List.toFinset_card_le s.memory
      omega

theorem Requests.furthest {l : List ℕ} (h : Requests o s l s') (hopt : o.policy = .opt) :
    ∃ m, s'.miss = s.miss + m ∧ Furthest o.cachesize s.memory.toFinset l m := by
  induction h with
  | nil s => exact ⟨0, rfl, .nil _⟩
  | @cons s s₁ s₂ n future hsound hacc _ ih =>
    obtain ⟨m, hmiss, hfurthest⟩ := ih
    have hcard := List.toFinset_card_of_nodup hsound.nodup
    cases hacc with
    | hit hn _ hsame hmemory =>
      rw [Access.hit_toFinset hn hmemory] at hfurthest
      exact ⟨m, by rw [hmiss, hsame], .hit (List.mem_toFinset.mpr hn) hfurthest⟩
    | room hn _ hone hroom hmemory =>
      rw [hmemory, mem_toFinset_append] at hfurthest
      exact ⟨m + 1, by omega, .room (fun hmem => hn (List.mem_toFinset.mp hmem)) (by omega)
        hfurthest⟩
    | evict v hn _ hone hfull hv hmemory hlast _ =>
      rw [hmemory, mem_toFinset_append, toFinset_erase hsound.nodup] at hfurthest
      exact ⟨m + 1, by omega, .evict (fun hmem => hn (List.mem_toFinset.mp hmem)) (by omega)
        (List.mem_toFinset.mpr hv) (fun p hp => hlast hopt p (List.mem_toFinset.mp hp)) hfurthest⟩

theorem pop_map_ne_noDraw (memory : List ℕ) (i : ℤ) (f : ℕ × List ℕ → ℕ × State) :
    (pop memory i).map f ≠ .error .noDraw := by
  unfold pop
  dsimp only
  generalize (if i < 0 then i + memory.length else i) = j
  split
  · simp [Except.map]
  · split <;> simp [Except.map]

theorem replace_ne_noDraw (hrand : o.policy ≠ .rand) (hclock : o.policy ≠ .clock)
    (addrIndex : ℕ) (future : List ℕ) (s : State) :
    replace o addrIndex future s ≠ .error .noDraw := by
  unfold replace
  split
  case h_4 hp => exact absurd hp hrand
  case h_5 hp => exact absurd hp hclock
  all_goals exact pop_map_ne_noDraw _ _ _

theorem access_ne_noDraw (hrand : o.policy ≠ .rand) (hclock : o.policy ≠ .clock)
    (addrIndex n : ℕ) (future : List ℕ) (s : State) :
    access o addrIndex future n s ≠ .error .noDraw := by
  have hreplace := replace_ne_noDraw hrand hclock addrIndex future { s with miss := s.miss + 1 }
  unfold access
  split
  · simp
  · dsimp only
    split
    · split
      · rename_i fault hfault
        intro heq
        cases heq
        exact hreplace hfault
      · split <;> simp
    · simp

theorem accesses_ne_noDraw (hrand : o.policy ≠ .rand) (hclock : o.policy ≠ .clock)
    (addrIndex : ℕ) (s : State) (l : List ℕ) : accesses o addrIndex s l ≠ .error .noDraw := by
  induction l generalizing addrIndex s with
  | nil => simp [accesses]
  | cons n future ih =>
    unfold accesses
    split
    · rename_i fault hfault
      intro heq
      cases heq
      exact access_ne_noDraw hrand hclock addrIndex n future s hfault
    · exact ih _ _

-- Which policy it is decides only whether the drawn numbers have to last.
theorem run_fills_memory (o : Options) (hpos : 0 < o.cachesize) (draws addrList : List ℕ)
    (hdraws : ∀ d ∈ draws, d < o.cachesize) :
    run o draws addrList = .error .noDraw ∧ (o.policy = .rand ∨ o.policy = .clock) ∨
      ∃ s, run o draws addrList = .ok s ∧ s.hits + s.miss = addrList.length ∧
        s.memory.Nodup ∧ s.count = s.memory.length ∧ s.memory.length = min o.cachesize s.miss := by
  obtain herr | ⟨s, heq, hsound, hreq⟩ := run_cases hpos draws hdraws addrList
  · refine Or.inl ⟨herr, ?_⟩
    by_contra hpolicy
    obtain ⟨hrand, hclock⟩ := not_or.mp hpolicy
    exact accesses_ne_noDraw hrand hclock 0 _ addrList herr
  · refine Or.inr ⟨s, heq, ?_, hsound.nodup, hsound.count, hsound.filled⟩
    have htotal := hreq.total
    simp only [State.init] at htotal
    omega

theorem run_fills_memory_clock : ∃ s, run ⟨.clock, 3, 2⟩ [0, 1, 2, 0] [0, 1, 2, 3] = .ok s ∧
    s.hits + s.miss = 4 ∧ s.memory.Nodup ∧ s.memory.length = min 3 s.miss := by
  obtain ⟨herr, -⟩ | ⟨s, heq, htotal, hnodup, -, hlength⟩ :=
    run_fills_memory ⟨.clock, 3, 2⟩ (by decide) [0, 1, 2, 0] [0, 1, 2, 3] (by decide)
  · have hmisses : misses ⟨.clock, 3, 2⟩ [0, 1, 2, 0] [0, 1, 2, 3] = some 4 := by decide
    rw [misses, herr] at hmisses
    cases hmisses
  · exact ⟨s, heq, htotal, hnodup, hlength⟩

theorem opt_misses_least (o o' : Options) (hopt : o.policy = .opt) (hpos : 0 < o'.cachesize)
    (hle : o'.cachesize ≤ o.cachesize) (addrList draws : List ℕ)
    (hdraws : ∀ d ∈ draws, d < o'.cachesize) :
    ∃ s, run o [] addrList = .ok s ∧ ∀ s', run o' draws addrList = .ok s' → s.miss ≤ s'.miss := by
  have hbig : 0 < o.cachesize := by omega
  have hnone : ∀ d ∈ ([] : List ℕ), d < o.cachesize := fun _ hd => absurd hd List.not_mem_nil
  obtain herr | ⟨s, heq, hsound, hreq⟩ := run_cases hbig [] hnone addrList
  · exact absurd herr (accesses_ne_noDraw (by simp [hopt]) (by simp [hopt]) 0 _ addrList)
  · refine ⟨s, heq, fun s' hs' => ?_⟩
    obtain herr | ⟨s₁, heq', -, hreq'⟩ := run_cases hpos draws hdraws addrList
    · rw [hs'] at herr
      cases herr
    · rw [hs'] at heq'
      cases heq'
      obtain ⟨m, hm, hfurthest⟩ := hreq.furthest hopt
      obtain ⟨m', hm', hserves⟩ := hreq'.serves
      have hmin := hfurthest.le hserves hle
      simp only [State.init] at hm hm'
      omega

theorem opt_misses_least_clock : ∃ s, run ⟨.opt, 3, 2⟩ [] [0, 1, 2, 3, 0, 4] = .ok s ∧
    ∀ s', run ⟨.clock, 2, 2⟩ [0, 1, 0, 1, 1, 0, 0, 1] [0, 1, 2, 3, 0, 4] = .ok s' →
      s.miss ≤ s'.miss :=
  opt_misses_least ⟨.opt, 3, 2⟩ ⟨.clock, 2, 2⟩ rfl (by decide) (by decide) [0, 1, 2, 3, 0, 4]
    [0, 1, 0, 1, 1, 0, 0, 1] (by decide)

end PagingPolicy
