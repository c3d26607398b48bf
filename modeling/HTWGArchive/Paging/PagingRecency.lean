import HTWGArchive.Library.Recency
import HTWGArchive.Paging.PagingOptimum

namespace PagingPolicy

open Recency

variable {o o' : Options} {n : ℕ} {future seen : List ℕ} {s s' t t' : State}

theorem Access.recent (h : Access o future n s s') (hlru : o.policy = .lru)
    (hrecent : Recent o.cachesize seen s.memory) :
    Recent o.cachesize (seen ++ [n]) s'.memory := by
  cases h with
  | hit hn _ _ hmemory =>
    rw [if_pos (Or.inl hlru)] at hmemory
    rw [hmemory]
    exact hrecent.hit hn
  | room hn _ _ hroom hmemory =>
    rw [hmemory]
    exact hrecent.room hn hroom
  | evict v hn _ _ hfull _ hmemory _ hoff =>
    rw [hmemory]
    exact hrecent.evict hn hfull (hoff hlru)

theorem Requests.recent {l : List ℕ} (h : Requests o s l s') (hlru : o.policy = .lru)
    (hrecent : Recent o.cachesize seen s.memory) :
    Recent o.cachesize (seen ++ l) s'.memory := by
  induction h generalizing seen with
  | nil => simpa using hrecent
  | cons _ hacc _ ih =>
    have hone := ih (hacc.recent hlru hrecent)
    rwa [List.append_assoc] at hone

theorem Access.miss_eq (h : Access o future n s s') :
    s'.miss = s.miss + if n ∈ s.memory then 0 else 1 := by
  cases h with
  | hit hn _ hmiss _ => rw [hmiss, if_pos hn, Nat.add_zero]
  | room hn _ hmiss _ _ => rw [hmiss, if_neg hn]
  | evict _ hn _ hmiss _ _ _ _ _ => rw [hmiss, if_neg hn]

theorem Requests.miss_le {l : List ℕ} (h : Requests o s l s') (hlru : o.policy = .lru)
    (h' : Requests o' t l t') (hlru' : o'.policy = .lru) (hle : o.cachesize ≤ o'.cachesize)
    (hrecent : Recent o.cachesize seen s.memory) (hrecent' : Recent o'.cachesize seen t.memory) :
    t'.miss + s.miss ≤ s'.miss + t.miss := by
  induction h generalizing t seen with
  | nil =>
    cases h'
    omega
  | cons _ hacc _ ih =>
    cases h' with
    | cons _ hacc' hrest' =>
      have hlater := ih hrest' (hacc.recent hlru hrecent) (hacc'.recent hlru' hrecent')
      have hmiss := hacc.miss_eq
      have hmiss' := hacc'.miss_eq
      have hsub := (hrecent.suffix_of_le hrecent' hle).subset
      split at hmiss'
      · omega
      · rename_i habsent
        rw [if_neg (fun hmem => habsent (hsub hmem))] at hmiss
        omega

theorem run_lru (hlru : o.policy = .lru) (hpos : 0 < o.cachesize) (addrList : List ℕ) :
    ∃ s, run o [] addrList = .ok s ∧ Requests o (State.init []) addrList s := by
  have hnone : ∀ d ∈ ([] : List ℕ), d < o.cachesize := fun _ hd => absurd hd List.not_mem_nil
  obtain herr | ⟨s, heq, -, hreq⟩ := run_cases hpos [] hnone addrList
  · exact absurd herr (accesses_ne_noDraw (by simp [hlru]) (by simp [hlru]) 0 _ addrList)
  · exact ⟨s, heq, hreq⟩

theorem lru_holds_the_most_recent (o : Options) (hlru : o.policy = .lru) (hpos : 0 < o.cachesize)
    (addrList : List ℕ) :
    ∃ s, run o [] addrList = .ok s ∧ s.memory <:+ addrList.dedup ∧
      s.memory.length = min o.cachesize addrList.dedup.length := by
  obtain ⟨s, heq, hreq⟩ := run_lru hlru hpos addrList
  have hrecent := hreq.recent hlru (Recent.nil o.cachesize)
  exact ⟨s, heq, hrecent.suffix, hrecent.length⟩

theorem lru_holds_the_most_recent_three : ∃ s,
    run ⟨.lru, 3, 2⟩ [] [0, 1, 2, 0, 3] = .ok s ∧ s.memory <:+ [1, 2, 0, 3] ∧
      s.memory.length = 3 :=
  lru_holds_the_most_recent ⟨.lru, 3, 2⟩ rfl (by decide) [0, 1, 2, 0, 3]

-- Unlike with the first-in policy, a larger cache never misses more often.
theorem lru_misses_antitone (o o' : Options) (hlru : o.policy = .lru) (hlru' : o'.policy = .lru)
    (hpos : 0 < o.cachesize) (hle : o.cachesize ≤ o'.cachesize) (addrList : List ℕ) :
    ∃ s s', run o [] addrList = .ok s ∧ run o' [] addrList = .ok s' ∧ s'.miss ≤ s.miss ∧
      s.memory <:+ s'.memory := by
  obtain ⟨s, heq, hreq⟩ := run_lru hlru hpos addrList
  obtain ⟨s', heq', hreq'⟩ := run_lru hlru' (hpos.trans_le hle) addrList
  have hmiss := hreq.miss_le hlru hreq' hlru' hle (Recent.nil o.cachesize)
    (Recent.nil o'.cachesize)
  have hrecent := hreq.recent hlru (Recent.nil o.cachesize)
  have hrecent' := hreq'.recent hlru' (Recent.nil o'.cachesize)
  exact ⟨s, s', heq, heq', hmiss, hrecent.suffix_of_le hrecent' hle⟩

theorem lru_misses_antitone_three_four : ∃ s s',
    run ⟨.lru, 3, 2⟩ [] [1, 2, 3, 4, 1, 2, 5] = .ok s ∧
      run ⟨.lru, 4, 2⟩ [] [1, 2, 3, 4, 1, 2, 5] = .ok s' ∧ s'.miss ≤ s.miss ∧
        s.memory <:+ s'.memory :=
  lru_misses_antitone ⟨.lru, 3, 2⟩ ⟨.lru, 4, 2⟩ rfl rfl (by decide) (by decide)
    [1, 2, 3, 4, 1, 2, 5]

end PagingPolicy
