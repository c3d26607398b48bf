import HTWGArchive.Bugs.VectorProgress

namespace VectorAdd

open LockOrder

variable {T : Type} {loops k : ℕ} {args : T → Args} {t u : T} {m : Mutex} {v : Vectors}
  {s : State T Local Mutex Vectors} {rest : List Instr}

-- Workers that each need another one's first vector second, and no two of them the same first.
def Cycle (args : T → Args) (D : Finset T) : Prop :=
  D.Nonempty ∧ Set.InjOn (fun t => (args t).dst) D ∧
    ∀ t ∈ D, ∃ u ∈ D, (args u).dst = (args t).src

theorem vectorDeadlock_waits (args : Args) : vectorDeadlock.Waits args :=
  ⟨by simp [vectorDeadlock], by simp [vectorDeadlock], by simp [vectorDeadlock]⟩

theorem vectorDeadlock_waiting {a : Args}
    (h : .lock m :: rest <:+ vectorDeadlock.acquire a.dst a.src) :
    (m = .vector a.dst ∧ rest = [.lock (.vector a.src)]) ∨ m = .vector a.src ∧ rest = [] := by
  simp only [vectorDeadlock, List.suffix_cons_iff, List.suffix_nil] at h
  rcases h with h | h | h
  · cases h
    exact Or.inl ⟨rfl, rfl⟩
  · cases h
    exact Or.inr ⟨rfl, rfl⟩
  · cases h

-- Whoever is waited for while it waits itself has its first vector and waits for its second.
theorem waited_for (hne : (args u).dst ≠ (args u).src)
    (hd : Disciplined (fun t => Local.Ok vectorDeadlock loops (args t))
      (holds vectorDeadlock args) s)
    (hsteady : ∀ t, Local.Steady vectorDeadlock loops (args t) (s.locals t)) {n : Mutex}
    (howner : s.owner m = some u)
    (hwaits : Waits (fun t => worker vectorDeadlock loops (args t)) s u n) :
    m = .vector (args u).dst ∧ n = .vector (args u).src := by
  obtain ⟨i, rest, hl, hsuffix⟩ := waits_at (hsteady u) hwaits
  have hholds : holds vectorDeadlock args u (s.locals u) m := (hd.owned m u).mp howner
  rw [hl] at hholds
  rcases vectorDeadlock_waiting hsuffix with ⟨rfl, rfl⟩ | ⟨rfl, rfl⟩
  · exact absurd hholds ((vectorDeadlock_sound hne).empty m)
  · obtain ⟨hrelease, hsrc⟩ := hholds
    have hor : m = .vector (args u).dst ∨ m = .vector (args u).src := by
      simpa [vectorDeadlock, holding] using hrelease
    exact ⟨hor.resolve_right hsrc, rfl⟩

theorem loops_pos (hsteady : ∀ t, Local.Steady vectorDeadlock loops (args t) (s.locals t))
    (h : Waits (fun t => worker vectorDeadlock loops (args t)) s t m) : 0 < loops := by
  obtain ⟨i, rest, hl, -⟩ := waits_at (hsteady t) h
  have ht : Local.Steady vectorDeadlock loops (args t) (s.locals t) := hsteady t
  rw [hl] at ht
  exact Nat.zero_lt_of_lt ht.1

theorem waits_unique {n : Mutex}
    (hm : Waits (fun t => worker vectorDeadlock loops (args t)) s t m)
    (hn : Waits (fun t => worker vectorDeadlock loops (args t)) s t n) : m = n := by
  obtain ⟨l, hl⟩ := hm
  obtain ⟨l', hl'⟩ := hn
  cases hl.symm.trans hl'
  rfl

theorem cycle_of_circularWait [Fintype T] (hne : ∀ t, (args t).dst ≠ (args t).src)
    (hd : Disciplined (fun t => Local.Ok vectorDeadlock loops (args t))
      (holds vectorDeadlock args) s)
    (hsteady : ∀ t, Local.Steady vectorDeadlock loops (args t) (s.locals t))
    (h : CircularWait (fun t => worker vectorDeadlock loops (args t)) s) :
    0 < loops ∧ ∃ D : Finset T, Cycle args D := by
  classical
  obtain ⟨D, ⟨t₀, ht₀⟩, hD⟩ := h
  have hnext : ∀ t ∈ D, ∃ u ∈ D, s.owner (.vector (args u).dst) = some u ∧
      Waits (fun t => worker vectorDeadlock loops (args t)) s t (.vector (args u).dst) ∧
      Waits (fun t => worker vectorDeadlock loops (args t)) s u (.vector (args u).src) := by
    intro t ht
    obtain ⟨m, hwaits, u, hu, howner⟩ := hD t ht
    obtain ⟨n, hwaits', -⟩ := hD u hu
    obtain ⟨hm, hn⟩ := waited_for (hne u) hd hsteady howner hwaits'
    exact ⟨u, hu, hm ▸ howner, hm ▸ hwaits, hn ▸ hwaits'⟩
  obtain ⟨u₀, hu₀, howner₀, hwaits₀, hsecond₀⟩ := hnext t₀ ht₀
  -- the ones among them that have their first vector
  refine ⟨loops_pos hsteady hwaits₀, Finset.univ.filter (fun t => t ∈ D ∧
    s.owner (.vector (args t).dst) = some t ∧
      Waits (fun t => worker vectorDeadlock loops (args t)) s t (.vector (args t).src)), ?_⟩
  refine ⟨⟨u₀, Finset.mem_filter.mpr ⟨Finset.mem_univ _, hu₀, howner₀, hsecond₀⟩⟩, ?_, ?_⟩
  · intro t ht u hu htu
    have hownert := (Finset.mem_filter.mp ht).2.2.1
    have howneru := (Finset.mem_filter.mp hu).2.2.1
    rw [← show (args t).dst = (args u).dst from htu, hownert] at howneru
    exact Option.some.inj howneru
  · intro t ht
    obtain ⟨-, ht, -, hsecond⟩ := Finset.mem_filter.mp ht
    obtain ⟨u, hu, howner, hwaits, hsecond'⟩ := hnext t ht
    refine ⟨u, Finset.mem_filter.mpr ⟨Finset.mem_univ _, hu, howner, hsecond'⟩, ?_⟩
    exact Mutex.vector.inj (waits_unique hwaits hsecond)

-- These workers have locked their first vectors and nobody else has moved.
structure FirstTaken (args : T → Args) (D : Finset T) (s : State T Local Mutex Vectors) :
    Prop where
  taken : ∀ t ∈ D, s.locals t = .acquiring 0 [.lock (.vector (args t).src)] ∧
    s.owner (.vector (args t).dst) = some t
  waiting : ∀ t ∉ D, s.locals t = .next 0
  free : ∀ m, (∀ t ∈ D, m ≠ .vector (args t).dst) → s.owner m = none

variable [DecidableEq T]

theorem FirstTaken.insert {D : Finset T} (h : FirstTaken args D s) (hloops : 0 < loops)
    (ht : t ∉ D) (hinj : ∀ u ∈ D, (args t).dst ≠ (args u).dst)
    (hrun : Run (fun t => worker vectorDeadlock loops (args t)) (start v) k s) :
    ∃ k' s', Run (fun t => worker vectorDeadlock loops (args t)) (start v) k' s' ∧
      FirstTaken args (insert t D) s' := by
  have hnext : worker vectorDeadlock loops (args t) (s.locals t) s.shared = .work
      (.acquiring 0 [.lock (.vector (args t).dst), .lock (.vector (args t).src)]) s.shared := by
    rw [h.waiting t ht]
    exact worker_next hloops
  have hrun' := hrun.step (.work hnext)
  have hlock : worker vectorDeadlock loops (args t) ((s.move t (.acquiring 0
      [.lock (.vector (args t).dst), .lock (.vector (args t).src)]) s.owner s.shared).locals t)
      s.shared = .lock (.vector (args t).dst)
        (.acquiring 0 [.lock (.vector (args t).src)]) := by
    rw [State.move_self]
    rfl
  have hfree : s.owner (.vector (args t).dst) = none :=
    h.free _ (fun u hu hc => hinj u hu (Mutex.vector.inj hc))
  refine ⟨_, _, hrun'.step (.lock hlock hfree), ?_, ?_, ?_⟩
  · intro u hu
    change _ ∧ Function.update s.owner (.vector (args t).dst) (some t) _ = some u
    rcases eq_or_ne u t with rfl | hne
    · rw [State.move_self, Function.update_self]
      exact ⟨rfl, rfl⟩
    · have hu : u ∈ D := (Finset.mem_insert.mp hu).resolve_left hne
      have hdst : Mutex.vector (args u).dst ≠ .vector (args t).dst :=
        fun hc => hinj u hu (Mutex.vector.inj hc).symm
      rw [State.move_of_ne _ hne, State.move_of_ne _ hne, Function.update_of_ne hdst]
      exact h.taken u hu
  · intro u hu
    have hne : u ≠ t := fun hc => hu (hc ▸ Finset.mem_insert_self t D)
    rw [State.move_of_ne _ hne, State.move_of_ne _ hne]
    exact h.waiting u (fun hc => hu (Finset.mem_insert_of_mem hc))
  · intro m hm
    change Function.update s.owner (.vector (args t).dst) (some t) m = none
    rw [Function.update_of_ne (hm t (Finset.mem_insert_self t D))]
    exact h.free m (fun u hu => hm u (Finset.mem_insert_of_mem hu))

theorem exists_firstTaken (args : T → Args) (v : Vectors) (hloops : 0 < loops) (D : Finset T)
    (hinj : Set.InjOn (fun t => (args t).dst) D) :
    ∃ k s, Run (fun t => worker vectorDeadlock loops (args t)) (start v) k s ∧
      FirstTaken args D s := by
  induction D using Finset.induction_on with
  | empty =>
    refine ⟨0, start v, .start, ?_, fun t _ => rfl, fun m _ => rfl⟩
    intro t ht
    exact absurd ht (Finset.notMem_empty t)
  | insert t D ht ih =>
    obtain ⟨k, s, hrun, hs⟩ := ih (hinj.mono (Finset.subset_insert t D))
    refine hs.insert hloops ht (fun u hu hdst => ?_) hrun
    have htu : t = u := hinj (Finset.mem_insert_self t D) (Finset.mem_insert_of_mem hu) hdst
    exact ht (htu ▸ hu)

theorem circularWait_of_cycle {D : Finset T} (hloops : 0 < loops) (hD : Cycle args D) :
    ∃ k s, Run (fun t => worker vectorDeadlock loops (args t)) (start v) k s ∧
      CircularWait (fun t => worker vectorDeadlock loops (args t)) s := by
  obtain ⟨hnonempty, hinj, hnext⟩ := hD
  obtain ⟨k, s, hrun, hs⟩ := exists_firstTaken args v hloops D hinj
  refine ⟨k, s, hrun, D, hnonempty, fun t ht => ?_⟩
  obtain ⟨u, hu, hdst⟩ := hnext t ht
  refine ⟨.vector (args t).src, ⟨.acquiring 0 [], ?_⟩, u, hu, hdst ▸ (hs.taken u hu).2⟩
  rw [(hs.taken t ht).1]
  rfl

variable [Fintype T]

theorem cycle_of_run (hne : ∀ t, (args t).dst ≠ (args t).src)
    (hrun : Run (fun t => worker vectorDeadlock loops (args t)) (start v) k s)
    (hcircular : CircularWait (fun t => worker vectorDeadlock loops (args t)) s) :
    0 < loops ∧ ∃ D : Finset T, Cycle args D := by
  have hsteady := (hrun.spends steady_start (spends fun t => vectorDeadlock_waits (args t))).1
  have hd := disciplined (fun t => vectorDeadlock_sound (hne t)) hrun
  exact cycle_of_circularWait hne hd hsteady hcircular

-- The workers can end up waiting for each other just when some of them are in a cycle.
theorem deadlock_iff_cycle (hne : ∀ t, (args t).dst ≠ (args t).src) :
    (∃ k s, Run (fun t => worker vectorDeadlock loops (args t)) (start v) k s ∧
      CircularWait (fun t => worker vectorDeadlock loops (args t)) s) ↔
      0 < loops ∧ ∃ D : Finset T, Cycle args D := by
  constructor
  · rintro ⟨k, s, hrun, hcircular⟩
    exact cycle_of_run hne hrun hcircular
  · rintro ⟨hloops, D, hD⟩
    exact circularWait_of_cycle hloops hD

def ringArgs (t : Fin 3) : Args :=
  { vector_add_order := 0, vector_0 := t, vector_1 := (t + 1) % 3 }

theorem deadlock_iff_cycle_ring :
    ∃ k s, Run (fun t => worker vectorDeadlock 1 (ringArgs t)) (start mainVectors) k s ∧
      CircularWait (fun t => worker vectorDeadlock 1 (ringArgs t)) s := by
  refine (deadlock_iff_cycle (by decide)).mpr ⟨Nat.zero_lt_one, Finset.univ, ?_, ?_, ?_⟩
  · decide
  · intro t _ u _ htu
    exact Fin.ext htu
  · decide

theorem mainArgs_ne (cause_deadlock enable_parallelism : Bool) (i : ℕ) :
    (mainArgs cause_deadlock enable_parallelism i).dst ≠
      (mainArgs cause_deadlock enable_parallelism i).src := by
  simp only [Args.dst, Args.src, mainArgs]
  split_ifs <;> omega

-- One worker's first vector is another's second one only when the odd ones go the other way round
-- with the same two vectors.
theorem mainArgs_dst_eq_src {cause_deadlock enable_parallelism : Bool} {i j : ℕ}
    (h : (mainArgs cause_deadlock enable_parallelism i).dst =
      (mainArgs cause_deadlock enable_parallelism j).src) :
    cause_deadlock = true ∧ enable_parallelism = false ∧ i % 2 ≠ j % 2 := by
  simp only [Args.dst, Args.src, mainArgs] at h
  cases cause_deadlock with
  | false =>
    simp at h
    split_ifs at h
    omega
  | true =>
    refine ⟨rfl, ?_⟩
    cases enable_parallelism with
    | false =>
      refine ⟨rfl, fun hij => ?_⟩
      simp [hij] at h
      split_ifs at h
    | true =>
      simp at h
      split_ifs at h <;> omega

end VectorAdd
