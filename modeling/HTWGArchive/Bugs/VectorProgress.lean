import HTWGArchive.Bugs.VectorLocks

namespace VectorAdd

open LockOrder

variable {T : Type} {version : Version} {loops k : ℕ} {args : T → Args} {t : T}
  {m : Mutex} {l : Local} {v : Vectors} {s : State T Local Mutex Vectors} {rest : List Instr}

-- A version that waits for its locks instead of trying them.
structure Version.Waits (version : Version) (args : Args) : Prop where
  acquire : (version.acquire args.dst args.src).length ≤ 4
  release : (version.release args.dst args.src).length ≤ 2
  locks : ∀ m undo, .tryLock m undo ∉ version.acquire args.dst args.src

theorem vectorGlobalOrder_waits (args : Args) : vectorGlobalOrder.Waits args := by
  refine ⟨?_, ?_, ?_⟩
  · simp only [vectorGlobalOrder]
    split_ifs <;> simp
  · simp only [vectorGlobalOrder]
    split_ifs <;> simp
  · intro m undo
    simp only [vectorGlobalOrder]
    split_ifs <;> simp

theorem vectorAvoidHoldAndWait_waits (args : Args) : vectorAvoidHoldAndWait.Waits args :=
  ⟨by simp [vectorAvoidHoldAndWait], by simp [vectorAvoidHoldAndWait],
    by simp [vectorAvoidHoldAndWait]⟩

-- Where a worker of such a version is in the version's own lists.
def Local.Steady (version : Version) (loops : ℕ) (args : Args) : Local → Prop
  | .next i => i ≤ loops
  | .acquiring i rest => i < loops ∧ rest <:+ version.acquire args.dst args.src
  | .undoing _ _ => False
  | .adding i _ => i < loops
  | .storing i j _ => i < loops ∧ j < VECTOR_SIZE
  | .releasing i rest => i < loops ∧ rest <:+ version.release args.dst args.src
  | .returned => True

-- The steps of one call of `vector_add`, at most.
def callSteps : ℕ := 210

-- What a worker has left, when `left` further calls follow.
def Local.cost (loops : ℕ) : Local → ℕ
  | .next i => (loops - i) * callSteps + 1
  | .acquiring i rest => (loops - (i + 1)) * callSteps + rest.length + 206
  | .undoing _ _ => 0
  | .adding i j => (loops - (i + 1)) * callSteps + 2 * (VECTOR_SIZE - j) + 5
  | .storing i j _ => (loops - (i + 1)) * callSteps + 2 * (VECTOR_SIZE - j) + 4
  | .releasing i rest => (loops - (i + 1)) * callSteps + rest.length + 2
  | .returned => 0

theorem spends (h : ∀ t, version.Waits (args t)) :
    Spends (fun t => Local.Steady version loops (args t)) (Local.cost loops)
      (fun t => worker version loops (args t)) := by
  intro t l data hok
  cases l with
  | next i =>
    beta_reduce
    by_cases hi : i < loops
    · rw [worker_next hi]
      refine ⟨⟨hi, List.suffix_refl _⟩, ?_⟩
      have hacquire := (h t).acquire
      have hleft : loops - i = loops - (i + 1) + 1 := by omega
      simp only [Local.cost, hleft, Nat.add_mul, callSteps]
      omega
    · rw [worker_last hi]
      exact ⟨trivial, Nat.succ_pos _⟩
  | acquiring i rest =>
    obtain ⟨hi, hrest⟩ := hok
    cases rest with
    | nil =>
      refine ⟨hi, ?_⟩
      simp only [Local.cost, VECTOR_SIZE, List.length_nil]
      omega
    | cons instr rest =>
      have hless : (Local.acquiring i rest).cost loops <
          (Local.acquiring i (instr :: rest)).cost loops := by
        simp only [Local.cost, List.length_cons]
        omega
      have htail : rest <:+ version.acquire (args t).dst (args t).src :=
        (List.suffix_cons instr rest).trans hrest
      cases instr with
      | lock m => exact ⟨⟨hi, htail⟩, hless⟩
      | tryLock m undo => exact absurd (hrest.subset List.mem_cons_self) ((h t).locks m undo)
      | unlock m => exact ⟨⟨hi, htail⟩, hless⟩
  | undoing i rest => exact absurd hok id
  | adding i j =>
    beta_reduce
    by_cases hj : j < VECTOR_SIZE
    · rw [worker_adding hj]
      refine ⟨⟨hok, hj⟩, ?_⟩
      simp only [Local.cost]
      omega
    · rw [worker_added hj]
      refine ⟨⟨hok, List.suffix_refl _⟩, ?_⟩
      have hrelease := (h t).release
      simp only [Local.cost]
      omega
  | storing i j sum =>
    refine ⟨hok.1, ?_⟩
    have hj := hok.2
    simp only [Local.cost]
    omega
  | releasing i rest =>
    obtain ⟨hi, hrest⟩ := hok
    cases rest with
    | nil =>
      refine ⟨hi, ?_⟩
      simp only [Local.cost, List.length_nil]
      omega
    | cons m rest =>
      refine ⟨⟨hi, (List.suffix_cons m rest).trans hrest⟩, ?_⟩
      simp only [Local.cost, List.length_cons]
      omega
  | returned => trivial

-- Where a worker may have to wait, and where it is done.
theorem worker_waits (a : Args) (l : Local) (v : Vectors) :
    match worker version loops a l v with
    | .lock m _ => ∃ i rest, l = .acquiring i (.lock m :: rest)
    | .ended => l = .returned
    | _ => True := by
  cases l with
  | next i =>
    by_cases hi : i < loops
    · rw [worker_next hi]
      trivial
    · rw [worker_last hi]
      trivial
  | acquiring i rest =>
    cases rest with
    | nil => exact trivial
    | cons instr rest =>
      cases instr with
      | lock m => exact ⟨i, rest, rfl⟩
      | tryLock m undo => exact trivial
      | unlock m => exact trivial
  | undoing i rest => cases rest <;> exact trivial
  | adding i j =>
    by_cases hj : j < VECTOR_SIZE
    · rw [worker_adding hj]
      trivial
    · rw [worker_added hj]
      trivial
  | storing i j sum => exact trivial
  | releasing i rest => cases rest <;> exact trivial
  | returned => exact rfl

theorem waits_at (hsteady : Local.Steady version loops (args t) (s.locals t))
    (h : Waits (fun t => worker version loops (args t)) s t m) :
    ∃ i rest, s.locals t = .acquiring i (.lock m :: rest) ∧
      .lock m :: rest <:+ version.acquire (args t).dst (args t).src := by
  obtain ⟨n, hact : worker version loops (args t) (s.locals t) s.shared = _⟩ := h
  have hwaits := @worker_waits version loops (args t) (s.locals t) s.shared
  rw [hact] at hwaits
  obtain ⟨i, rest, hl⟩ := hwaits
  rw [hl] at hsteady
  exact ⟨i, rest, hl, hsteady.2⟩

-- The address of a vector.
def Mutex.address : Mutex → ℕ
  | .global => 0
  | .vector i => i

theorem two_ordered {x y : ℕ} {release : List Mutex} {k : Mutex} (hlt : x < y)
    (hrelease : ∀ m ∈ release, m = .vector x ∨ m = .vector y)
    (h : .lock m :: rest <:+ [.lock (.vector x), .lock (.vector y)])
    (hk : holding release (.lock m :: rest) k) : k.address < m.address := by
  simp only [List.suffix_cons_iff, List.suffix_nil] at h
  rcases h with h | h | h
  · cases h
    exact absurd hk (holding_two hrelease k)
  · cases h
    have hx : k = .vector x := (hrelease k hk.1).resolve_right hk.2
    rw [hx]
    exact hlt
  · cases h

theorem vectorGlobalOrder_ordered {a : Args} {k : Mutex}
    (h : .lock m :: rest <:+ vectorGlobalOrder.acquire a.dst a.src)
    (hk : holding (vectorGlobalOrder.release a.dst a.src) (.lock m :: rest) k) :
    k.address < m.address := by
  rcases Nat.lt_trichotomy a.dst a.src with hlt | heq | hlt
  · have hne : a.dst ≠ a.src := Nat.ne_of_lt hlt
    simp only [vectorGlobalOrder, hlt, if_true] at h
    exact two_ordered hlt (by simp [vectorGlobalOrder, hne, or_comm]) h hk
  · have hirrefl : ¬ a.src < a.src := Nat.lt_irrefl a.src
    simp only [vectorGlobalOrder, heq, hirrefl, if_false, List.suffix_cons_iff,
      List.suffix_nil] at h
    rcases h with h | h
    · cases h
      have hsrc : k = .vector a.src := by simpa [vectorGlobalOrder, heq, holding] using hk.1
      exact absurd hsrc hk.2
    · cases h
  · have hne : a.dst ≠ a.src := Nat.ne_of_gt hlt
    have hnot : ¬ a.dst < a.src := Nat.lt_asymm hlt
    simp only [vectorGlobalOrder, hlt, hnot, if_true, if_false] at h
    exact two_ordered hlt (by simp [vectorGlobalOrder, hne]) h hk

-- Only a worker with the global lock waits for a vector.
theorem vectorAvoidHoldAndWait_waiting {a : Args} (hne : a.dst ≠ a.src)
    (h : .lock m :: rest <:+ vectorAvoidHoldAndWait.acquire a.dst a.src) :
    (m = .global ∧ ∀ k, ¬ holding (vectorAvoidHoldAndWait.release a.dst a.src)
      (.lock m :: rest) k) ∨
    m ≠ .global ∧ holding (vectorAvoidHoldAndWait.release a.dst a.src) (.lock m :: rest)
      .global := by
  simp only [vectorAvoidHoldAndWait, List.suffix_cons_iff, List.suffix_nil] at h
  rcases h with h | h | h | h | h
  · cases h
    exact Or.inl ⟨rfl, (vectorAvoidHoldAndWait_sound hne).empty⟩
  · cases h
    exact Or.inr (by simp [holding])
  · cases h
    exact Or.inr (by simp [holding])
  · cases h
  · cases h

theorem vectorGlobalOrder_not_circularWait [Finite T]
    (hd : Disciplined (fun t => Local.Ok vectorGlobalOrder loops (args t))
      (holds vectorGlobalOrder args) s)
    (hsteady : ∀ t, Local.Steady vectorGlobalOrder loops (args t) (s.locals t)) :
    ¬ CircularWait (fun t => worker vectorGlobalOrder loops (args t)) s := by
  refine hd.not_circularWait Mutex.address ?_
  intro t m n k hact hk
  obtain ⟨i, rest, hl, hsuffix⟩ := waits_at (hsteady t) ⟨n, hact⟩
  rw [hl] at hk
  exact vectorGlobalOrder_ordered hsuffix hk

theorem vectorAvoidHoldAndWait_not_circularWait [Finite T]
    (hne : ∀ t, (args t).dst ≠ (args t).src)
    (hd : Disciplined (fun t => Local.Ok vectorAvoidHoldAndWait loops (args t))
      (holds vectorAvoidHoldAndWait args) s)
    (hsteady : ∀ t, Local.Steady vectorAvoidHoldAndWait loops (args t) (s.locals t)) :
    ¬ CircularWait (fun t => worker vectorAvoidHoldAndWait loops (args t)) s := by
  refine not_circularWait (fun m => if m = .global then 0 else 1) ?_
  intro t m u k ht howner hu
  obtain ⟨i, rest, hl, hsuffix⟩ := waits_at (hsteady t) ht
  obtain ⟨i', rest', hl', hsuffix'⟩ := waits_at (hsteady u) hu
  have hm : holds vectorAvoidHoldAndWait args u (s.locals u) m := (hd.owned m u).mp howner
  rcases vectorAvoidHoldAndWait_waiting (hne u) hsuffix' with ⟨-, hnone⟩ | ⟨hk, hglobal⟩
  · rw [hl'] at hm
    exact absurd hm (hnone m)
  · rcases vectorAvoidHoldAndWait_waiting (hne t) hsuffix with ⟨hm', -⟩ | ⟨-, hglobal'⟩
    · rw [if_pos hm', if_neg hk]
      exact Nat.zero_lt_one
    · -- both have the global lock, so the worker would have the lock it waits for
      have hut : u = t := by
        refine hd.exclusive (m := .global) ?_ ?_
        · rw [hl']
          exact hglobal
        · rw [hl]
          exact hglobal'
      subst hut
      rw [hl] at hm
      exact absurd rfl hm.2

theorem steady_start (t : T) :
    Local.Steady version loops (args t) ((start (T := T) v).locals t) :=
  Nat.zero_le loops

theorem sum_start [Fintype T] (v : Vectors) :
    ∑ t, ((start (T := T) v).locals t).cost loops = Fintype.card T * (loops * callSteps + 1) := by
  simp [start, Local.cost]

-- The versions that wait, for the calls they can be given.
def Version.Finishes (version : Version) (args : T → Args) : Prop :=
  version = vectorGlobalOrder ∨
    version = vectorAvoidHoldAndWait ∧ ∀ t, (args t).dst ≠ (args t).src

theorem Version.Finishes.sound (h : version.Finishes args) (t : T) : version.Sound (args t) := by
  rcases h with rfl | ⟨rfl, hne⟩
  · exact vectorGlobalOrder_sound (args t)
  · exact vectorAvoidHoldAndWait_sound (hne t)

theorem Version.Finishes.waits (h : version.Finishes args) (t : T) : version.Waits (args t) := by
  rcases h with rfl | ⟨rfl, -⟩
  · exact vectorGlobalOrder_waits (args t)
  · exact vectorAvoidHoldAndWait_waits (args t)

section Runs

variable [DecidableEq T] [Fintype T]

theorem Version.Finishes.not_circularWait (h : version.Finishes args)
    (hrun : Run (fun t => worker version loops (args t)) (start v) k s) :
    ¬ CircularWait (fun t => worker version loops (args t)) s := by
  have hd := disciplined h.sound hrun
  have hsteady := (hrun.spends steady_start (spends h.waits)).1
  rcases h with rfl | ⟨rfl, hne⟩
  · exact vectorGlobalOrder_not_circularWait hd hsteady
  · exact vectorAvoidHoldAndWait_not_circularWait hne hd hsteady

theorem Version.Finishes.returned (h : version.Finishes args)
    (hrun : Run (fun t => worker version loops (args t)) (start v) k s)
    (hstuck : Stuck (fun t => worker version loops (args t)) s) (t : T) :
    s.locals t = .returned := by
  have hended := (hstuck.ended_or_circular (disciplined h.sound hrun) (keeps h.sound)).resolve_right
    (h.not_circularWait hrun)
  have hwaits := @worker_waits version loops (args t) (s.locals t) s.shared
  have ht : worker version loops (args t) (s.locals t) s.shared = .ended := hended t
  rwa [ht] at hwaits

-- No worker waits for ever, whoever goes first: the run ends, and all have made their calls.
theorem vector_adds_finish (h : version.Finishes args)
    (hrun : Run (fun t => worker version loops (args t)) (start v) k s) :
    k ≤ Fintype.card T * (loops * callSteps + 1) ∧
      ¬ CircularWait (fun t => worker version loops (args t)) s ∧
      (Stuck (fun t => worker version loops (args t)) s → ∀ t, s.locals t = .returned) := by
  have hcost := (hrun.spends steady_start (spends h.waits)).2
  rw [sum_start] at hcost
  exact ⟨by omega, h.not_circularWait hrun, fun hstuck => h.returned hrun hstuck⟩

theorem vector_adds_finish_deadlock :
    ∃ k s, Run (fun t : Fin 2 => worker vectorGlobalOrder 3 (mainArgs true false t))
      (start mainVectors) k s ∧ k ≤ 2 * (3 * callSteps + 1) ∧ ∀ t, s.locals t = .returned := by
  obtain ⟨k, s, hrun, hstuck⟩ := Run.exists_stuck .start steady_start
    (spends fun t : Fin 2 => vectorGlobalOrder_waits (mainArgs true false t))
  have hfinish := vector_adds_finish (Or.inl rfl) hrun
  exact ⟨k, s, hrun, hfinish.1, hfinish.2.2 hstuck⟩

end Runs

end VectorAdd
