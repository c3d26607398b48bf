import HTWGArchive.Bugs.VectorAdd

namespace VectorAdd

open LockOrder

variable {T : Type} {version : Version} {loops i j : ℕ} {args : T → Args} {t u : T}
  {m k : Mutex} {rest : List Instr} {release : List Mutex}

-- What a thread has while these instructions are still to come, given what it has after them.
def holding (release : List Mutex) : List Instr → Mutex → Prop
  | [], m => m ∈ release
  | .lock k :: rest, m => holding release rest m ∧ m ≠ k
  | .tryLock k _ :: rest, m => holding release rest m ∧ m ≠ k
  | .unlock k :: rest, m => holding release rest m ∨ m = k

inductive Fits (release : List Mutex) : List Instr → Prop where
  | nil : Fits release []
  | lock {m : Mutex} {rest : List Instr} : holding release rest m → Fits release rest →
      Fits release (.lock m :: rest)
  | tryLock {m : Mutex} {undo : List Mutex} {rest : List Instr} : holding release rest m →
      undo.Nodup → (∀ k, k ∈ undo ↔ holding release (.tryLock m undo :: rest) k) →
      Fits release rest → Fits release (.tryLock m undo :: rest)
  | unlock {m : Mutex} {rest : List Instr} : ¬ holding release rest m → Fits release rest →
      Fits release (.unlock m :: rest)

-- The version takes both locks from nothing and gives back just these.
structure Version.Sound (version : Version) (args : Args) : Prop where
  nodup : (version.release args.dst args.src).Nodup
  dst : .vector args.dst ∈ version.release args.dst args.src
  src : .vector args.src ∈ version.release args.dst args.src
  fits : Fits (version.release args.dst args.src) (version.acquire args.dst args.src)
  empty : ∀ m, ¬ holding (version.release args.dst args.src)
    (version.acquire args.dst args.src) m

def Local.holds (release : List Mutex) : Local → Mutex → Prop
  | .next _, _ => False
  | .acquiring _ rest, m => holding release rest m
  | .undoing _ rest, m => m ∈ rest
  | .adding _ _, m => m ∈ release
  | .storing _ _ _, m => m ∈ release
  | .releasing _ rest, m => m ∈ rest
  | .returned, _ => False

def holds (version : Version) (args : T → Args) (t : T) (l : Local) (m : Mutex) : Prop :=
  l.holds (version.release (args t).dst (args t).src) m

-- The points a worker can be at: its lists of instructions and mutexes are what is left of the
-- version's own.
def Local.Ok (version : Version) (loops : ℕ) (args : Args) : Local → Prop
  | .next i => i ≤ loops
  | .acquiring i rest => i < loops ∧ Fits (version.release args.dst args.src) rest
  | .undoing i rest => i < loops ∧ rest.Nodup
  | .adding i _ => i < loops
  | .storing i j _ => i < loops ∧ j < VECTOR_SIZE
  | .releasing i rest => i < loops ∧ rest.Nodup
  | .returned => True

theorem keeps_unlock (h : (m :: release).Nodup) :
    m ∈ m :: release ∧ release.Nodup ∧ ∀ k, k ∈ release ↔ k ∈ m :: release ∧ k ≠ m := by
  obtain ⟨hm, hrest⟩ := List.nodup_cons.mp h
  refine ⟨List.mem_cons_self, hrest, fun k => ?_⟩
  by_cases hk : k = m
  · simp [hk, hm]
  · simp [hk]

theorem keeps (h : ∀ t, version.Sound (args t)) :
    Keeps (fun t => Local.Ok version loops (args t)) (holds version args)
      (fun t => worker version loops (args t)) := by
  intro t l data hok
  cases l with
  | next i =>
    beta_reduce
    by_cases hi : i < loops
    · rw [worker_next hi]
      exact ⟨⟨hi, (h t).fits⟩, fun k => iff_of_false ((h t).empty k) id⟩
    · rw [worker_last hi]
      exact ⟨trivial, fun k => Iff.rfl⟩
  | acquiring i rest =>
    obtain ⟨hi, hfits⟩ := hok
    cases hfits with
    | nil => exact ⟨hi, fun k => Iff.rfl⟩
    | @lock m rest hm hfits =>
      refine ⟨⟨hi, hfits⟩, fun k => ?_⟩
      change holding _ rest k ↔ (holding _ rest k ∧ k ≠ m) ∨ k = m
      by_cases hk : k = m
      · simp [hk, hm]
      · simp [hk]
    | @tryLock m undo rest hm hnodup hundo hfits =>
      refine ⟨⟨⟨hi, hfits⟩, fun k => ?_⟩, ⟨hi, hnodup⟩, hundo⟩
      change holding _ rest k ↔ (holding _ rest k ∧ k ≠ m) ∨ k = m
      by_cases hk : k = m
      · simp [hk, hm]
      · simp [hk]
    | @unlock m rest hm hfits =>
      refine ⟨Or.inr rfl, ⟨hi, hfits⟩, fun k => ?_⟩
      change holding _ rest k ↔ (holding _ rest k ∨ k = m) ∧ k ≠ m
      by_cases hk : k = m
      · simp [hk, hm]
      · simp [hk]
  | undoing i rest =>
    obtain ⟨hi, hnodup⟩ := hok
    cases rest with
    | nil =>
      exact ⟨⟨hi, (h t).fits⟩, fun k => iff_of_false ((h t).empty k) List.not_mem_nil⟩
    | cons m rest =>
      obtain ⟨hm, hrest, hk⟩ := keeps_unlock hnodup
      exact ⟨hm, ⟨hi, hrest⟩, hk⟩
  | adding i j =>
    beta_reduce
    by_cases hj : j < VECTOR_SIZE
    · rw [worker_adding hj]
      exact ⟨⟨hok, hj⟩, fun k => Iff.rfl⟩
    · rw [worker_added hj]
      exact ⟨⟨hok, (h t).nodup⟩, fun k => Iff.rfl⟩
  | storing i j sum => exact ⟨hok.1, fun k => Iff.rfl⟩
  | releasing i rest =>
    obtain ⟨hi, hnodup⟩ := hok
    cases rest with
    | nil => exact ⟨hi, fun k => iff_of_false id List.not_mem_nil⟩
    | cons m rest =>
      obtain ⟨hm, hrest, hk⟩ := keeps_unlock hnodup
      exact ⟨hm, ⟨hi, hrest⟩, hk⟩
  | returned => exact fun k => id

theorem disciplined_start (v : Vectors) :
    Disciplined (fun t => Local.Ok version loops (args t)) (holds version args)
      (start (T := T) v) := by
  refine ⟨fun m t => ?_, fun t => Nat.zero_le loops⟩
  exact iff_of_false (Option.some_ne_none t).symm id

theorem disciplined [DecidableEq T] {k : ℕ} {v : Vectors} {s : State T Local Mutex Vectors}
    (h : ∀ t, version.Sound (args t))
    (hrun : Run (fun t => worker version loops (args t)) (start v) k s) :
    Disciplined (fun t => Local.Ok version loops (args t)) (holds version args) s :=
  (disciplined_start v).run (keeps h) hrun

-- Two vectors of which the second is locked last.
theorem fits_two {x y : Mutex} (release : List Mutex) (hx : x ∈ release) (hy : y ∈ release)
    (hne : x ≠ y) : Fits release [.lock x, .lock y] :=
  .lock ⟨hx, hne⟩ (.lock hy .nil)

theorem holding_two {x y : Mutex} (h : ∀ m ∈ release, m = x ∨ m = y) (m : Mutex) :
    ¬ holding release [.lock x, .lock y] m := by
  rintro ⟨⟨hm, hy⟩, hx⟩
  exact (h m hm).elim hx hy

theorem vectorDeadlock_sound {args : Args} (h : args.dst ≠ args.src) :
    vectorDeadlock.Sound args where
  nodup := by simpa [vectorDeadlock] using h
  dst := by simp [vectorDeadlock]
  src := by simp [vectorDeadlock]
  fits := fits_two _ (by simp [vectorDeadlock]) (by simp [vectorDeadlock]) (by simpa using h)
  empty := holding_two (by simp [vectorDeadlock])

theorem vectorGlobalOrder_sound (args : Args) : vectorGlobalOrder.Sound args := by
  rcases Nat.lt_trichotomy args.dst args.src with hlt | heq | hlt
  · have hne : args.dst ≠ args.src := Nat.ne_of_lt hlt
    refine ⟨?_, ?_, ?_, ?_, ?_⟩
    · simpa [vectorGlobalOrder, hne] using hne.symm
    · simp [vectorGlobalOrder, hne]
    · simp [vectorGlobalOrder, hne]
    · simp only [vectorGlobalOrder, hlt, if_true]
      exact fits_two _ (by simp [hne]) (by simp [hne]) (by simpa using hne)
    · simp only [vectorGlobalOrder, hlt, if_true]
      exact holding_two (by simp [hne])
  · have hirrefl : ¬ args.src < args.src := Nat.lt_irrefl args.src
    refine ⟨?_, ?_, ?_, ?_, ?_⟩
    · simp [vectorGlobalOrder, heq]
    · simp [vectorGlobalOrder, heq]
    · simp [vectorGlobalOrder, heq]
    · simp only [vectorGlobalOrder, heq, hirrefl, if_false]
      exact .lock (by simp [holding]) .nil
    · simp [vectorGlobalOrder, heq, holding]
  · have hne : args.dst ≠ args.src := Nat.ne_of_gt hlt
    have hnot : ¬ args.dst < args.src := Nat.lt_asymm hlt
    refine ⟨?_, ?_, ?_, ?_, ?_⟩
    · simpa [vectorGlobalOrder, hne] using hne.symm
    · simp [vectorGlobalOrder, hne]
    · simp [vectorGlobalOrder, hne]
    · simp only [vectorGlobalOrder, hlt, hnot, if_true, if_false]
      exact fits_two _ (by simp [hne]) (by simp [hne]) (by simpa using hne.symm)
    · simp only [vectorGlobalOrder, hlt, hnot, if_true, if_false]
      exact holding_two (by simp [hne])

theorem vectorAvoidHoldAndWait_sound {args : Args} (h : args.dst ≠ args.src) :
    vectorAvoidHoldAndWait.Sound args where
  nodup := by simpa [vectorAvoidHoldAndWait] using h
  dst := by simp [vectorAvoidHoldAndWait]
  src := by simp [vectorAvoidHoldAndWait]
  fits := by
    refine .lock ?_ (.lock ?_ (.lock ?_ (.unlock ?_ .nil)))
    · simp [holding]
    · simpa [holding, vectorAvoidHoldAndWait] using h
    · simp [holding, vectorAvoidHoldAndWait]
    · simp [holding, vectorAvoidHoldAndWait]
  empty := by
    rintro m ⟨⟨⟨hm | hm, hsrc⟩, hdst⟩, hglobal⟩
    · have hor : m = .vector args.dst ∨ m = .vector args.src := by
        simpa [holding, vectorAvoidHoldAndWait] using hm
      exact hor.elim hdst hsrc
    · exact hglobal hm

theorem vectorTryWait_sound {args : Args} (h : args.dst ≠ args.src) :
    vectorTryWait.Sound args where
  nodup := by simpa [vectorTryWait] using h
  dst := by simp [vectorTryWait]
  src := by simp [vectorTryWait]
  fits := by
    refine .tryLock ?_ List.nodup_nil ?_ (.tryLock ?_ (List.nodup_singleton _) ?_ .nil)
    · simpa [holding, vectorTryWait] using h
    · intro k
      refine iff_of_false List.not_mem_nil ?_
      rintro ⟨⟨hk, hsrc⟩, hdst⟩
      have hor : k = .vector args.dst ∨ k = .vector args.src := by
        simpa [holding, vectorTryWait] using hk
      exact hor.elim hdst hsrc
    · simp [holding, vectorTryWait]
    · intro k
      change _ ↔ k ∈ [Mutex.vector args.dst, .vector args.src] ∧ k ≠ .vector args.src
      constructor
      · intro hk
        rw [List.mem_singleton.mp hk]
        simpa using h
      · rintro ⟨hk, hsrc⟩
        simpa [hsrc] using hk
  empty := by
    rintro m ⟨⟨hm, hsrc⟩, hdst⟩
    have hor : m = .vector args.dst ∨ m = .vector args.src := by
      simpa [holding, vectorTryWait] using hm
    exact hor.elim hdst hsrc

end VectorAdd
