import HTWGArchive.Bugs.VectorProgress

namespace VectorAdd

open LockOrder

variable {T : Type} {version : Version} {loops k : ℕ} {args : T → Args} {t u : T}
  {l n : Local} {v v₀ : Vectors} {s s' : State T Local Mutex Vectors} {log : List T}

-- The whole loop of `vector_add`, with nobody else at the vectors.
def vector_add (args : Args) (v : Vectors) : Vectors :=
  (List.range VECTOR_SIZE).foldl (fun v i => store args.dst i (v args.dst i + v args.src i) v) v

theorem vector_add_loop (args : Args) (v : Vectors) (n x y : ℕ) :
    (List.range n).foldl (fun v i => store args.dst i (v args.dst i + v args.src i) v) v x y =
      if x = args.dst ∧ y < n then v args.dst y + v args.src y else v x y := by
  induction n generalizing x y with
  | zero => simp
  | succ n ih =>
    rw [List.range_succ, List.foldl_concat]
    by_cases hxy : x = args.dst ∧ y = n
    · obtain ⟨rfl, rfl⟩ := hxy
      rw [store_self, ih, ih]
      simp
    · rw [store_of_ne hxy, ih]
      by_cases hx : x = args.dst
      · have hn : y < n ↔ y < n + 1 := by omega
        simp only [hn]
      · simp [hx]

theorem vector_add_apply (args : Args) (v : Vectors) (x y : ℕ) : vector_add args v x y =
    if x = args.dst ∧ y < VECTOR_SIZE then v args.dst y + v args.src y else v x y :=
  vector_add_loop args v VECTOR_SIZE x y

-- The calls of `vector_add` one after the other.
def serially (args : T → Args) (v₀ : Vectors) (log : List T) : Vectors :=
  log.foldl (fun v t => vector_add (args t) v) v₀

theorem serially_append (log : List T) (t : T) :
    serially args v₀ (log ++ [t]) = vector_add (args t) (serially args v₀ log) :=
  List.foldl_concat ..

-- The calls of a worker whose locks have been taken.
def Local.calls (loops : ℕ) : Local → ℕ
  | .next i => i
  | .acquiring i _ => i
  | .undoing i _ => i
  | .adding i _ => i + 1
  | .storing i _ _ => i + 1
  | .releasing i _ => i + 1
  | .returned => loops

def Local.Pending : Local → ℕ → Prop
  | .adding _ j, y => j ≤ y ∧ y < VECTOR_SIZE
  | .storing _ j _, y => j ≤ y ∧ y < VECTOR_SIZE
  | _, _ => False

def Local.HasLocks : Local → Prop
  | .acquiring _ [] => True
  | .adding _ _ => True
  | .storing _ _ _ => True
  | _ => False

theorem Local.HasLocks.holds {release : List Mutex} (h : l.HasLocks) {m : Mutex}
    (hm : m ∈ release) : l.holds release m := by
  cases l with
  | acquiring i rest =>
    cases rest with
    | nil => exact hm
    | cons _ _ => exact absurd h id
  | adding i j => exact hm
  | storing i j sum => exact hm
  | _ => exact absurd h id

theorem Local.Pending.hasLocks {y : ℕ} (h : l.Pending y) : l.HasLocks := by
  cases l with
  | adding i j => exact trivial
  | storing i j sum => exact trivial
  | _ => exact absurd h id

theorem apart (hd : Disciplined (fun t => Local.Ok version loops (args t)) (holds version args) s)
    (hsound : ∀ t, version.Sound (args t)) (ht : (s.locals t).HasLocks)
    (hu : (s.locals u).HasLocks)
    (h : (args u).dst = (args t).dst ∨ (args u).dst = (args t).src) : u = t := by
  have hmine : Mutex.vector (args u).dst ∈ version.release (args t).dst (args t).src := by
    rcases h with h | h
    · rw [h]
      exact (hsound t).dst
    · rw [h]
      exact (hsound t).src
  exact hd.exclusive (hu.holds (hsound u).dst) (ht.holds hmine)

-- The vectors are those of the calls in the log, but for the values still to be added.
structure Serial (loops : ℕ) (args : T → Args) (v₀ : Vectors) [BEq T] (log : List T)
    (s : State T Local Mutex Vectors) : Prop where
  calls : ∀ t, log.count t = (s.locals t).calls loops
  pending : ∀ t y, (s.locals t).Pending y → serially args v₀ log (args t).dst y =
    s.shared (args t).dst y + s.shared (args t).src y
  settled : ∀ x y, (∀ t, (args t).dst = x → ¬ (s.locals t).Pending y) →
    serially args v₀ log x y = s.shared x y
  sum : ∀ t i j sum, s.locals t = .storing i j sum →
    sum = s.shared (args t).dst j + s.shared (args t).src j

-- A step that neither takes up a call nor gets a value done.
structure Quiet (loops : ℕ) (l n : Local) : Prop where
  calls : n.calls loops = l.calls loops
  before : ∀ y, ¬ l.Pending y
  after : ∀ y, ¬ n.Pending y
  notStoring : ∀ i j sum, n ≠ .storing i j sum

variable [DecidableEq T]

theorem Serial.quiet (h : Serial loops args v₀ log s) (hq : Quiet loops (s.locals t) n)
    (owner : Mutex → Option T) : Serial loops args v₀ log (s.move t n owner s.shared) := by
  have hpending : ∀ u y, ((s.move t n owner s.shared).locals u).Pending y ↔
      (s.locals u).Pending y := by
    intro u y
    rcases eq_or_ne u t with rfl | hne
    · rw [State.move_self]
      exact iff_of_false (hq.after y) (hq.before y)
    · rw [State.move_of_ne s hne]
  refine ⟨fun u => ?_, fun u y hu => h.pending u y ((hpending u y).mp hu), fun x y hx => ?_,
    fun u i j sum hu => ?_⟩
  · rcases eq_or_ne u t with rfl | hne
    · rw [State.move_self, hq.calls]
      exact h.calls u
    · rw [State.move_of_ne s hne]
      exact h.calls u
  · exact h.settled x y (fun u hu hp => hx u hu ((hpending u y).mpr hp))
  · rcases eq_or_ne u t with rfl | hne
    · rw [State.move_self] at hu
      exact absurd hu (hq.notStoring i j sum)
    · rw [State.move_of_ne s hne] at hu
      exact h.sum u i j sum hu

theorem worker_quiet (a : Args) (l : Local) (v : Vectors) :
    match worker version loops a l v with
    | .lock _ n => Quiet loops l n
    | .tryLock _ n f => Quiet loops l n ∧ Quiet loops l f
    | .unlock _ n => Quiet loops l n
    | .work _ _ => True
    | .ended => True := by
  cases l with
  | next i =>
    by_cases hi : i < loops
    · rw [worker_next hi]
      trivial
    · rw [worker_last hi]
      trivial
  | acquiring i rest =>
    cases rest with
    | nil => exact trivial
    | cons instr rest =>
      have hmore : Quiet loops (.acquiring i (instr :: rest)) (.acquiring i rest) :=
        ⟨rfl, fun _ => id, fun _ => id, by simp⟩
      cases instr with
      | lock m => exact hmore
      | tryLock m undo => exact ⟨hmore, rfl, fun _ => id, fun _ => id, by simp⟩
      | unlock m => exact hmore
  | undoing i rest =>
    cases rest with
    | nil => exact trivial
    | cons m rest => exact ⟨rfl, fun _ => id, fun _ => id, by simp⟩
  | adding i j =>
    by_cases hj : j < VECTOR_SIZE
    · rw [worker_adding hj]
      trivial
    · rw [worker_added hj]
      trivial
  | storing i j sum => exact trivial
  | releasing i rest =>
    cases rest with
    | nil => exact trivial
    | cons m rest => exact ⟨rfl, fun _ => id, fun _ => id, by simp⟩
  | returned => exact trivial

-- The call is taken up once its last lock is: nobody else is adding to either vector.
theorem Serial.acquired (h : Serial loops args v₀ log s) (hsound : ∀ t, version.Sound (args t))
    (hd : Disciplined (fun t => Local.Ok version loops (args t)) (holds version args) s) {i : ℕ}
    (hl : s.locals t = .acquiring i []) :
    Serial loops args v₀ (log ++ [t]) (s.move t (.adding i 0) s.owner s.shared) := by
  have hlocks : (s.locals t).HasLocks := by
    rw [hl]
    trivial
  have hidle : ∀ y, ¬ (s.locals t).Pending y := by
    intro y
    rw [hl]
    exact id
  have hmine : ∀ x y, x = (args t).dst ∨ x = (args t).src →
      serially args v₀ log x y = s.shared x y := by
    intro x y hx
    refine h.settled x y (fun u hu hp => ?_)
    have hut : u = t := apart hd hsound hlocks hp.hasLocks (hu ▸ hx)
    exact hidle y (hut ▸ hp)
  have hother : ∀ {u y}, (s.locals u).Pending y → (args u).dst ≠ (args t).dst := by
    intro u y hp hdst
    have hut : u = t := apart hd hsound hlocks hp.hasLocks (Or.inl hdst)
    exact hidle y (hut ▸ hp)
  refine ⟨fun u => ?_, fun u y hu => ?_, fun x y hx => ?_, fun u i' j sum hu => ?_⟩
  · rw [List.count_append, h.calls u]
    rcases eq_or_ne u t with rfl | hne
    · rw [State.move_self, hl]
      simp [Local.calls]
    · rw [State.move_of_ne s hne]
      simp [hne.symm]
  · rw [serially_append, vector_add_apply]
    rcases eq_or_ne u t with rfl | hne
    · rw [State.move_self] at hu
      rw [if_pos ⟨rfl, hu.2⟩, hmine _ y (Or.inl rfl), hmine _ y (Or.inr rfl)]
      rfl
    · rw [State.move_of_ne s hne] at hu
      rw [if_neg (fun hc => hother hu hc.1)]
      exact h.pending u y hu
  · have hrest : ∀ u, (args u).dst = x → ¬ (s.locals u).Pending y := by
      intro u hu hp
      rcases eq_or_ne u t with rfl | hne
      · exact hidle y hp
      · have hn := hx u hu
        rw [State.move_of_ne s hne] at hn
        exact hn hp
    rw [serially_append, vector_add_apply, if_neg, h.settled x y hrest]
    · rfl
    · rintro ⟨rfl, hy⟩
      have hn := hx t rfl
      rw [State.move_self] at hn
      exact hn ⟨Nat.zero_le y, hy⟩
  · rcases eq_or_ne u t with rfl | hne
    · rw [State.move_self] at hu
      cases hu
    · rw [State.move_of_ne s hne] at hu
      exact h.sum u i' j sum hu

theorem Serial.summed (h : Serial loops args v₀ log s) {i j : ℕ}
    (hl : s.locals t = .adding i j) : Serial loops args v₀ log
      (s.move t (.storing i j (s.shared (args t).dst j + s.shared (args t).src j)) s.owner
        s.shared) := by
  have hpending : ∀ u y, ((s.move t (.storing i j (s.shared (args t).dst j +
      s.shared (args t).src j)) s.owner s.shared).locals u).Pending y ↔
      (s.locals u).Pending y := by
    intro u y
    rcases eq_or_ne u t with rfl | hne
    · rw [State.move_self, hl]
      rfl
    · rw [State.move_of_ne s hne]
  refine ⟨fun u => ?_, fun u y hu => h.pending u y ((hpending u y).mp hu), fun x y hx => ?_,
    fun u i' j' sum hu => ?_⟩
  · rcases eq_or_ne u t with rfl | hne
    · rw [State.move_self, h.calls u, hl]
      rfl
    · rw [State.move_of_ne s hne]
      exact h.calls u
  · exact h.settled x y (fun u hu hp => hx u hu ((hpending u y).mpr hp))
  · rcases eq_or_ne u t with rfl | hne
    · rw [State.move_self] at hu
      cases hu
      rfl
    · rw [State.move_of_ne s hne] at hu
      exact h.sum u i' j' sum hu

theorem Serial.stored (h : Serial loops args v₀ log s) (hsound : ∀ t, version.Sound (args t))
    (hd : Disciplined (fun t => Local.Ok version loops (args t)) (holds version args) s)
    {i j : ℕ} {sum : BitVec 32} (hl : s.locals t = .storing i j sum) :
    Serial loops args v₀ log
      (s.move t (.adding i (j + 1)) s.owner (store (args t).dst j sum s.shared)) := by
  have hlocks : (s.locals t).HasLocks := by
    rw [hl]
    trivial
  have hj : j < VECTOR_SIZE := by
    have hok : Local.Ok version loops (args t) (s.locals t) := hd.ok t
    rw [hl] at hok
    exact hok.2
  have hmove : ∀ {u}, u ≠ t → (s.move t (.adding i (j + 1)) s.owner
      (store (args t).dst j sum s.shared)).locals u = s.locals u :=
    fun hne => State.move_of_ne s hne _ _ _
  have hnow : ∀ u y, ((s.move t (.adding i (j + 1)) s.owner
      (store (args t).dst j sum s.shared)).locals u).Pending y ↔
      (s.locals u).Pending y ∧ ¬ (u = t ∧ y = j) := by
    intro u y
    rcases eq_or_ne u t with rfl | hne
    · rw [State.move_self, hl]
      change j + 1 ≤ y ∧ y < VECTOR_SIZE ↔ (j ≤ y ∧ y < VECTOR_SIZE) ∧ ¬ (u = u ∧ y = j)
      simp only [true_and]
      omega
    · rw [hmove hne]
      simp [hne]
  have hkept : ∀ u y, (s.locals u).Pending y → ¬ (u = t ∧ y = j) →
      store (args t).dst j sum s.shared (args u).dst y = s.shared (args u).dst y ∧
        store (args t).dst j sum s.shared (args u).src y = s.shared (args u).src y := by
    intro u y hp hne
    have hread : ∀ x, x = (args u).dst ∨ x = (args u).src →
        store (args t).dst j sum s.shared x y = s.shared x y := by
      intro x hx
      refine store_of_ne (fun hxy => hne ⟨?_, hxy.2⟩) sum s.shared
      exact (apart hd hsound hp.hasLocks hlocks (hxy.1 ▸ hx)).symm
    exact ⟨hread _ (Or.inl rfl), hread _ (Or.inr rfl)⟩
  refine ⟨fun u => ?_, fun u y hu => ?_, fun x y hx => ?_, fun u i' j' sum' hu => ?_⟩
  · rcases eq_or_ne u t with rfl | hne
    · rw [State.move_self, h.calls u, hl]
      rfl
    · rw [hmove hne]
      exact h.calls u
  · obtain ⟨hp, hne⟩ := (hnow u y).mp hu
    obtain ⟨hdst, hsrc⟩ := hkept u y hp hne
    exact (h.pending u y hp).trans (congrArg₂ (· + ·) hdst hsrc).symm
  · change _ = store (args t).dst j sum s.shared x y
    by_cases hxy : x = (args t).dst ∧ y = j
    · obtain ⟨rfl, rfl⟩ := hxy
      have hp : (s.locals t).Pending y := by
        rw [hl]
        exact ⟨Nat.le_refl y, hj⟩
      rw [store_self, h.pending t y hp, h.sum t i y sum hl]
    · rw [store_of_ne hxy]
      refine h.settled x y (fun u hu hp => hx u hu ((hnow u y).mpr ⟨hp, ?_⟩))
      rintro ⟨rfl, rfl⟩
      exact hxy ⟨hu.symm, rfl⟩
  · rcases eq_or_ne u t with rfl | hne
    · rw [State.move_self] at hu
      cases hu
    · rw [hmove hne] at hu
      have hp : (s.locals u).Pending j' := by
        have hok : Local.Ok version loops (args u) (s.locals u) := hd.ok u
        rw [hu] at hok ⊢
        exact ⟨Nat.le_refl j', hok.2⟩
      obtain ⟨hdst, hsrc⟩ := hkept u j' hp (fun hc => hne hc.1)
      exact (h.sum u i' j' sum' hu).trans (congrArg₂ (· + ·) hdst hsrc).symm

theorem Serial.worked (h : Serial loops args v₀ log s) (hsound : ∀ t, version.Sound (args t))
    (hd : Disciplined (fun t => Local.Ok version loops (args t)) (holds version args) s)
    (hact : worker version loops (args t) (s.locals t) s.shared = .work n v) :
    ∃ log', Serial loops args v₀ log' (s.move t n s.owner v) := by
  have hok : Local.Ok version loops (args t) (s.locals t) := hd.ok t
  cases hl : s.locals t with
  | next i =>
    rw [hl] at hact hok
    by_cases hi : i < loops
    · rw [worker_next hi] at hact
      cases hact
      exact ⟨log, h.quiet (hl ▸ ⟨rfl, fun _ => id, fun _ => id, by simp⟩) _⟩
    · rw [worker_last hi] at hact
      cases hact
      have hloops : loops = i := Nat.le_antisymm (Nat.le_of_not_lt hi) hok
      exact ⟨log, h.quiet (hl ▸ ⟨hloops, fun _ => id, fun _ => id, by simp⟩) _⟩
  | acquiring i rest =>
    rw [hl] at hact
    cases rest with
    | nil =>
      cases hact
      exact ⟨log ++ [t], h.acquired hsound hd hl⟩
    | cons instr rest => cases instr <;> cases hact
  | undoing i rest =>
    rw [hl] at hact
    cases rest with
    | nil =>
      cases hact
      exact ⟨log, h.quiet (hl ▸ ⟨rfl, fun _ => id, fun _ => id, by simp⟩) _⟩
    | cons m rest => cases hact
  | adding i j =>
    rw [hl] at hact
    by_cases hj : j < VECTOR_SIZE
    · rw [worker_adding hj] at hact
      cases hact
      exact ⟨log, h.summed hl⟩
    · rw [worker_added hj] at hact
      cases hact
      have hdone : ∀ y, ¬ (Local.adding i j).Pending y :=
        fun y hp => hj (Nat.lt_of_le_of_lt hp.1 hp.2)
      exact ⟨log, h.quiet (hl ▸ ⟨rfl, hdone, fun _ => id, by simp⟩) _⟩
  | storing i j sum =>
    rw [hl] at hact
    cases hact
    exact ⟨log, h.stored hsound hd hl⟩
  | releasing i rest =>
    rw [hl] at hact
    cases rest with
    | nil =>
      cases hact
      exact ⟨log, h.quiet (hl ▸ ⟨rfl, fun _ => id, fun _ => id, by simp⟩) _⟩
    | cons m rest => cases hact
  | returned =>
    rw [hl] at hact
    cases hact

theorem Serial.step (h : Serial loops args v₀ log s) (hsound : ∀ t, version.Sound (args t))
    (hd : Disciplined (fun t => Local.Ok version loops (args t)) (holds version args) s)
    (hs : Step (fun t => worker version loops (args t)) s s') :
    ∃ log', Serial loops args v₀ log' s' := by
  have hquiet := fun t => @worker_quiet version loops (args t) (s.locals t) s.shared
  cases hs with
  | @lock t m n hact _ =>
    have hq := hquiet t
    rw [hact] at hq
    exact ⟨log, h.quiet hq _⟩
  | @taken t m n f hact _ =>
    have hq := hquiet t
    rw [hact] at hq
    exact ⟨log, h.quiet hq.1 _⟩
  | @failed t u m n f hact _ =>
    have hq := hquiet t
    rw [hact] at hq
    exact ⟨log, h.quiet hq.2 _⟩
  | @unlock t m n hact =>
    have hq := hquiet t
    rw [hact] at hq
    exact ⟨log, h.quiet hq _⟩
  | @work t n data hact => exact h.worked hsound hd hact

theorem serial_run (hsound : ∀ t, version.Sound (args t))
    (hrun : Run (fun t => worker version loops (args t)) (start v₀) k s) :
    ∃ log, Serial loops args v₀ log s := by
  induction hrun with
  | start => exact ⟨[], fun t => rfl, fun t y => False.elim, fun x y _ => rfl, by simp [start]⟩
  | step hrun hs ih =>
    obtain ⟨log, hserial⟩ := ih
    exact hserial.step hsound (disciplined hsound hrun) hs

-- The versions with locks, for the calls they can be given.
def Version.Locks (version : Version) (args : T → Args) : Prop :=
  version = vectorGlobalOrder ∨
    (version = vectorAvoidHoldAndWait ∨ version = vectorTryWait ∨ version = vectorDeadlock) ∧
      ∀ t, (args t).dst ≠ (args t).src

omit [DecidableEq T] in
theorem Version.Locks.sound (h : version.Locks args) (t : T) : version.Sound (args t) := by
  rcases h with rfl | ⟨rfl | rfl | rfl, hne⟩
  · exact vectorGlobalOrder_sound (args t)
  · exact vectorAvoidHoldAndWait_sound (hne t)
  · exact vectorTryWait_sound (hne t)
  · exact vectorDeadlock_sound (hne t)

-- However the workers interleave, the vectors are as if the calls had been made one by one.
theorem vector_adds_are_serial (h : version.Locks args)
    (hrun : Run (fun t => worker version loops (args t)) (start v₀) k s)
    (hreturned : ∀ t, s.locals t = .returned) :
    ∃ log : List T, (∀ t, log.count t = loops) ∧ s.shared = serially args v₀ log := by
  obtain ⟨log, hserial⟩ := serial_run h.sound hrun
  refine ⟨log, fun t => ?_, ?_⟩
  · rw [hserial.calls t, hreturned t]
    rfl
  · funext x y
    refine (hserial.settled x y (fun t _ hp => ?_)).symm
    rw [hreturned t] at hp
    exact hp

theorem vector_adds_are_serial_globalOrder :
    ∃ k s, Run (fun t : Fin 2 => worker vectorGlobalOrder 3 (mainArgs true false t))
      (start mainVectors) k s ∧ ∃ log : List (Fin 2), (∀ t, log.count t = 3) ∧
        s.shared = serially (fun t : Fin 2 => mainArgs true false t) mainVectors log := by
  obtain ⟨k, s, hrun, hstuck⟩ := Run.exists_stuck .start steady_start
    (spends fun t : Fin 2 => vectorGlobalOrder_waits (mainArgs true false t))
  have hfinishes : vectorGlobalOrder.Finishes (fun t : Fin 2 => mainArgs true false t) :=
    Or.inl rfl
  exact ⟨k, s, hrun,
    vector_adds_are_serial (Or.inl rfl) hrun (hfinishes.returned hrun hstuck)⟩

end VectorAdd
