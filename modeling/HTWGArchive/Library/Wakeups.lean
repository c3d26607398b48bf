import HTWGArchive.Library.Monitor

namespace Monitor

open ThreadSums

variable {T L S C : Type*} [DecidableEq T] [Fintype T] {p : Spec T L S}
  {act : T → L → S → Action T L S C} {s s' s₀ : State T L S C} {t : T} {l : L} {c : C}

-- Signals that are still to come and threads that are awake, for one condition variable.
def Status.credit (credit : L → ℕ) : Status L C → ℕ
  | .running l => credit l
  | .asleep _ _ => 0
  | .woken l => credit l

@[simp] theorem Status.credit_running (credit : L → ℕ) (l : L) :
    (Status.running l : Status L C).credit credit = credit l := rfl

@[simp] theorem Status.credit_asleep (credit : L → ℕ) (c : C) (l : L) :
    (Status.asleep c l).credit credit = 0 := rfl

@[simp] theorem Status.credit_woken (credit : L → ℕ) (l : L) :
    (Status.woken l : Status L C).credit credit = credit l := rfl

-- `stock` is what the sleepers wait for and `rests` the points at which they sleep.
structure Account (L S : Type*) where
  stock : S → ℕ
  credit : L → ℕ
  rests : L → Prop
  credit_pos : ∀ l, rests l → 1 ≤ credit l

def Wakes [DecidableEq C] (c : C) (a : Account L S) (l : L) (data : S) : Action T L S C → Prop
  | .lock n => a.credit l ≤ a.credit n
  | .unlock n => a.credit l ≤ a.credit n
  | .wait d n => if d = c then a.stock data = 0 ∧ a.rests n else a.credit l = 0
  | .signal d n => if d = c then a.credit l ≤ a.credit n + 1 else a.credit l ≤ a.credit n
  | .compute n data' => a.stock data' + a.credit l ≤ a.stock data + a.credit n
  | .join _ next => ∀ k, a.credit l ≤ a.credit (next k)
  | .ended => True

structure Awake (c : C) (a : Account L S) (s : State T L S C) : Prop where
  rests : ∀ t l, s.threads t = .asleep c l → a.rests l
  covered : (∃ t l, s.threads t = .asleep c l) →
    a.stock s.shared ≤ ∑ t, (s.threads t).credit a.credit

theorem sum_credit_move (s : State T L S C) (credit : L → ℕ) (t : T) (status : Status L C)
    (owner : Option T) (data : S) :
    (∑ u, ((s.move t status owner data).threads u).credit credit) + (s.threads t).credit credit =
      (∑ u, (s.threads u).credit credit) + status.credit credit :=
  sum_update (fun status => Status.credit credit status) s.threads t status

omit [Fintype T] in
theorem asleep_of_move {status : Status L C} {owner : Option T} {data : S} {u : T} {k : L}
    (h : (s.move t status owner data).threads u = .asleep c k) :
    s.threads u = .asleep c k ∨ status = .asleep c k := by
  rcases eq_or_ne u t with rfl | hne
  · rw [State.move_self] at h
    exact Or.inr h
  · rw [State.move_of_ne s hne] at h
    exact Or.inl h

variable {a : Account L S}

-- The thread stays awake: what it adds to the data it has announced.
theorem Awake.move (h : Awake c a s) {status : Status L C} {owner : Option T} {data : S}
    (hstatus : ∀ k, status ≠ .asleep c k)
    (hbalance : a.stock data + (s.threads t).credit a.credit ≤
      a.stock s.shared + status.credit a.credit) :
    Awake c a (s.move t status owner data) := by
  have hback : ∀ u k, (s.move t status owner data).threads u = .asleep c k →
      s.threads u = .asleep c k := by
    intro u k hu
    exact (asleep_of_move hu).resolve_right (hstatus k)
  refine ⟨fun u k hu => h.rests u k (hback u k hu), ?_⟩
  rintro ⟨u, k, hu⟩
  have hcovered := h.covered ⟨u, k, hback u k hu⟩
  have hsum := sum_credit_move s a.credit t status owner data
  rw [State.move_shared]
  omega

theorem Awake.woken (h : Awake c a s) {d : C} (ht : s.threads t = .asleep d l) :
    Awake c a (s.move t (.woken l) s.owner s.shared) := by
  refine h.move (by simp) ?_
  rw [ht]
  exact Nat.add_le_add_left (Nat.zero_le _) _

section Signals

variable [DecidableEq C]

theorem Awake.step (h : Awake c a s) (hp : p.Invariant s)
    (hwakes : ∀ t l data, p.At t l data → Wakes c a l data (act t l data))
    (hs : Step act s s') : Awake c a s' := by
  cases hs with
  | lock ht hact hfree =>
    have hrule := hwakes _ _ _ (hp.at ht)
    rw [hact] at hrule
    refine h.move (by simp) ?_
    rw [ht]
    exact Nat.add_le_add_left hrule _
  | unlock ht hact =>
    have hrule := hwakes _ _ _ (hp.at ht)
    rw [hact] at hrule
    refine h.move (by simp) ?_
    rw [ht]
    exact Nat.add_le_add_left hrule _
  | @wait t l n d ht hact =>
    have hrule := hwakes _ _ _ (hp.at ht)
    rw [hact] at hrule
    by_cases hd : d = c
    · -- Whoever falls asleep has seen that there is nothing to wait for yet.
      subst hd
      obtain ⟨hzero, htarget⟩ := (if_pos rfl).mp hrule
      refine ⟨?_, ?_⟩
      · intro u k hu
        rcases asleep_of_move hu with hold | hnew
        · exact h.rests u k hold
        · cases hnew
          exact htarget
      · intro _
        rw [State.move_shared, hzero]
        exact Nat.zero_le _
    · have hzero := (if_neg hd).mp hrule
      refine h.move ?_ ?_
      · intro k heq
        cases heq
        exact hd rfl
      · rw [ht, Status.credit_running, hzero]
        exact Nat.add_le_add_left (Nat.zero_le _) _
  | @wake t u l n k d ht hact hu =>
    have hrule := hwakes _ _ _ (hp.at ht)
    rw [hact] at hrule
    by_cases hd : d = c
    · -- The signal that is spent here is carried on by the sleeper that it wakes.
      subst hd
      have hspent := (if_pos rfl).mp hrule
      have htarget := a.credit_pos k (h.rests u k hu)
      have hne : u ≠ t := by
        rintro rfl
        rw [ht] at hu
        cases hu
      refine ⟨?_, ?_⟩
      · intro v m hv
        rcases asleep_of_move hv with hold | hnew
        · rcases asleep_of_move hold with hold | hnew
          · exact h.rests v m hold
          · cases hnew
        · cases hnew
      · rintro -
        have hcovered := h.covered ⟨u, k, hu⟩
        have hfirst := sum_credit_move s a.credit t (.running n) s.owner s.shared
        have hsecond := sum_credit_move (s.move t (.running n) s.owner s.shared) a.credit u
          (.woken k) s.owner s.shared
        rw [State.move_of_ne s hne, hu] at hsecond
        rw [ht] at hfirst
        simp only [Status.credit_running, Status.credit_asleep, Status.credit_woken,
          State.move_shared] at hfirst hsecond ⊢
        omega
    · have hkept := (if_neg hd).mp hrule
      have hmoved : Awake c a (s.move t (.running n) s.owner s.shared) := by
        refine h.move (by simp) ?_
        rw [ht]
        exact Nat.add_le_add_left hkept _
      have hne : u ≠ t := by
        rintro rfl
        rw [ht] at hu
        cases hu
      exact hmoved.woken ((State.move_of_ne s hne _ _ _).trans hu)
  | @unheard t l n d ht hact hnone =>
    have hrule := hwakes _ _ _ (hp.at ht)
    rw [hact] at hrule
    by_cases hd : d = c
    · subst hd
      have hback : ∀ u k, (s.move t (.running n) s.owner s.shared).threads u ≠ .asleep d k := by
        intro u k hu
        rcases asleep_of_move hu with hold | hnew
        · exact hnone u k hold
        · cases hnew
      refine ⟨fun u k hu => absurd hu (hback u k), ?_⟩
      rintro ⟨u, k, hu⟩
      exact absurd hu (hback u k)
    · have hkept := (if_neg hd).mp hrule
      refine h.move (by simp) ?_
      rw [ht]
      exact Nat.add_le_add_left hkept _
  | compute ht hact =>
    have hrule := hwakes _ _ _ (hp.at ht)
    rw [hact] at hrule
    refine h.move (by simp) ?_
    rw [ht]
    exact hrule
  | join ht hact hu hended =>
    have hrule := hwakes _ _ _ (hp.at ht)
    rw [hact] at hrule
    refine h.move (by simp) ?_
    rw [ht]
    exact Nat.add_le_add_left (hrule _) _
  | resume ht hfree =>
    refine h.move (by simp) ?_
    rw [ht]
    exact Nat.le_refl _

theorem Awake.run (hinit : Awake c a s₀) (hp : p.Invariant s₀) (hkeeps : p.Keeps act)
    (hwakes : ∀ t l data, p.At t l data → Wakes c a l data (act t l data)) {n k : ℕ}
    (h : Run act s₀ n k s) : Awake c a s := by
  induction h with
  | start => exact hinit
  | step hrun hs ih => exact ih.step (hp.run hkeeps hrun) hwakes hs
  | spurious _ hs ih =>
    obtain ⟨ht⟩ := hs
    exact ih.woken ht

end Signals

-- `w` is what a thread may still do from a point on, `v` what the data lets others do.
def Spends (v : S → ℕ) (w : L → ℕ) (l : L) (data : S) : Action T L S C → Prop
  | .lock n => w n < w l
  | .unlock n => w n < w l
  | .wait _ n => 1 ≤ w n ∧ w n ≤ w l
  | .signal _ n => w n + 3 ≤ w l
  | .compute n data' => v data' + w n < v data + w l
  | .join _ next => ∀ k, w (next k) < w l
  | .ended => True

-- Falling asleep gains one and a wakeup costs two.
def Status.left (w : L → ℕ) : Status L C → ℕ
  | .running l => w l
  | .asleep _ l => w l - 1
  | .woken l => w l + 1

def State.left (v : S → ℕ) (w : L → ℕ) (s : State T L S C) : ℕ :=
  v s.shared + ∑ t, (s.threads t).left w

variable {v : S → ℕ} {w : L → ℕ}

theorem State.left_move (s : State T L S C) (v : S → ℕ) (w : L → ℕ) (t : T) (status : Status L C)
    (owner : Option T) (data : S) :
    (s.move t status owner data).left v w + (v s.shared + (s.threads t).left w) =
      s.left v w + (v data + status.left w) := by
  have hsum := sum_update (fun status => Status.left w status) s.threads t status
  simp only [State.left, State.move]
  omega

def Sleepers (w : L → ℕ) (s : State T L S C) : Prop :=
  ∀ t c l, s.threads t = .asleep c l → 1 ≤ w l

omit [Fintype T] in
theorem Sleepers.move (h : Sleepers w s) {status : Status L C} {owner : Option T} {data : S}
    (hstatus : ∀ c k, status = .asleep c k → 1 ≤ w k) :
    Sleepers w (s.move t status owner data) := by
  intro u c k hu
  rcases asleep_of_move hu with hold | hnew
  · exact h u c k hold
  · exact hstatus c k hnew

theorem Step.spends (h : Step act s s') (hp : p.Invariant s) (hsleepers : Sleepers w s)
    (hspends : ∀ t l data, p.At t l data → Spends v w l data (act t l data)) :
    Sleepers w s' ∧ s'.left v w < s.left v w := by
  cases h with
  | @lock t l n ht hact hfree =>
    have hrule := hspends _ _ _ (hp.at ht)
    rw [hact] at hrule
    have hleft := s.left_move v w t (.running n) (some t) s.shared
    rw [ht] at hleft
    simp only [Status.left, Spends] at hleft hrule
    exact ⟨hsleepers.move (by simp), by omega⟩
  | @unlock t l n ht hact =>
    have hrule := hspends _ _ _ (hp.at ht)
    rw [hact] at hrule
    have hleft := s.left_move v w t (.running n) none s.shared
    rw [ht] at hleft
    simp only [Status.left, Spends] at hleft hrule
    exact ⟨hsleepers.move (by simp), by omega⟩
  | @wait t l n c ht hact =>
    have hrule := hspends _ _ _ (hp.at ht)
    rw [hact] at hrule
    have hleft := s.left_move v w t (.asleep c n) none s.shared
    rw [ht] at hleft
    simp only [Status.left, Spends] at hleft hrule
    refine ⟨hsleepers.move ?_, by omega⟩
    intro d k hk
    cases hk
    exact hrule.1
  | @wake t u l n k c ht hact hu =>
    have hrule := hspends _ _ _ (hp.at ht)
    rw [hact] at hrule
    have hsleeper := hsleepers u c k hu
    have hne : u ≠ t := by
      rintro rfl
      rw [ht] at hu
      cases hu
    have hfirst := s.left_move v w t (.running n) s.owner s.shared
    have hsecond := (s.move t (.running n) s.owner s.shared).left_move v w u (.woken k) s.owner
      s.shared
    rw [State.move_of_ne s hne, hu] at hsecond
    rw [ht] at hfirst
    simp only [Status.left, Spends, State.move_shared] at hfirst hsecond hrule
    exact ⟨(hsleepers.move (by simp)).move (by simp), by omega⟩
  | @unheard t l n c ht hact hnone =>
    have hrule := hspends _ _ _ (hp.at ht)
    rw [hact] at hrule
    have hleft := s.left_move v w t (.running n) s.owner s.shared
    rw [ht] at hleft
    simp only [Status.left, Spends] at hleft hrule
    exact ⟨hsleepers.move (by simp), by omega⟩
  | @compute t l n data ht hact =>
    have hrule := hspends _ _ _ (hp.at ht)
    rw [hact] at hrule
    have hleft := s.left_move v w t (.running n) s.owner data
    rw [ht] at hleft
    simp only [Status.left, Spends] at hleft hrule
    exact ⟨hsleepers.move (by simp), by omega⟩
  | @join t u l k next ht hact hu hended =>
    have hrule := hspends _ _ _ (hp.at ht)
    rw [hact] at hrule
    have hnext := hrule k
    have hleft := s.left_move v w t (.running (next k)) s.owner s.shared
    rw [ht] at hleft
    simp only [Status.left] at hleft
    exact ⟨hsleepers.move (by simp), by omega⟩
  | @resume t l ht hfree =>
    have hleft := s.left_move v w t (.running l) (some t) s.shared
    rw [ht] at hleft
    simp only [Status.left] at hleft
    exact ⟨hsleepers.move (by simp), by omega⟩

-- Only spurious wakeups make a run longer.
theorem Run.length_le (hp : p.Invariant s₀) (hkeeps : p.Keeps act) (hsleepers : Sleepers w s₀)
    (hspends : ∀ t l data, p.At t l data → Spends v w l data (act t l data)) {n k : ℕ}
    (h : Run act s₀ n k s) : Sleepers w s ∧ n + s.left v w ≤ s₀.left v w + 2 * k := by
  induction h with
  | start => exact ⟨hsleepers, by omega⟩
  | step hrun hs ih =>
    obtain ⟨hsleep, hle⟩ := ih
    obtain ⟨hsleep', hlt⟩ := hs.spends (hp.run hkeeps hrun) hsleep hspends
    exact ⟨hsleep', by omega⟩
  | @spurious n k s s' hrun hs ih =>
    obtain ⟨hsleep, hle⟩ := ih
    obtain @⟨t, c, l, ht⟩ := hs
    have hsleeper := hsleep t c l ht
    have hleft := s.left_move v w t (.woken l) s.owner s.shared
    rw [ht] at hleft
    simp only [Status.left] at hleft
    exact ⟨hsleep.move (by simp), by omega⟩

theorem exists_stuck (hp : p.Invariant s) (hkeeps : p.Keeps act) (hsleepers : Sleepers w s)
    (hspends : ∀ t l data, p.At t l data → Spends v w l data (act t l data)) :
    ∃ n s', Run act s n 0 s' ∧ ∀ s'', ¬ Step act s' s'' := by
  induction hleft : s.left v w using Nat.strong_induction_on generalizing s with
  | _ left ih =>
    by_cases hstuck : ∀ s', ¬ Step act s s'
    · exact ⟨0, s, .start, hstuck⟩
    · push Not at hstuck
      obtain ⟨s', hs⟩ := hstuck
      obtain ⟨hsleepers', hlt⟩ := hs.spends hp hsleepers hspends
      obtain ⟨n, s'', hrun, hend⟩ := ih _ (hleft ▸ hlt) (hp.step hkeeps hs) hsleepers' rfl
      exact ⟨0 + 1 + n, s'', (Run.start.step hs).trans hrun, hend⟩

end Monitor
