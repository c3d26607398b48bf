import HTWGArchive.Library.Wakeups
import HTWGArchive.Library.Interleaving
import Mathlib.Algebra.Order.Group.Int

namespace Zemaphore

open Monitor

inductive Call where
  | zemWait
  | zemPost
  deriving DecidableEq, Repr

-- A thread carries the calls that it has still to make; `value` is all that the mutex protects.
inductive Local where
  | lock (calls : List Call)
  | test (rest : List Call)
  | decrement (rest : List Call)
  | increment (rest : List Call)
  | signal (rest : List Call)
  | unlock (rest : List Call)

variable {T : Type*}

def act (_ : T) : Local → ℤ → Action T Local ℤ Unit
  | .lock [], _ => .ended
  | .lock (.zemWait :: rest), _ => .lock (.test rest)
  | .lock (.zemPost :: rest), _ => .lock (.increment rest)
  | .test rest, value =>
    if value ≤ 0 then .wait () (.test rest) else .compute (.decrement rest) value
  | .decrement rest, value => .compute (.unlock rest) (value - 1)
  | .increment rest, value => .compute (.signal rest) (value + 1)
  | .signal rest, _ => .signal () (.unlock rest)
  | .unlock rest, _ => .unlock (.lock rest)

-- The semaphore as its callers see it: each call happens at once.
def step : List Call → ℤ → Option (List Call × ℤ)
  | [], _ => none
  | .zemWait :: rest, value => if value ≤ 0 then none else some (rest, value - 1)
  | .zemPost :: rest, value => some (rest, value + 1)

def quiet (a : Interleaving.State T (List Call) ℤ) : State T Local ℤ Unit where
  shared := a.shared
  owner := none
  threads t := .running (.lock (a.locals t))

-- A call has happened once the value has changed.
def Local.pending : Local → List Call
  | .lock calls => calls
  | .test rest => .zemWait :: rest
  | .decrement rest => .zemWait :: rest
  | .increment rest => .zemPost :: rest
  | .signal rest => rest
  | .unlock rest => rest

def abstract (s : State T Local ℤ Unit) : Interleaving.State T (List Call) ℤ :=
  ⟨s.shared, fun t => (s.threads t).point.pending⟩

def spec (T : Type*) : Spec T Local ℤ where
  inside
    | .lock _ => False
    | _ => True
  good _ := True
  own _ _ _ := True
  knows
    | .decrement _, value => 0 < value
    | _, _ => True

def account : Account Local ℤ where
  stock value := value.toNat
  credit
    | .test _ => 1
    | .decrement _ => 1
    | .signal _ => 1
    | _ => 0
  rests l := ∃ rest, l = .test rest
  credit_pos := by
    rintro l ⟨rest, rfl⟩
    exact Nat.le_refl 1

def Local.left : Local → ℕ
  | .lock calls => 6 * calls.length
  | .test rest => 6 * rest.length + 3
  | .decrement rest => 6 * rest.length + 2
  | .increment rest => 6 * rest.length + 5
  | .signal rest => 6 * rest.length + 4
  | .unlock rest => 6 * rest.length + 1

theorem keeps : (spec T).Keeps act := by
  intro t l value h
  cases l with
  | lock calls =>
    rcases calls with - | ⟨- | -, rest⟩
    · exact id
    · exact ⟨id, ⟨trivial, fun _ _ => trivial⟩, trivial⟩
    · exact ⟨id, ⟨trivial, fun _ _ => trivial⟩, trivial⟩
  | test rest =>
    simp only [act]
    split
    · exact ⟨trivial, ⟨trivial, fun _ _ => trivial⟩, trivial⟩
    · rename_i hpos
      refine ⟨Iff.rfl, Or.inl trivial, trivial, fun _ => ?_, trivial, fun _ _ _ _ => trivial⟩
      exact Int.not_le.mp hpos
  | decrement rest =>
    exact ⟨Iff.rfl, Or.inl trivial, trivial, fun _ => trivial, trivial, fun _ _ _ _ => trivial⟩
  | increment rest =>
    exact ⟨Iff.rfl, Or.inl trivial, trivial, fun _ => trivial, trivial, fun _ _ _ _ => trivial⟩
  | signal rest => exact ⟨trivial, trivial, trivial, trivial⟩
  | unlock rest => exact ⟨trivial, id, trivial⟩

theorem wakes (t : T) (l : Local) (value : ℤ) (h : (spec T).At t l value) :
    Wakes () account l value (act t l value) := by
  cases l with
  | lock calls =>
    rcases calls with - | ⟨- | -, rest⟩
    · trivial
    · exact Nat.zero_le _
    · exact Nat.zero_le _
  | test rest =>
    simp only [act]
    split
    · rename_i hnone
      exact ⟨Int.toNat_of_nonpos hnone, rest, rfl⟩
    · exact Nat.le_refl _
  | decrement rest =>
    have hpos : 0 < value := h.knows trivial
    simp only [Wakes, act, account]
    omega
  | increment rest =>
    simp only [Wakes, act, account]
    omega
  | signal rest => exact Nat.le_refl 1
  | unlock rest => exact Nat.le_refl 0

theorem spends (t : T) (l : Local) (value : ℤ) :
    Spends (fun _ => 0) Local.left l value (act t l value) := by
  cases l with
  | lock calls =>
    rcases calls with - | ⟨- | -, rest⟩
    · trivial
    · simp only [Spends, act, Local.left, List.length_cons]
      omega
    · simp only [Spends, act, Local.left, List.length_cons]
      omega
  | test rest =>
    simp only [act]
    split
    · simp only [Spends, Local.left]
      omega
    · simp only [Spends, Local.left]
      omega
  | _ =>
    simp only [Spends, act, Local.left]
    omega

theorem invariant_quiet (a : Interleaving.State T (List Call) ℤ) :
    (spec T).Invariant (quiet a) := by
  refine ⟨?_, fun _ => trivial, trivial, fun _ => trivial, ?_⟩
  · intro t
    exact iff_of_false id (Option.some_ne_none t).symm
  · intro t l ht hin
    cases ht
    exact hin.elim

-- Only the two statements that change the value make a call happen.
theorem pending_compute {t : T} {l n : Local} {value value' : ℤ} (h : (spec T).At t l value)
    (hact : act t l value = .compute n value') :
    (value' = value ∧ n.pending = l.pending) ∨ step l.pending value = some (n.pending, value') := by
  cases l with
  | lock calls => rcases calls with - | ⟨- | -, rest⟩ <;> cases hact
  | test rest =>
    simp only [act] at hact
    split at hact
    · cases hact
    · cases hact
      exact Or.inl ⟨rfl, rfl⟩
  | decrement rest =>
    cases hact
    have hpos : 0 < value := h.knows trivial
    exact Or.inr (if_neg (not_le.mpr hpos))
  | increment rest =>
    cases hact
    exact Or.inr rfl
  | signal rest => cases hact
  | unlock rest => cases hact

theorem pending_kept {t : T} {l n : Local} {value : ℤ} (h : act t l value = .lock n ∨
    act t l value = .unlock n ∨ act t l value = .wait () n ∨ act t l value = .signal () n) :
    n.pending = l.pending := by
  cases l with
  | lock calls =>
    rcases calls with - | ⟨- | -, rest⟩
    · rcases h with h | h | h | h <;> cases h
    · rcases h with h | h | h | h <;> cases h
      rfl
    · rcases h with h | h | h | h <;> cases h
      rfl
  | test rest =>
    simp only [act] at h
    split at h
    · rcases h with h | h | h | h <;> cases h
      rfl
    · rcases h with h | h | h | h <;> cases h
  | decrement rest => rcases h with h | h | h | h <;> cases h
  | increment rest => rcases h with h | h | h | h <;> cases h
  | signal rest =>
    rcases h with h | h | h | h <;> cases h
    rfl
  | unlock rest =>
    rcases h with h | h | h | h <;> cases h
    rfl

variable [DecidableEq T] {s s' : State T Local ℤ Unit} {a : Interleaving.State T (List Call) ℤ}

theorem abstract_move (s : State T Local ℤ Unit) (t : T) (status : Status Local Unit)
    (owner : Option T) (value : ℤ) :
    abstract (s.move t status owner value) =
      (abstract s).set t (status.point.pending, value) := by
  refine congrArg (Interleaving.State.mk value) (funext fun u => ?_)
  rcases eq_or_ne u t with rfl | hne
  · simp
  · simp [State.move_of_ne s hne, hne, abstract]

theorem abstract_move_same {t : T} {status : Status Local Unit} {owner : Option T}
    (h : status.point.pending = (s.threads t).point.pending) :
    abstract (s.move t status owner s.shared) = abstract s := by
  rw [abstract_move, h]
  exact Interleaving.State.set_self (abstract s) t

theorem abstract_step (hinv : (spec T).Invariant s) (h : Step act s s') :
    abstract s' = abstract s ∨ Interleaving.Step step (abstract s) (abstract s') := by
  cases h with
  | @lock t l n ht hact =>
    refine Or.inl (abstract_move_same ?_)
    rw [ht]
    exact pending_kept (Or.inl hact)
  | @unlock t l n ht hact =>
    refine Or.inl (abstract_move_same ?_)
    rw [ht]
    exact pending_kept (Or.inr (Or.inl hact))
  | @wait t l n c ht hact =>
    refine Or.inl (abstract_move_same ?_)
    rw [ht]
    exact pending_kept (Or.inr (Or.inr (Or.inl hact)))
  | @wake t u l n k c ht hact hu =>
    have hne : u ≠ t := by
      rintro rfl
      rw [ht] at hu
      cases hu
    have hwoken := @abstract_move_same _ _ (s.move t (.running n) s.owner s.shared) u (.woken k)
      s.owner (by rw [State.move_of_ne s hne, hu]; rfl)
    refine Or.inl (hwoken.trans (abstract_move_same ?_))
    rw [ht]
    exact pending_kept (Or.inr (Or.inr (Or.inr hact)))
  | @unheard t l n c ht hact =>
    refine Or.inl (abstract_move_same ?_)
    rw [ht]
    exact pending_kept (Or.inr (Or.inr (Or.inr hact)))
  | @compute t l n value ht hact =>
    rcases pending_compute (hinv.at ht) hact with ⟨rfl, hsame⟩ | hstep
    · refine Or.inl (abstract_move_same ?_)
      rw [ht]
      exact hsame
    · refine Or.inr ⟨t, (n.pending, value), ?_, abstract_move s t _ _ _⟩
      simp only [abstract, ht]
      exact hstep
  | @join t u l k next ht hact =>
    cases l with
    | lock calls => rcases calls with - | ⟨- | -, rest⟩ <;> cases hact
    | test rest =>
      simp only [act] at hact
      split at hact <;> cases hact
    | _ => cases hact
  | @resume t l ht =>
    refine Or.inl (abstract_move_same ?_)
    rw [ht]
    rfl

theorem abstract_run {n k : ℕ} (h : Run act (quiet a) n k s) :
    Interleaving.Reachable step a (abstract s) := by
  induction h with
  | start => exact Relation.ReflTransGen.refl
  | step hrun hs ih =>
    rcases abstract_step ((invariant_quiet a).run keeps hrun) hs with heq | hnext
    · rw [heq]
      exact ih
    · exact ih.tail hnext
  | spurious hrun hs ih =>
    obtain ⟨ht⟩ := hs
    rw [abstract_move_same (by rw [ht]; rfl)]
    exact ih

theorem quiet_step {a' : Interleaving.State T (List Call) ℤ}
    (h : Interleaving.Step step a a') : ∃ n, Run act (quiet a) n 0 (quiet a') := by
  obtain ⟨t, ⟨calls, value⟩, hstep, rfl⟩ := h
  have hquiet : (quiet a).move t (.running (.lock calls)) none value =
      quiet (a.set t (calls, value)) := by
    refine congrArg (State.mk value none) (funext fun u => ?_)
    rcases eq_or_ne u t with rfl | hne
    · simp
    · simp [hne, quiet, Interleaving.State.set_locals_of_ne a hne]
  have hthread : (quiet a).threads t = .running (.lock (a.locals t)) := rfl
  rcases hcalls : a.locals t with - | ⟨- | -, rest⟩
  · rw [hcalls] at hstep
    cases hstep
  · rw [hcalls] at hstep hthread
    simp only [step] at hstep
    split at hstep
    · cases hstep
    · rename_i hpos
      cases hstep
      have hlock : Step act (quiet a) _ := .lock hthread rfl rfl
      have htest := (Run.start.step hlock).step (.compute (State.move_self _ t _ _ _) (if_neg hpos))
      have hdecrement := htest.step (.compute (State.move_self _ t _ _ _) rfl)
      have hunlock := hdecrement.step (.unlock (State.move_self _ t _ _ _) rfl)
      simp only [State.move_move, State.move_shared] at hunlock
      exact ⟨_, hquiet ▸ hunlock⟩
  · rw [hcalls] at hstep hthread
    cases hstep
    have hlock : Step act (quiet a) _ := .lock hthread rfl rfl
    have hincrement := (Run.start.step hlock).step (.compute (State.move_self _ t _ _ _) rfl)
    have hsignal := hincrement.step (.unheard (State.move_self _ t _ _ _) rfl ?_)
    · have hunlock := hsignal.step (.unlock (State.move_self _ t _ _ _) rfl)
      simp only [State.move_move, State.move_shared] at hunlock
      exact ⟨_, hquiet ▸ hunlock⟩
    · intro u k hu
      rcases asleep_of_move hu with hold | hnew
      · rcases asleep_of_move hold with hold | hnew
        · cases hold
        · cases hnew
      · cases hnew

theorem quiet_reachable {a' : Interleaving.State T (List Call) ℤ}
    (h : Interleaving.Reachable step a a') : ∃ n, Run act (quiet a) n 0 (quiet a') := by
  induction h with
  | refl => exact ⟨0, .start⟩
  | tail _ hs ih =>
    obtain ⟨n, hrun⟩ := ih
    obtain ⟨m, hnext⟩ := quiet_step hs
    exact ⟨n + m, hrun.trans hnext⟩

def Blocked (a : Interleaving.State T (List Call) ℤ) : Prop :=
  ∀ t, step (a.locals t) a.shared = none

omit [DecidableEq T] in
theorem act_ended {t : T} {l : Local} {value : ℤ} (h : act t l value = .ended) : l = .lock [] := by
  cases l with
  | lock calls =>
    rcases calls with - | ⟨- | -, rest⟩
    · rfl
    · cases h
    · cases h
  | test rest =>
    simp only [act] at h
    split at h <;> cases h
  | _ => cases h

omit [DecidableEq T] in
theorem act_ne_join {t u : T} {l : Local} {value : ℤ} {next : Local → Local} :
    act t l value ≠ .join u next := by
  intro h
  cases l with
  | lock calls => rcases calls with - | ⟨- | -, rest⟩ <;> cases h
  | test rest =>
    simp only [act] at h
    split at h <;> cases h
  | _ => cases h

variable [Fintype T]

omit [DecidableEq T] in
theorem awake_quiet (a : Interleaving.State T (List Call) ℤ) : Awake () account (quiet a) := by
  have hrunning : ∀ t l, (quiet a).threads t ≠ .asleep () l := by
    intro t l ht
    cases ht
  refine ⟨fun t l ht => absurd ht (hrunning t l), ?_⟩
  rintro ⟨t, l, ht⟩
  exact absurd ht (hrunning t l)

omit [DecidableEq T] [Fintype T] in
theorem sleepers_quiet (a : Interleaving.State T (List Call) ℤ) :
    Sleepers Local.left (quiet a) := by
  intro t c l ht
  cases ht

-- No wakeup is lost: whoever still sleeps could not go on with the value as it is.
theorem blocked_of_stuck {n k : ℕ} (h : Run act (quiet a) n k s)
    (hstuck : ∀ s', ¬ Step act s s') : Blocked (abstract s) := by
  have hinv := (invariant_quiet a).run keeps h
  have hawake := (awake_quiet a).run (invariant_quiet a) keeps wakes h
  have hidle := hinv.idle_of_stuck keeps hstuck
  have hcredit : ∑ t, (s.threads t).credit account.credit = 0 := by
    apply Finset.sum_eq_zero
    intro t _
    rcases hidle t with ⟨c, l, ht⟩ | ⟨l, ht, hended | ⟨u, next, hjoin, -⟩⟩
    · rw [ht]
      rfl
    · rw [ht, act_ended hended]
      rfl
    · exact absurd hjoin act_ne_join
  intro t
  rcases hidle t with ⟨⟨⟩, l, ht⟩ | ⟨l, ht, hended | ⟨u, next, hjoin, -⟩⟩
  · obtain ⟨rest, rfl⟩ := hawake.rests t l ht
    have hle : s.shared.toNat ≤ 0 := (hawake.covered ⟨t, _, ht⟩).trans_eq hcredit
    have hvalue : s.shared ≤ 0 := by omega
    simp only [abstract, ht]
    exact if_pos hvalue
  · obtain rfl := act_ended hended
    simp only [abstract, ht]
    rfl
  · exact absurd hjoin act_ne_join

omit [Fintype T] in
theorem eq_of_blocked {a' : Interleaving.State T (List Call) ℤ} (hblocked : Blocked a)
    (h : Interleaving.Reachable step a a') : a' = a := by
  induction h with
  | refl => rfl
  | tail _ hs ih =>
    obtain ⟨t, x, hx, -⟩ := hs
    rw [ih, hblocked t] at hx
    cases hx

omit [DecidableEq T] in
theorem left_quiet (a : Interleaving.State T (List Call) ℤ) :
    (quiet a).left (fun _ => 0) Local.left = ∑ t, 6 * (a.locals t).length :=
  Nat.zero_add _

end Zemaphore
