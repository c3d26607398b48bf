import HTWGArchive.Library.ThreadSums
import Mathlib.Algebra.Order.Group.Nat

namespace Monitor

variable {T L S C : Type*}

-- What a thread does next: `L` are its points, `S` the data that the mutex protects and `C` the
-- condition variables.
inductive Action (T L S C : Type*) where
  | lock (next : L)
  | unlock (next : L)
  | wait (c : C) (next : L)
  | signal (c : C) (next : L)
  | compute (next : L) (data : S)
  | join (u : T) (next : L → L)
  | ended

-- A woken thread returns from its wait once it has the mutex again.
inductive Status (L C : Type*) where
  | running (l : L)
  | asleep (c : C) (l : L)
  | woken (l : L)

def Status.point : Status L C → L
  | .running l => l
  | .asleep _ l => l
  | .woken l => l

def Status.holds (inside : L → Prop) : Status L C → Prop
  | .running l => inside l
  | _ => False

def Status.parked (entry : L → Prop) : Status L C → Prop
  | .running _ => True
  | .asleep _ l => entry l
  | .woken l => entry l

structure State (T L S C : Type*) where
  shared : S
  owner : Option T
  threads : T → Status L C

variable [DecidableEq T]

def State.move (s : State T L S C) (t : T) (status : Status L C) (owner : Option T) (data : S) :
    State T L S C :=
  { shared := data
    owner := owner
    threads := Function.update s.threads t status }

inductive Step (act : T → L → S → Action T L S C) (s : State T L S C) : State T L S C → Prop where
  | lock {t : T} {l n : L} : s.threads t = .running l → act t l s.shared = .lock n →
      s.owner = none → Step act s (s.move t (.running n) (some t) s.shared)
  | unlock {t : T} {l n : L} : s.threads t = .running l → act t l s.shared = .unlock n →
      Step act s (s.move t (.running n) none s.shared)
  | wait {t : T} {l n : L} {c : C} : s.threads t = .running l → act t l s.shared = .wait c n →
      Step act s (s.move t (.asleep c n) none s.shared)
  | wake {t u : T} {l n k : L} {c : C} : s.threads t = .running l →
      act t l s.shared = .signal c n → s.threads u = .asleep c k →
      Step act s ((s.move t (.running n) s.owner s.shared).move u (.woken k) s.owner s.shared)
  | unheard {t : T} {l n : L} {c : C} : s.threads t = .running l →
      act t l s.shared = .signal c n → (∀ u k, s.threads u ≠ .asleep c k) →
      Step act s (s.move t (.running n) s.owner s.shared)
  | compute {t : T} {l n : L} {data : S} : s.threads t = .running l →
      act t l s.shared = .compute n data → Step act s (s.move t (.running n) s.owner data)
  | join {t u : T} {l k : L} {next : L → L} : s.threads t = .running l →
      act t l s.shared = .join u next → s.threads u = .running k → act u k s.shared = .ended →
      Step act s (s.move t (.running (next k)) s.owner s.shared)
  | resume {t : T} {l : L} : s.threads t = .woken l → s.owner = none →
      Step act s (s.move t (.running l) (some t) s.shared)

-- A wait may return although nobody has signalled.
inductive Spurious (s : State T L S C) : State T L S C → Prop where
  | mk {t : T} {c : C} {l : L} : s.threads t = .asleep c l →
      Spurious s (s.move t (.woken l) s.owner s.shared)

-- `n` steps and `k` spurious wakeups.
inductive Run (act : T → L → S → Action T L S C) (s₀ : State T L S C) :
    ℕ → ℕ → State T L S C → Prop where
  | start : Run act s₀ 0 0 s₀
  | step {n k : ℕ} {s s' : State T L S C} : Run act s₀ n k s → Step act s s' →
      Run act s₀ (n + 1) k s'
  | spurious {n k : ℕ} {s s' : State T L S C} : Run act s₀ n k s → Spurious s s' →
      Run act s₀ n (k + 1) s'

-- `good` is what holds of the data whenever the mutex is free, `own` what a thread knows for
-- itself and `knows` what it may rely on while it has the mutex.
structure Spec (T L S : Type*) where
  inside : L → Prop
  good : S → Prop
  own : T → L → S → Prop
  knows : L → S → Prop

def Spec.entry (p : Spec T L S) (l : L) : Prop :=
  p.inside l ∧ ∀ data, p.good data → p.knows l data

def Spec.Allows (p : Spec T L S) (act : T → L → S → Action T L S C) (t : T) (l : L) (data : S) :
    Action T L S C → Prop
  | .lock n => ¬ p.inside l ∧ p.entry n ∧ p.own t n data
  | .unlock n => p.inside l ∧ ¬ p.inside n ∧ p.own t n data
  | .wait _ n => p.inside l ∧ p.entry n ∧ p.own t n data
  | .signal _ n => p.inside l ∧ p.inside n ∧ p.knows n data ∧ p.own t n data
  | .compute n data' => (p.inside n ↔ p.inside l) ∧ (p.inside l ∨ data' = data) ∧ p.good data' ∧
      (p.inside n → p.knows n data') ∧ p.own t n data' ∧
        ∀ u k, u ≠ t → p.own u k data → p.own u k data'
  | .join u next => ¬ p.inside l ∧ ∀ k, act u k data = .ended → p.own u k data →
      ¬ p.inside (next k) ∧ p.own t (next k) data
  | .ended => ¬ p.inside l

-- What a thread at a point may rely on.
structure Spec.At (p : Spec T L S) (t : T) (l : L) (data : S) : Prop where
  good : p.good data
  own : p.own t l data
  knows : p.inside l → p.knows l data

def Spec.Keeps (p : Spec T L S) (act : T → L → S → Action T L S C) : Prop :=
  ∀ t l data, p.At t l data → p.Allows act t l data (act t l data)

structure Spec.Invariant (p : Spec T L S) (s : State T L S C) : Prop where
  holder : ∀ t, (s.threads t).holds p.inside ↔ s.owner = some t
  parked : ∀ t, (s.threads t).parked p.entry
  good : p.good s.shared
  own : ∀ t, p.own t (s.threads t).point s.shared
  knows : ∀ t l, s.threads t = .running l → p.inside l → p.knows l s.shared

variable {p : Spec T L S} {act : T → L → S → Action T L S C} {s s' s₀ : State T L S C} {t : T}
  {l : L}

@[simp] theorem State.move_shared (s : State T L S C) (t : T) (status : Status L C)
    (owner : Option T) (data : S) : (s.move t status owner data).shared = data := rfl

@[simp] theorem State.move_owner (s : State T L S C) (t : T) (status : Status L C)
    (owner : Option T) (data : S) : (s.move t status owner data).owner = owner := rfl

@[simp] theorem State.move_self (s : State T L S C) (t : T) (status : Status L C)
    (owner : Option T) (data : S) : (s.move t status owner data).threads t = status := by
  simp [State.move]

theorem State.move_of_ne (s : State T L S C) {t u : T} (h : u ≠ t) (status : Status L C)
    (owner : Option T) (data : S) : (s.move t status owner data).threads u = s.threads u := by
  simp [State.move, h]

@[simp] theorem State.move_move (s : State T L S C) (t : T) (status status' : Status L C)
    (owner owner' : Option T) (data data' : S) :
    (s.move t status owner data).move t status' owner' data' = s.move t status' owner' data' := by
  simp [State.move]

theorem Run.trans {n k m j : ℕ} {s s' s'' : State T L S C} (h : Run act s n k s')
    (h' : Run act s' m j s'') : Run act s (n + m) (k + j) s'' := by
  induction h' with
  | start => exact h
  | step _ hs ih => exact ih.step hs
  | spurious _ hs ih => exact ih.spurious hs

omit [DecidableEq T] in
theorem Spec.Invariant.at (h : p.Invariant s) (ht : s.threads t = .running l) :
    p.At t l s.shared := by
  refine ⟨h.good, ?_, h.knows t l ht⟩
  have hown := h.own t
  rwa [ht] at hown

omit [DecidableEq T] in
theorem Spec.Invariant.owner_iff (h : p.Invariant s) (ht : s.threads t = .running l) :
    p.inside l ↔ s.owner = some t := by
  have hholder := h.holder t
  rwa [ht] at hholder

theorem Spec.Invariant.move (h : p.Invariant s) {status : Status L C} {owner : Option T} {data : S}
    (hholds : status.holds p.inside ↔ owner = some t)
    (howner : ∀ u, u ≠ t → (s.owner = some u ↔ owner = some u))
    (hparked : status.parked p.entry) (hgood : p.good data) (hown : p.own t status.point data)
    (hknows : ∀ l, status = .running l → p.inside l → p.knows l data)
    (hdata : data = s.shared ∨ s.owner = some t)
    (hstable : ∀ u k, u ≠ t → p.own u k s.shared → p.own u k data) :
    p.Invariant (s.move t status owner data) := by
  refine ⟨?_, ?_, hgood, ?_, ?_⟩
  · intro u
    rcases eq_or_ne u t with rfl | hne
    · rw [State.move_self]
      exact hholds
    · rw [State.move_of_ne s hne]
      exact (h.holder u).trans (howner u hne)
  · intro u
    rcases eq_or_ne u t with rfl | hne
    · rw [State.move_self]
      exact hparked
    · rw [State.move_of_ne s hne]
      exact h.parked u
  · intro u
    rcases eq_or_ne u t with rfl | hne
    · rw [State.move_self]
      exact hown
    · rw [State.move_of_ne s hne]
      exact hstable u _ hne (h.own u)
  · intro u l hu hl
    rcases eq_or_ne u t with rfl | hne
    · rw [State.move_self] at hu
      exact hknows l hu hl
    · rw [State.move_of_ne s hne] at hu
      rcases hdata with rfl | hheld
      · exact h.knows u l hu hl
      · have hheld' := (h.owner_iff hu).mp hl
        rw [hheld] at hheld'
        exact absurd (Option.some.inj hheld').symm hne

-- A step that leaves the data alone.
theorem Spec.Invariant.move_same (h : p.Invariant s) {status : Status L C} {owner : Option T}
    (hholds : status.holds p.inside ↔ owner = some t)
    (howner : ∀ u, u ≠ t → (s.owner = some u ↔ owner = some u))
    (hparked : status.parked p.entry) (hown : p.own t status.point s.shared)
    (hknows : ∀ l, status = .running l → p.inside l → p.knows l s.shared) :
    p.Invariant (s.move t status owner s.shared) :=
  h.move hholds howner hparked h.good hown hknows (Or.inl rfl) (fun _ _ _ hu => hu)

theorem Spec.Invariant.woken (h : p.Invariant s) {c : C} (ht : s.threads t = .asleep c l) :
    p.Invariant (s.move t (.woken l) s.owner s.shared) := by
  have hholder := h.holder t
  have hparked := h.parked t
  have hown := h.own t
  rw [ht] at hholder hparked hown
  exact h.move_same hholder (fun _ _ => Iff.rfl) hparked hown (by simp)

theorem Spec.Invariant.entered (h : p.Invariant s) (hfree : s.owner = none) (hentry : p.entry l)
    (hown : p.own t l s.shared) : p.Invariant (s.move t (.running l) (some t) s.shared) := by
  refine h.move_same ?_ ?_ trivial hown ?_
  · exact ⟨fun _ => rfl, fun _ => hentry.1⟩
  · intro u hne
    simp [hfree, hne.symm]
  · intro k hk _
    cases hk
    exact hentry.2 _ h.good

theorem Spec.Invariant.step (h : p.Invariant s) (hkeeps : p.Keeps act) (hs : Step act s s') :
    p.Invariant s' := by
  cases hs with
  | lock ht hact hfree =>
    have hallows := hkeeps _ _ _ (h.at ht)
    rw [hact] at hallows
    exact h.entered hfree hallows.2.1 hallows.2.2
  | @unlock t l n ht hact =>
    have hallows := hkeeps _ _ _ (h.at ht)
    rw [hact] at hallows
    obtain ⟨hin, hout, hown⟩ := hallows
    have hheld := (h.owner_iff ht).mp hin
    refine h.move_same ?_ ?_ trivial hown ?_
    · exact ⟨fun hn => absurd hn hout, fun hn => absurd hn.symm (Option.some_ne_none t)⟩
    · intro u hne
      simp [hheld, hne.symm]
    · intro k hk hn
      cases hk
      exact absurd hn hout
  | @wait t l n c ht hact =>
    have hallows := hkeeps _ _ _ (h.at ht)
    rw [hact] at hallows
    obtain ⟨hin, hentry, hown⟩ := hallows
    have hheld := (h.owner_iff ht).mp hin
    refine h.move_same ?_ ?_ hentry hown (by simp)
    · exact ⟨fun hn => hn.elim, fun hn => absurd hn.symm (Option.some_ne_none t)⟩
    · intro u hne
      simp [hheld, hne.symm]
  | @wake t u l n k c ht hact hu =>
    have hallows := hkeeps _ _ _ (h.at ht)
    rw [hact] at hallows
    obtain ⟨hin, hin', hknows, hown⟩ := hallows
    have hheld := (h.owner_iff ht).mp hin
    have hmoved : p.Invariant (s.move t (.running n) s.owner s.shared) := by
      refine h.move_same ?_ (fun _ _ => Iff.rfl) trivial hown ?_
      · exact ⟨fun _ => hheld, fun _ => hin'⟩
      · intro k hk _
        cases hk
        exact hknows
    have hne : u ≠ t := by
      rintro rfl
      rw [ht] at hu
      cases hu
    exact hmoved.woken ((State.move_of_ne s hne _ _ _).trans hu)
  | @unheard t l n c ht hact hnone =>
    have hallows := hkeeps _ _ _ (h.at ht)
    rw [hact] at hallows
    obtain ⟨hin, hin', hknows, hown⟩ := hallows
    have hheld := (h.owner_iff ht).mp hin
    refine h.move_same ?_ (fun _ _ => Iff.rfl) trivial hown ?_
    · exact ⟨fun _ => hheld, fun _ => hin'⟩
    · intro k hk _
      cases hk
      exact hknows
  | @compute t l n data ht hact =>
    have hallows := hkeeps _ _ _ (h.at ht)
    rw [hact] at hallows
    obtain ⟨hsame, hdata, hgood, hknows, hown, hstable⟩ := hallows
    refine h.move (hsame.trans (h.owner_iff ht)) (fun _ _ => Iff.rfl) trivial hgood hown ?_ ?_
      hstable
    · intro k hk
      cases hk
      exact hknows
    · exact hdata.symm.imp id (fun hin => (h.owner_iff ht).mp hin)
  | @join t u l k next ht hact hu hended =>
    have hallows := hkeeps _ _ _ (h.at ht)
    rw [hact] at hallows
    obtain ⟨hout, hnext⟩ := hallows
    obtain ⟨hout', hown⟩ := hnext k hended (h.at hu).own
    refine h.move_same ?_ (fun _ _ => Iff.rfl) trivial hown ?_
    · exact ⟨fun hn => absurd hn hout', fun hn => absurd ((h.owner_iff ht).mpr hn) hout⟩
    · intro k hk hn
      cases hk
      exact absurd hn hout'
  | @resume t l ht hfree =>
    have hparked := h.parked t
    have hown := h.own t
    rw [ht] at hparked hown
    exact h.entered hfree hparked hown

theorem Spec.Invariant.run (hinit : p.Invariant s₀) (hkeeps : p.Keeps act) {n k : ℕ}
    (h : Run act s₀ n k s) : p.Invariant s := by
  induction h with
  | start => exact hinit
  | step _ hs ih => exact ih.step hkeeps hs
  | spurious _ hs ih =>
    obtain ⟨ht⟩ := hs
    exact ih.woken ht

-- A thread that cannot go on by itself.
def Idle (act : T → L → S → Action T L S C) (s : State T L S C) (t : T) : Prop :=
  (∃ c l, s.threads t = .asleep c l) ∨
    ∃ l, s.threads t = .running l ∧ (act t l s.shared = .ended ∨ ∃ u next,
      act t l s.shared = .join u next ∧ ∀ k, s.threads u = .running k → act u k s.shared ≠ .ended)

theorem Spec.Invariant.free_of_stuck (h : p.Invariant s) (hkeeps : p.Keeps act)
    (hstuck : ∀ s', ¬ Step act s s') : s.owner = none := by
  cases howner : s.owner with
  | none => rfl
  | some t =>
    have hholds := (h.holder t).mpr howner
    cases ht : s.threads t with
    | asleep c l =>
      rw [ht] at hholds
      exact hholds.elim
    | woken l =>
      rw [ht] at hholds
      exact hholds.elim
    | running l =>
      rw [ht] at hholds
      have hallows := hkeeps _ _ _ (h.at ht)
      cases hact : act t l s.shared with
      | lock n =>
        rw [hact] at hallows
        exact absurd hholds hallows.1
      | unlock n => exact absurd (Step.unlock ht hact) (hstuck _)
      | wait c n => exact absurd (Step.wait ht hact) (hstuck _)
      | signal c n =>
        by_cases hnone : ∀ u k, s.threads u ≠ .asleep c k
        · exact absurd (Step.unheard ht hact hnone) (hstuck _)
        · push Not at hnone
          obtain ⟨u, k, hu⟩ := hnone
          exact absurd (Step.wake ht hact hu) (hstuck _)
      | compute n data => exact absurd (Step.compute ht hact) (hstuck _)
      | join u next =>
        rw [hact] at hallows
        exact absurd hholds hallows.1
      | ended =>
        rw [hact] at hallows
        exact absurd hholds hallows

theorem Spec.Invariant.idle_of_stuck (h : p.Invariant s) (hkeeps : p.Keeps act)
    (hstuck : ∀ s', ¬ Step act s s') (t : T) : Idle act s t := by
  have hfree := h.free_of_stuck hkeeps hstuck
  cases ht : s.threads t with
  | asleep c l => exact Or.inl ⟨c, l, ht⟩
  | woken l => exact absurd (Step.resume ht hfree) (hstuck _)
  | running l =>
    refine Or.inr ⟨l, ht, ?_⟩
    have hallows := hkeeps _ _ _ (h.at ht)
    have hout : ¬ p.inside l := by
      rw [h.owner_iff ht, hfree]
      exact (Option.some_ne_none t).symm
    cases hact : act t l s.shared with
    | lock n => exact absurd (Step.lock ht hact hfree) (hstuck _)
    | unlock n =>
      rw [hact] at hallows
      exact absurd hallows.1 hout
    | wait c n =>
      rw [hact] at hallows
      exact absurd hallows.1 hout
    | signal c n =>
      rw [hact] at hallows
      exact absurd hallows.1 hout
    | compute n data => exact absurd (Step.compute ht hact) (hstuck _)
    | join u next =>
      refine Or.inr ⟨u, next, rfl, ?_⟩
      intro k hu hended
      exact hstuck _ (Step.join ht hact hu hended)
    | ended => exact Or.inl rfl

end Monitor
