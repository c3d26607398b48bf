import HTWGArchive.Library.ThreadSums
import Mathlib.Algebra.Order.Group.Nat
import Mathlib.Data.Fintype.Basic
import Mathlib.Data.Set.Finite.Lemmas

namespace LockOrder

variable {T L M S : Type*}

-- What a thread does next: `L` are its points, `M` the mutexes and `S` the data.
inductive Action (L M S : Type*) where
  | lock (m : M) (next : L)
  | tryLock (m : M) (next failed : L)
  | unlock (m : M) (next : L)
  | work (next : L) (data : S)
  | ended

structure State (T L M S : Type*) where
  shared : S
  owner : M → Option T
  locals : T → L

variable {act : T → L → S → Action L M S} {ok : T → L → Prop} {holds : T → L → M → Prop} 
  {s s' s₀ : State T L M S} {t u : T} {m : M} {l n f : L} {data data' : S}

-- `ok` says at which points a thread can be, and `holds` which mutexes it has there.
def Keeps (ok : T → L → Prop) (holds : T → L → M → Prop) (act : T → L → S → Action L M S) :
    Prop :=
  ∀ t l data, ok t l → match act t l data with
    | .lock m n => ok t n ∧ ∀ k, holds t n k ↔ holds t l k ∨ k = m
    | .tryLock m n f => (ok t n ∧ ∀ k, holds t n k ↔ holds t l k ∨ k = m) ∧
        ok t f ∧ ∀ k, holds t f k ↔ holds t l k
    | .unlock m n => holds t l m ∧ ok t n ∧ ∀ k, holds t n k ↔ holds t l k ∧ k ≠ m
    | .work n _ => ok t n ∧ ∀ k, holds t n k ↔ holds t l k
    | .ended => ∀ k, ¬ holds t l k

theorem Keeps.lock (h : Keeps ok holds act) (hok : ok t l) (hact : act t l data = .lock m n) :
    ok t n ∧ ∀ k, holds t n k ↔ holds t l k ∨ k = m := by
  have hk := h t l data hok
  rwa [hact] at hk

theorem Keeps.tryLock (h : Keeps ok holds act) (hok : ok t l)
    (hact : act t l data = .tryLock m n f) :
    (ok t n ∧ ∀ k, holds t n k ↔ holds t l k ∨ k = m) ∧
      ok t f ∧ ∀ k, holds t f k ↔ holds t l k := by
  have hk := h t l data hok
  rwa [hact] at hk

theorem Keeps.unlock (h : Keeps ok holds act) (hok : ok t l)
    (hact : act t l data = .unlock m n) :
    holds t l m ∧ ok t n ∧ ∀ k, holds t n k ↔ holds t l k ∧ k ≠ m := by
  have hk := h t l data hok
  rwa [hact] at hk

theorem Keeps.work (h : Keeps ok holds act) (hok : ok t l)
    (hact : act t l data = .work n data') : ok t n ∧ ∀ k, holds t n k ↔ holds t l k := by
  have hk := h t l data hok
  rwa [hact] at hk

theorem Keeps.ended (h : Keeps ok holds act) (hok : ok t l) (hact : act t l data = .ended) :
    ∀ k, ¬ holds t l k := by
  have hk := h t l data hok
  rwa [hact] at hk

structure Disciplined (ok : T → L → Prop) (holds : T → L → M → Prop) (s : State T L M S) :
    Prop where
  owned : ∀ m t, s.owner m = some t ↔ holds t (s.locals t) m
  ok : ∀ t, ok t (s.locals t)

theorem Disciplined.exclusive (h : Disciplined ok holds s) (ht : holds t (s.locals t) m)
    (hu : holds u (s.locals u) m) : t = u := by
  have hboth := ((h.owned m t).mpr ht).symm.trans ((h.owned m u).mpr hu)
  exact Option.some.inj hboth

def Waits (act : T → L → S → Action L M S) (s : State T L M S) (t : T) (m : M) : Prop :=
  ∃ n, act t (s.locals t) s.shared = .lock m n

-- Some threads wait for each other and for nobody else.
def CircularWait (act : T → L → S → Action L M S) (s : State T L M S) : Prop :=
  ∃ D : Set T, D.Nonempty ∧ ∀ t ∈ D, ∃ m, Waits act s t m ∧ ∃ u ∈ D, s.owner m = some u

def Ended (act : T → L → S → Action L M S) (s : State T L M S) (t : T) : Prop :=
  act t (s.locals t) s.shared = .ended

-- Whoever is waited for waits, if at all, for a mutex of a higher rank.
theorem not_circularWait [Finite T] (rank : M → ℕ)
    (hrank : ∀ t m u k, Waits act s t m → s.owner m = some u → Waits act s u k →
      rank m < rank k) : ¬ CircularWait act s := by
  rintro ⟨D, ⟨t₀, ht₀⟩, hD⟩
  choose m hwaits u hu howner using hD
  obtain ⟨t, -, hmax⟩ := Set.exists_max_image (Set.univ : Set D) (fun t => rank (m t.1 t.2))
    Set.finite_univ ⟨⟨t₀, ht₀⟩, trivial⟩
  have hlt := hrank t.1 (m t.1 t.2) (u t.1 t.2) (m (u t.1 t.2) (hu t.1 t.2)) (hwaits _ t.2)
    (howner _ t.2) (hwaits _ (hu t.1 t.2))
  have hle := hmax ⟨u t.1 t.2, hu t.1 t.2⟩ trivial
  exact absurd hlt (Nat.not_lt_of_le hle)

-- The threads take their mutexes in one order.
theorem Disciplined.not_circularWait [Finite T] (h : Disciplined ok holds s) (rank : M → ℕ)
    (horder : ∀ t m n k, act t (s.locals t) s.shared = .lock m n → holds t (s.locals t) k →
      rank k < rank m) : ¬ CircularWait act s := by
  refine LockOrder.not_circularWait rank ?_
  rintro t m u k - howner ⟨n, hact⟩
  exact horder u k n m hact ((h.owned m u).mp howner)

-- Every action takes something off what its thread has left to do.
def Spends (ok : T → L → Prop) (cost : L → ℕ) (act : T → L → S → Action L M S) : Prop :=
  ∀ t l data, ok t l → match act t l data with
    | .lock _ n => ok t n ∧ cost n < cost l
    | .tryLock _ n f => (ok t n ∧ cost n < cost l) ∧ ok t f ∧ cost f < cost l
    | .unlock _ n => ok t n ∧ cost n < cost l
    | .work n _ => ok t n ∧ cost n < cost l
    | .ended => True

variable [DecidableEq T]

def State.move (s : State T L M S) (t : T) (l : L) (owner : M → Option T) (data : S) :
    State T L M S :=
  { shared := data
    owner := owner
    locals := Function.update s.locals t l }

@[simp] theorem State.move_self (s : State T L M S) (t : T) (l : L) (owner : M → Option T)
    (data : S) : (s.move t l owner data).locals t = l :=
  Function.update_self _ _ _

theorem State.move_of_ne (s : State T L M S) (h : u ≠ t) (l : L) (owner : M → Option T)
    (data : S) : (s.move t l owner data).locals u = s.locals u :=
  Function.update_of_ne h _ _

theorem ok_move (h : ∀ u, ok u (s.locals u)) (hl : ok t l) (owner : M → Option T) (data : S)
    (u : T) : ok u ((s.move t l owner data).locals u) := by
  rcases eq_or_ne u t with rfl | hne
  · rwa [State.move_self]
  · rw [State.move_of_ne s hne]
    exact h u

theorem Disciplined.move_same (h : Disciplined ok holds s)
    (hsame : ok t l ∧ ∀ k, holds t l k ↔ holds t (s.locals t) k) :
    Disciplined ok holds (s.move t l s.owner data) := by
  refine ⟨fun k u => ?_, ok_move h.ok hsame.1 _ _⟩
  rcases eq_or_ne u t with rfl | hne
  · rw [State.move_self, hsame.2]
    exact h.owned k u
  · rw [State.move_of_ne s hne]
    exact h.owned k u

theorem spends_move [Fintype T] {cost : L → ℕ} (h : ∀ u, ok u (s.locals u))
    (hl : ok t l ∧ cost l < cost (s.locals t)) (owner : M → Option T) (data : S) :
    (∀ u, ok u ((s.move t l owner data).locals u)) ∧
      ∑ u, cost ((s.move t l owner data).locals u) < ∑ u, cost (s.locals u) := by
  refine ⟨ok_move h hl.1 owner data, ?_⟩
  have hsum := ThreadSums.sum_update cost s.locals t l
  have hlt := hl.2
  change ∑ u, cost (Function.update s.locals t l u) < _
  omega

variable [DecidableEq M]

theorem Disciplined.move_lock (h : Disciplined ok holds s) (hfree : s.owner m = none)
    (hmore : ok t l ∧ ∀ k, holds t l k ↔ holds t (s.locals t) k ∨ k = m) :
    Disciplined ok holds (s.move t l (Function.update s.owner m (some t)) data) := by
  refine ⟨fun k u => ?_, ok_move h.ok hmore.1 _ _⟩
  change Function.update s.owner m (some t) k = some u ↔ _
  rcases eq_or_ne k m with rfl | hk
  · rw [Function.update_self]
    rcases eq_or_ne u t with rfl | hne
    · rw [State.move_self, hmore.2]
      simp
    · rw [State.move_of_ne s hne, ← h.owned k u, hfree]
      simp [hne.symm]
  · rw [Function.update_of_ne hk]
    rcases eq_or_ne u t with rfl | hne
    · rw [State.move_self, hmore.2, h.owned k u]
      simp [hk]
    · rw [State.move_of_ne s hne]
      exact h.owned k u

theorem Disciplined.move_unlock (h : Disciplined ok holds s) (hm : holds t (s.locals t) m)
    (hless : ok t l ∧ ∀ k, holds t l k ↔ holds t (s.locals t) k ∧ k ≠ m) :
    Disciplined ok holds (s.move t l (Function.update s.owner m none) data) := by
  refine ⟨fun k u => ?_, ok_move h.ok hless.1 _ _⟩
  change Function.update s.owner m none k = some u ↔ _
  rcases eq_or_ne k m with rfl | hk
  · rw [Function.update_self]
    rcases eq_or_ne u t with rfl | hne
    · rw [State.move_self, hless.2]
      simp
    · rw [State.move_of_ne s hne]
      exact iff_of_false (by simp) (fun hu => hne (h.exclusive hu hm))
  · rw [Function.update_of_ne hk]
    rcases eq_or_ne u t with rfl | hne
    · rw [State.move_self, hless.2, h.owned k u]
      simp [hk]
    · rw [State.move_of_ne s hne]
      exact h.owned k u

inductive Step (act : T → L → S → Action L M S) (s : State T L M S) : State T L M S → Prop where
  | lock {t : T} {m : M} {n : L} : act t (s.locals t) s.shared = .lock m n → s.owner m = none →
      Step act s (s.move t n (Function.update s.owner m (some t)) s.shared)
  | taken {t : T} {m : M} {n f : L} : act t (s.locals t) s.shared = .tryLock m n f →
      s.owner m = none → Step act s (s.move t n (Function.update s.owner m (some t)) s.shared)
  | failed {t u : T} {m : M} {n f : L} : act t (s.locals t) s.shared = .tryLock m n f →
      s.owner m = some u → Step act s (s.move t f s.owner s.shared)
  | unlock {t : T} {m : M} {n : L} : act t (s.locals t) s.shared = .unlock m n →
      Step act s (s.move t n (Function.update s.owner m none) s.shared)
  | work {t : T} {n : L} {data : S} : act t (s.locals t) s.shared = .work n data →
      Step act s (s.move t n s.owner data)

inductive Run (act : T → L → S → Action L M S) (s₀ : State T L M S) :
    ℕ → State T L M S → Prop where
  | start : Run act s₀ 0 s₀
  | step {n : ℕ} {s s' : State T L M S} : Run act s₀ n s → Step act s s' → Run act s₀ (n + 1) s'

variable {k : ℕ}

theorem Disciplined.step (h : Disciplined ok holds s) (hkeeps : Keeps ok holds act)
    (hs : Step act s s') : Disciplined ok holds s' := by
  cases hs with
  | @lock t m n hact hfree => exact h.move_lock hfree (hkeeps.lock (h.ok t) hact)
  | @taken t m n f hact hfree => exact h.move_lock hfree (hkeeps.tryLock (h.ok t) hact).1
  | @failed t u m n f hact _ => exact h.move_same (hkeeps.tryLock (h.ok t) hact).2
  | @unlock t m n hact =>
    have hk := hkeeps.unlock (h.ok t) hact
    exact h.move_unlock hk.1 hk.2
  | @work t n data hact => exact h.move_same (hkeeps.work (h.ok t) hact)

theorem Disciplined.run (h : Disciplined ok holds s₀) (hkeeps : Keeps ok holds act)
    (hrun : Run act s₀ k s) : Disciplined ok holds s := by
  induction hrun with
  | start => exact h
  | step _ hs ih => exact ih.step hkeeps hs

def Stuck (act : T → L → S → Action L M S) (s : State T L M S) : Prop :=
  ∀ s', ¬ Step act s s'

theorem Stuck.waits (h : Stuck act s) (ht : ¬ Ended act s t) :
    ∃ m, Waits act s t m ∧ ∃ u, s.owner m = some u := by
  cases hact : act t (s.locals t) s.shared with
  | lock m n =>
    refine ⟨m, ⟨n, hact⟩, ?_⟩
    cases howner : s.owner m with
    | none => exact absurd (.lock hact howner) (h _)
    | some u => exact ⟨u, rfl⟩
  | tryLock m n f =>
    cases howner : s.owner m with
    | none => exact absurd (.taken hact howner) (h _)
    | some u => exact absurd (.failed hact howner) (h _)
  | unlock m n => exact absurd (.unlock hact) (h _)
  | work n data => exact absurd (.work hact) (h _)
  | ended => exact absurd hact ht

theorem Stuck.ended_or_circular (h : Stuck act s) (hd : Disciplined ok holds s)
    (hkeeps : Keeps ok holds act) : (∀ t, Ended act s t) ∨ CircularWait act s := by
  by_cases hall : ∀ t, Ended act s t
  · exact Or.inl hall
  · obtain ⟨t, ht⟩ := not_forall.mp hall
    refine Or.inr ⟨{t | ¬ Ended act s t}, ⟨t, ht⟩, fun t ht => ?_⟩
    obtain ⟨m, hwaits, u, howner⟩ := h.waits ht
    refine ⟨m, hwaits, u, fun hu => ?_, howner⟩
    exact hkeeps.ended (hd.ok u) hu m ((hd.owned m u).mp howner)

variable [Fintype T] {cost : L → ℕ}

theorem Step.spends (hs : Step act s s') (hok : ∀ u, ok u (s.locals u))
    (h : Spends ok cost act) : (∀ u, ok u (s'.locals u)) ∧
      ∑ u, cost (s'.locals u) < ∑ u, cost (s.locals u) := by
  cases hs with
  | @lock t m n hact _ =>
    have hk := h t (s.locals t) s.shared (hok t)
    rw [hact] at hk
    exact spends_move hok hk _ _
  | @taken t m n f hact _ =>
    have hk := h t (s.locals t) s.shared (hok t)
    rw [hact] at hk
    exact spends_move hok hk.1 _ _
  | @failed t u m n f hact _ =>
    have hk := h t (s.locals t) s.shared (hok t)
    rw [hact] at hk
    exact spends_move hok hk.2 _ _
  | @unlock t m n hact =>
    have hk := h t (s.locals t) s.shared (hok t)
    rw [hact] at hk
    exact spends_move hok hk _ _
  | @work t n data hact =>
    have hk := h t (s.locals t) s.shared (hok t)
    rw [hact] at hk
    exact spends_move hok hk _ _

theorem Run.spends (hrun : Run act s₀ k s) (hok : ∀ u, ok u (s₀.locals u))
    (h : Spends ok cost act) : (∀ u, ok u (s.locals u)) ∧
      k + ∑ u, cost (s.locals u) ≤ ∑ u, cost (s₀.locals u) := by
  induction hrun with
  | start => exact ⟨hok, Nat.le_of_eq (Nat.zero_add _)⟩
  | step hrun hs ih =>
    obtain ⟨hoks, hlt⟩ := hs.spends ih.1 h
    refine ⟨hoks, ?_⟩
    have hle := ih.2
    omega

theorem Run.exists_stuck (hrun : Run act s₀ k s) (hok : ∀ u, ok u (s₀.locals u))
    (h : Spends ok cost act) : ∃ k' s', Run act s₀ k' s' ∧ Stuck act s' := by
  generalize hn : ∑ u, cost (s.locals u) = n
  induction n using Nat.strong_induction_on generalizing k s with
  | _ n ih =>
    by_cases hstuck : Stuck act s
    · exact ⟨k, s, hrun, hstuck⟩
    · obtain ⟨s', hs⟩ := not_forall_not.mp hstuck
      have hlt := (hs.spends (hrun.spends hok h).1 h).2
      exact ih _ (hn ▸ hlt) (hrun.step hs) rfl

end LockOrder
