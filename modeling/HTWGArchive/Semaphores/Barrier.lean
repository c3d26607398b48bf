import HTWGArchive.Library.ThreadSums

namespace Barrier

open Interleaving Semaphore

structure Shared where
  s : ℕ
  m : ℕ
  n : Int
  deriving DecidableEq, Repr

-- The mutex is free again once `n` has been set.
def Shared.init (n : Int) : Shared :=
  { s := 0, m := 1, n := n }

-- A point is named after the statement the thread executes next.
inductive At where
  | outside
  | waitM
  | loadN
  | storeN (loaded : Int)
  | postM
  | test
  | postZero
  | getvalue
  | waitS
  | postS
  | returned
  deriving DecidableEq, Repr

def step : At → Shared → Option (At × Shared)
  | .outside, b => some (.waitM, b)
  | .waitM, b => (wait b.m).map fun m => (.loadN, { b with m := m })
  | .loadN, b => some (.storeN b.n, b)
  | .storeN loaded, b => some (.postM, { b with n := loaded - 1 })
  | .postM, b => some (.test, { b with m := post b.m })
  | .test, b => if b.n = 0 then some (.postZero, b) else some (.getvalue, b)
  | .postZero, b => some (.returned, { b with s := post b.s })
  | .getvalue, b => some (.waitS, b)
  | .waitS, b => (wait b.s).map fun s => (.postS, { b with s := s })
  | .postS, b => some (.returned, { b with s := post b.s })
  | .returned, _ => none

def At.hasMutex : At → Bool
  | .loadN | .storeN _ | .postM => true
  | _ => false

def At.decremented : At → Bool
  | .outside | .waitM | .loadN | .storeN _ => false
  | _ => true

-- The thread has seen that all have come, or will see it if it is the last.
def At.carries : At → Bool
  | .postM | .test | .postZero | .postS => true
  | _ => false

def At.released : At → Bool
  | .postZero | .postS | .returned => true
  | _ => false

def At.pending (l : At) : ℕ :=
  if l.decremented then 0 else 1

theorem step_uses {l l' : At} {b b' : Shared} (h : step l b = some (l', b')) :
    Uses (fun l => At.hasMutex l = true) b.m b'.m l l' := by
  cases l with
  | waitM =>
    obtain ⟨m, hm, heq⟩ := Option.map_eq_some_iff.mp h
    cases heq
    exact Or.inl ⟨hm, rfl⟩
  | waitS =>
    obtain ⟨s, -, heq⟩ := Option.map_eq_some_iff.mp h
    cases heq
    exact Or.inr (Or.inr ⟨rfl, by simp [At.hasMutex]⟩)
  | postM =>
    cases h
    exact Or.inr (Or.inl ⟨rfl, rfl, by simp [At.hasMutex]⟩)
  | test =>
    rw [step] at h
    split at h
    all_goals
      cases h
      exact Or.inr (Or.inr ⟨rfl, by simp [At.hasMutex]⟩)
  | returned => cases h
  | _ =>
    cases h
    exact Or.inr (Or.inr ⟨rfl, by simp [At.hasMutex]⟩)

theorem step_n {l l' : At} {b b' : Shared} (h : step l b = some (l', b')) :
    (b'.n = b.n ∧ l'.pending = l.pending) ∨
      ∃ loaded, l = .storeN loaded ∧ l' = .postM ∧ b'.n = loaded - 1 ∧ b'.s = b.s := by
  cases l with
  | waitM =>
    obtain ⟨m, -, heq⟩ := Option.map_eq_some_iff.mp h
    cases heq
    exact Or.inl ⟨rfl, rfl⟩
  | waitS =>
    obtain ⟨s, -, heq⟩ := Option.map_eq_some_iff.mp h
    cases heq
    exact Or.inl ⟨rfl, rfl⟩
  | storeN loaded =>
    cases h
    exact Or.inr ⟨loaded, rfl, rfl, rfl, rfl⟩
  | test =>
    rw [step] at h
    split at h
    all_goals
      cases h
      exact Or.inl ⟨rfl, rfl⟩
  | returned => cases h
  | _ =>
    cases h
    exact Or.inl ⟨rfl, rfl⟩

theorem step_loaded {l l' : At} {b b' : Shared} (h : step l b = some (l', b')) {n : Int}
    (hn : l' = .storeN n) : n = b'.n := by
  subst hn
  cases l with
  | loadN =>
    cases h
    rfl
  | test =>
    rw [step] at h
    split at h
    all_goals cases h
  | _ => simp [step] at h

theorem step_early {l l' : At} {b b' : Shared} (h : step l b = some (l', b'))
    (hfree : 0 < b'.s ∨ l'.released) : (0 < b.s ∨ l.released) ∨ b.n = 0 := by
  cases l with
  | waitM =>
    obtain ⟨m, -, heq⟩ := Option.map_eq_some_iff.mp h
    cases heq
    exact Or.inl (hfree.imp_right (by simp [At.released]))
  | waitS =>
    obtain ⟨s, hs, -⟩ := Option.map_eq_some_iff.mp h
    unfold wait at hs
    split at hs
    · rename_i hpos
      exact Or.inl (Or.inl hpos)
    · cases hs
  | test =>
    rw [step] at h
    split at h
    · rename_i hzero
      exact Or.inr hzero
    · cases h
      exact Or.inl (hfree.imp_right (by simp [At.released]))
  | postZero => exact Or.inl (Or.inr rfl)
  | postS => exact Or.inl (Or.inr rfl)
  | returned => cases h
  | _ =>
    cases h
    exact Or.inl (hfree.imp_right (by simp [At.released]))

-- Once all have come the semaphore is positive or somebody is about to raise it.
theorem step_token {l l' : At} {b b' : Shared} (h : step l b = some (l', b')) (hn : b.n = 0)
    (htoken : 0 < b.s ∨ l.carries) : 0 < b'.s ∨ l'.carries := by
  cases l with
  | waitM =>
    obtain ⟨m, -, heq⟩ := Option.map_eq_some_iff.mp h
    cases heq
    exact htoken.imp_right (by simp [At.carries])
  | waitS =>
    obtain ⟨s, -, heq⟩ := Option.map_eq_some_iff.mp h
    cases heq
    exact Or.inr rfl
  | test =>
    rw [step, if_pos hn] at h
    cases h
    exact Or.inr rfl
  | postM =>
    cases h
    exact Or.inr rfl
  | postZero =>
    cases h
    exact Or.inl (Nat.succ_pos b.s)
  | postS =>
    cases h
    exact Or.inl (Nat.succ_pos b.s)
  | returned => cases h
  | _ =>
    cases h
    exact htoken.imp_right (by simp [At.carries])

-- Nothing else can hold a thread up.
theorem step_waits {l : At} {b : Shared} (h : step l b = none) :
    l = .waitM ∧ b.m = 0 ∨ l = .waitS ∧ b.s = 0 ∨ l = .returned := by
  cases l with
  | waitM => simpa [step, wait] using h
  | waitS => simpa [step, wait] using h
  | returned => simp
  | test =>
    rw [step] at h
    split at h
    all_goals cases h
  | _ => cases h

variable {T : Type*} [Fintype T]

def start (T : Type*) [Fintype T] : State T At Shared :=
  ⟨Shared.init (Fintype.card T), fun _ => .outside⟩

structure Inv (s : State T At Shared) : Prop where
  mutex : Guards (fun l => At.hasMutex l = true) s.shared.m s.locals
  loaded : ∀ t n, s.locals t = .storeN n → n = s.shared.n
  count : s.shared.n = (∑ t, (s.locals t).pending : ℕ)
  early : (0 < s.shared.s ∨ ∃ t, (s.locals t).released) → s.shared.n = 0
  token : s.shared.n = 0 → 0 < s.shared.s ∨ ∃ t, (s.locals t).carries

theorem inv_start [Nonempty T] : Inv (start T) where
  mutex := Or.inl ⟨rfl, by simp [start, At.hasMutex]⟩
  loaded t n h := by cases h
  count := by simp [start, Shared.init, At.pending, At.decremented]
  early h := by simp [start, Shared.init, At.released] at h
  token h := absurd h (by simp [start, Shared.init])

variable {s : State T At Shared} {t : T} {x : At × Shared}

-- While a thread is still to come, nobody has got past the semaphore.
theorem Inv.storing (h : Inv s) {loaded : Int} (ht : s.locals t = .storeN loaded) :
    s.shared.n ≠ 0 := by
  have hpending := ThreadSums.le_sum At.pending s.locals t
  rw [ht, show At.pending (.storeN loaded) = 1 from rfl] at hpending
  rw [h.count]
  omega

theorem Inv.all_decremented (h : Inv s) (hn : s.shared.n = 0) (t : T) :
    (s.locals t).decremented := by
  have hpending := ThreadSums.le_sum At.pending s.locals t
  rw [h.count] at hn
  unfold At.pending at hpending hn
  split at hpending
  · assumption
  · omega

-- If all threads were held up, the mutex would be free, all would have counted down, and the
-- semaphore would be positive.
theorem Inv.moves (h : Inv s) (ht : s.locals t ≠ .returned) :
    ∃ t x, step (s.locals t) s.shared = some x := by
  by_contra hstuck
  have hwaits : ∀ u, step (s.locals u) s.shared = none := by
    intro u
    rw [Option.eq_none_iff_forall_ne_some]
    exact fun x hx => hstuck ⟨u, x, hx⟩
  have hfree : s.shared.m = 1 := by
    rcases h.mutex with ⟨hm, -⟩ | ⟨-, u, hu, -⟩
    · exact hm
    · rcases step_waits (hwaits u) with ⟨hl, -⟩ | ⟨hl, -⟩ | hl
      all_goals simp [hl, At.hasMutex] at hu
  have hlate : ∀ u, s.locals u = .waitS ∧ s.shared.s = 0 ∨ s.locals u = .returned := by
    intro u
    rcases step_waits (hwaits u) with ⟨-, hm⟩ | hl
    · omega
    · exact hl
  have hn : s.shared.n = 0 := by
    rw [h.count, Finset.sum_eq_zero]
    · rfl
    · intro u _
      rcases hlate u with ⟨hl, -⟩ | hl
      all_goals rw [hl]; rfl
  rcases h.token hn with hs | ⟨u, hu⟩
  · rcases hlate t with ⟨-, hzero⟩ | hl
    · omega
    · exact ht hl
  · rcases hlate u with ⟨hl, -⟩ | hl
    all_goals simp [hl, At.carries] at hu

variable [DecidableEq T]

theorem Inv.count_step (h : Inv s) (hx : step (s.locals t) s.shared = some x) :
    x.2.n = (∑ u, (Function.update s.locals t x.1 u).pending : ℕ) := by
  have hsum := ThreadSums.sum_update At.pending s.locals t x.1
  have hcount := h.count
  rcases step_n hx with ⟨hn, hpending⟩ | ⟨loaded, hl, hl', hn, -⟩
  · rw [hn, hcount]
    omega
  · have hloaded := h.loaded t loaded hl
    rw [hl, show At.pending (.storeN loaded) = 1 from rfl, show At.pending x.1 = 0 by rw [hl']; rfl]
      at hsum
    rw [hn, hloaded, hcount]
    omega

theorem Inv.early_step (h : Inv s) (hx : step (s.locals t) s.shared = some x)
    (hfree : 0 < x.2.s ∨ ∃ u, ((s.set t x).locals u).released) : s.shared.n = 0 := by
  have hown : 0 < x.2.s ∨ x.1.released → s.shared.n = 0 := by
    intro hfree
    rcases step_early hx hfree with (hs | hl) | hn
    · exact h.early (Or.inl hs)
    · exact h.early (Or.inr ⟨t, hl⟩)
    · exact hn
  rcases hfree with hs | ⟨u, hu⟩
  · exact hown (Or.inl hs)
  · rcases eq_or_ne u t with rfl | hne
    · rw [State.set_locals_self] at hu
      exact hown (Or.inr hu)
    · rw [State.set_locals_of_ne s hne] at hu
      exact h.early (Or.inr ⟨u, hu⟩)

theorem Inv.token_step (h : Inv s) (hx : step (s.locals t) s.shared = some x)
    (hn : s.shared.n = 0) : 0 < x.2.s ∨ ∃ u, ((s.set t x).locals u).carries := by
  have hown : 0 < s.shared.s ∨ (s.locals t).carries →
      0 < x.2.s ∨ ∃ u, ((s.set t x).locals u).carries := by
    intro htoken
    rcases step_token hx hn htoken with hs | hl
    · exact Or.inl hs
    · refine Or.inr ⟨t, ?_⟩
      rwa [State.set_locals_self]
  rcases h.token hn with hs | ⟨u, hu⟩
  · exact hown (Or.inl hs)
  · rcases eq_or_ne u t with rfl | hne
    · exact hown (Or.inr hu)
    · refine Or.inr ⟨u, ?_⟩
      rwa [State.set_locals_of_ne s hne]

theorem Inv.set (h : Inv s) (hx : step (s.locals t) s.shared = some x) : Inv (s.set t x) where
  mutex := h.mutex.use (step_uses hx)
  loaded u n hu := by
    rcases eq_or_ne u t with rfl | hne
    · rw [State.set_locals_self] at hu
      exact step_loaded hx hu
    · rw [State.set_locals_of_ne s hne] at hu
      rw [State.set_shared]
      rcases step_n hx with ⟨hn, -⟩ | ⟨loaded, hl, -⟩
      · rw [hn, h.loaded u n hu]
      · exact absurd (h.mutex.exclusive (by rw [hu]; rfl) (by rw [hl]; rfl)) hne
  count := h.count_step hx
  early hfree := by
    have hn := h.early_step hx hfree
    rcases step_n hx with ⟨hsame, -⟩ | ⟨loaded, hl, -⟩
    · exact hsame.trans hn
    · exact absurd hn (h.storing hl)
  token hn := by
    rcases step_n hx with ⟨hsame, -⟩ | ⟨loaded, -, hl', -⟩
    · exact h.token_step hx (hsame.symm.trans hn)
    · refine Or.inr ⟨t, ?_⟩
      rw [State.set_locals_self, hl']
      rfl

theorem reached [Nonempty T] (h : Reachable step (start T) s) : Inv s :=
  Reachable.invariant inv_start (fun _ _ _ ih hx => ih.set hx) h

theorem barrier_releases [Nonempty T] (h : Reachable step (start T) s) :
    (∀ t, s.locals t = .returned → ∀ u, (s.locals u).decremented) ∧
      ((∀ t, s.locals t ≠ .outside) → (∃ t, s.locals t ≠ .returned) →
        ∃ t x, step (s.locals t) s.shared = some x) := by
  have hinv := reached h
  refine ⟨?_, ?_⟩
  · intro t ht
    exact hinv.all_decremented (hinv.early (Or.inr ⟨t, by rw [ht]; rfl⟩))
  · rintro - ⟨t, ht⟩
    exact hinv.moves ht

-- The first of two threads waits for the semaphore and the second has returned.
def secondReturned : State (Fin 2) At Shared :=
  ((start (Fin 2)).set 0 (.waitS, ⟨0, 1, 1⟩)).set 1 (.returned, ⟨1, 1, 0⟩)

theorem secondReturned_reached : Reachable step (start (Fin 2)) secondReturned := by
  have hfirst : Reachable step (start (Fin 2)) ((start (Fin 2)).set 0 (.waitS, ⟨0, 1, 1⟩)) :=
    Reachable.runs (k := 7) Relation.ReflTransGen.refl rfl
  exact hfirst.runs (k := 7) rfl

theorem barrier_releases_two :
    (∀ t, secondReturned.locals t = .returned → ∀ u, (secondReturned.locals u).decremented) ∧
      ((∀ t, secondReturned.locals t ≠ .outside) → (∃ t, secondReturned.locals t ≠ .returned) →
        ∃ t x, step (secondReturned.locals t) secondReturned.shared = some x) :=
  barrier_releases secondReturned_reached

end Barrier
