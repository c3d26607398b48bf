import HTWGArchive.Library.Interleaving

namespace ReadersWriters

open Interleaving Semaphore

inductive Role where
  | reader
  | writer
  deriving DecidableEq, Repr

structure Lock (L S : Type*) where
  step : L → S → Option (L × S)
  init : S
  start : Role → L
  role : L → Role
  reads : L → Bool
  writes : L → Bool
  role_start : ∀ r, role (start r) = r
  role_step : ∀ {l s l' s'}, step l s = some (l', s') → role l' = role l
  role_of_reads : ∀ {l}, reads l → role l = .reader
  role_of_writes : ∀ {l}, writes l → role l = .writer

namespace Lock

variable {T L S : Type*} (lock : Lock L S)

def begin (role : T → Role) : State T L S :=
  ⟨lock.init, fun t => lock.start (role t)⟩

def Exclusive (s : State T L S) : Prop :=
  ∀ t u, lock.writes (s.locals t) → lock.reads (s.locals u) ∨ lock.writes (s.locals u) → u = t

variable [DecidableEq T]

def Reaches (role : T → Role) (s : State T L S) : Prop :=
  Reachable lock.step (lock.begin role) s

variable {lock} {role : T → Role} {s : State T L S}

theorem role_reached (h : lock.Reaches role s) (t : T) : lock.role (s.locals t) = role t := by
  revert t
  apply Reachable.invariant (I := fun s => ∀ t, lock.role (s.locals t) = role t) _ _ h
  · intro t
    exact lock.role_start (role t)
  · intro s t x ih hx u
    by_cases hne : u = t
    · subst hne
      rw [State.set_locals_self, lock.role_step hx, ih]
    · rw [State.set_locals_of_ne s hne, ih]

theorem exclusive_of_readers (hrole : ∀ t, role t = .reader) (h : lock.Reaches role s) :
    lock.Exclusive s := by
  intro t u ht
  have hw := lock.role_of_writes ht
  rw [role_reached h, hrole] at hw
  cases hw

-- Writers alone are kept apart by one semaphore.
theorem exclusive_of_writers (holds : L → Prop) (value : S → ℕ)
    (hinit : value lock.init = 1 ∧ ¬ holds (lock.start .writer))
    (huse : ∀ l s l' s', lock.role l = .writer → lock.step l s = some (l', s') →
      Uses holds (value s) (value s') l l')
    (hholds : ∀ l, lock.writes l → holds l) (hrole : ∀ t, role t = .writer)
    (h : lock.Reaches role s) : lock.Exclusive s := by
  have hguard : (∀ t, lock.role (s.locals t) = .writer) ∧ Guards holds (value s.shared) s.locals := by
    apply Reachable.invariant (I := fun s => (∀ t, lock.role (s.locals t) = .writer) ∧
      Guards holds (value s.shared) s.locals) _ _ h
    · refine ⟨?_, Or.inl ⟨hinit.1, ?_⟩⟩
      · intro t
        exact (lock.role_start _).trans (hrole t)
      · intro t
        have hstart : (lock.begin role).locals t = lock.start .writer := congrArg lock.start (hrole t)
        rw [hstart]
        exact hinit.2
    · intro s t x ih hx
      refine ⟨?_, ih.2.use (huse _ _ _ _ (ih.1 t) hx)⟩
      intro u
      by_cases hne : u = t
      · subst hne
        rw [State.set_locals_self, lock.role_step hx, ih.1]
      · rw [State.set_locals_of_ne s hne, ih.1]
  intro t u ht hu
  rcases hu with hu | hu
  · have hreader := lock.role_of_reads hu
    rw [hguard.1] at hreader
    cases hreader
  · exact hguard.2.exclusive (hholds _ hu) (hholds _ ht)

theorem both_inside (lock : Lock L S) {r w : T} {j k : ℕ} {x y : L × S} (hr : role r = .reader)
    (hw : role w = .writer) (hread : solo lock.step j (lock.start .reader, lock.init) = some x)
    (hwrite : solo lock.step k (lock.start .writer, x.2) = some y) (hx : lock.reads x.1)
    (hy : lock.writes y.1) :
    ∃ s, lock.Reaches role s ∧ lock.writes (s.locals w) ∧ lock.reads (s.locals r) := by
  have hne : w ≠ r := by
    rintro rfl
    rw [hr] at hw
    cases hw
  have hreader : lock.Reaches role ((lock.begin role).set r x) := by
    refine Reachable.solo (x := (lock.start (role r), lock.init)) ?_ (by rw [hr]; exact hread)
    exact (State.set_self (lock.begin role) r).symm ▸ Relation.ReflTransGen.refl
  refine ⟨((lock.begin role).set r x).set w y, ?_, ?_, ?_⟩
  · refine Reachable.solo (x := (lock.start (role w), x.2)) ?_ (by rw [hw]; exact hwrite)
    have hself := State.set_self ((lock.begin role).set r x) w
    rw [State.set_locals_of_ne _ hne] at hself
    exact hself.symm ▸ hreader
  · rw [State.set_locals_self]
    exact hy
  · rw [State.set_locals_of_ne _ hne.symm, State.set_locals_self]
    exact hx

theorem exclusive_iff
    (hwriters : (∀ t, role t = .writer) → ∀ s, lock.Reaches role s → lock.Exclusive s)
    (hboth : ∀ r w, role r = .reader → role w = .writer →
      ∃ s, lock.Reaches role s ∧ lock.writes (s.locals w) ∧ lock.reads (s.locals r)) :
    (∀ s, lock.Reaches role s → lock.Exclusive s) ↔
      (∀ t, role t = .writer) ∨ ∀ t, role t = .reader := by
  constructor
  · intro h
    by_contra hmixed
    push Not at hmixed
    obtain ⟨⟨r, hr⟩, ⟨w, hw⟩⟩ := hmixed
    have hr' : role r = .reader := by
      cases hrole : role r with
      | reader => rfl
      | writer => exact absurd hrole hr
    have hw' : role w = .writer := by
      cases hrole : role w with
      | reader => exact absurd hrole hw
      | writer => rfl
    obtain ⟨s, hs, hwrites, hreads⟩ := hboth r w hr' hw'
    have heq := h s hs w r hwrites (Or.inl hreads)
    rw [heq, hw'] at hr'
    cases hr'
  · rintro (hrole | hrole) s hs
    · exact hwriters hrole s hs
    · exact exclusive_of_readers hrole hs

end Lock

end ReadersWriters
