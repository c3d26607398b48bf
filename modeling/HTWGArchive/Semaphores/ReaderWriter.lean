import HTWGArchive.Library.ReadersWriters

namespace ReaderWriter

open Interleaving Semaphore ReadersWriters

def writeMax : ℕ := 1000

structure RwLock where
  writelock : ℕ
  lock : ℕ
  readers : Int
  deriving DecidableEq, Repr

def RwLock.init : RwLock :=
  { readers := 0, lock := 1, writelock := 1 }

structure Shared where
  mutex : RwLock
  writes : Int
  deriving DecidableEq, Repr

def Shared.init : Shared :=
  { mutex := RwLock.init, writes := 0 }

-- A point is named after the statement the thread executes next.
inductive ReaderAt where
  | next
  | acquireWaitLock
  | countUp
  | acquireTest
  | acquireWaitWritelock
  | acquirePostLock
  | reading
  | releaseWaitLock
  | countDown
  | releaseTest
  | releasePostWritelock
  | releasePostLock
  deriving DecidableEq, Repr

inductive WriterAt where
  | next
  | acquireWaitWritelock
  | writing
  | releasePostWritelock
  deriving DecidableEq, Repr

inductive Thread where
  | reader (p : ReaderAt) (i : ℕ)
  | writer (p : WriterAt) (i : ℕ)
  deriving DecidableEq, Repr

def readerStep (i : ℕ) (s : Shared) : ReaderAt → Option (ReaderAt × ℕ × Shared)
  | .next => if i < writeMax then some (.acquireWaitLock, i, s) else none
  | .acquireWaitLock =>
    (wait s.mutex.lock).map fun n => (.countUp, i, { s with mutex.lock := n })
  | .countUp => some (.acquireTest, i, { s with mutex.readers := s.mutex.readers + 1 })
  | .acquireTest =>
    if s.mutex.readers = 0 then some (.acquireWaitWritelock, i, s)
    else some (.acquirePostLock, i, s)
  | .acquireWaitWritelock =>
    (wait s.mutex.writelock).map fun n => (.acquirePostLock, i, { s with mutex.writelock := n })
  | .acquirePostLock => some (.reading, i, { s with mutex.lock := post s.mutex.lock })
  | .reading => some (.releaseWaitLock, i, s)
  | .releaseWaitLock =>
    (wait s.mutex.lock).map fun n => (.countDown, i, { s with mutex.lock := n })
  | .countDown => some (.releaseTest, i, { s with mutex.readers := s.mutex.readers - 1 })
  | .releaseTest =>
    if s.mutex.readers = 0 then some (.releasePostWritelock, i, s)
    else some (.releasePostLock, i, s)
  | .releasePostWritelock =>
    some (.releasePostLock, i, { s with mutex.writelock := post s.mutex.writelock })
  | .releasePostLock => some (.next, i + 1, { s with mutex.lock := post s.mutex.lock })

def writerStep (i : ℕ) (s : Shared) : WriterAt → Option (WriterAt × ℕ × Shared)
  | .next => if i < writeMax then some (.acquireWaitWritelock, i, s) else none
  | .acquireWaitWritelock =>
    (wait s.mutex.writelock).map fun n => (.writing, i, { s with mutex.writelock := n })
  | .writing => some (.releasePostWritelock, i, { s with writes := s.writes + 1 })
  | .releasePostWritelock =>
    some (.next, i + 1, { s with mutex.writelock := post s.mutex.writelock })

def step : Thread → Shared → Option (Thread × Shared)
  | .reader p i, s => (readerStep i s p).map fun (p', i', s') => (.reader p' i', s')
  | .writer p i, s => (writerStep i s p).map fun (p', i', s') => (.writer p' i', s')

def Thread.role : Thread → Role
  | .reader .. => .reader
  | .writer .. => .writer

-- The lock is held from the return of acquire until the first statement of release is executed.
def Thread.reads : Thread → Bool
  | .reader .reading _ | .reader .releaseWaitLock _ => true
  | _ => false

def Thread.writes : Thread → Bool
  | .writer .writing _ | .writer .releasePostWritelock _ => true
  | _ => false

def Thread.start : Role → Thread
  | .reader => .reader .next 0
  | .writer => .writer .next 0

theorem Thread.role_start (r : Role) : (Thread.start r).role = r := by
  cases r <;> rfl

theorem step_role {l l' : Thread} {s s' : Shared} (h : step l s = some (l', s')) :
    l'.role = l.role := by
  cases l with
  | reader p i =>
    obtain ⟨y, -, hy⟩ := Option.map_eq_some_iff.mp h
    rw [← (Prod.mk.inj hy).1]
    rfl
  | writer p i =>
    obtain ⟨y, -, hy⟩ := Option.map_eq_some_iff.mp h
    rw [← (Prod.mk.inj hy).1]
    rfl

theorem reads_role {l : Thread} (h : l.reads) : l.role = .reader := by
  cases l with
  | reader p i => rfl
  | writer p i => simp [Thread.reads] at h

theorem writes_role {l : Thread} (h : l.writes) : l.role = .writer := by
  cases l with
  | reader p i => simp [Thread.writes] at h
  | writer p i => rfl

def rwlock : Lock Thread Shared where
  step := step
  init := Shared.init
  start := Thread.start
  role := Thread.role
  reads := Thread.reads
  writes := Thread.writes
  role_start := Thread.role_start
  role_step := step_role
  role_of_reads := reads_role
  role_of_writes := writes_role

theorem writer_uses {l l' : Thread} {s s' : Shared} (hrole : l.role = .writer)
    (h : step l s = some (l', s')) :
    Uses (fun l => Thread.writes l = true) s.mutex.writelock s'.mutex.writelock l l' := by
  cases l with
  | reader p i => cases hrole
  | writer p i =>
    cases p with
    | next =>
      simp only [step, writerStep] at h
      split at h
      · cases h
        exact Or.inr (Or.inr ⟨rfl, by simp [Thread.writes]⟩)
      · cases h
    | acquireWaitWritelock =>
      simp only [step, writerStep, Option.map_map] at h
      obtain ⟨n, hn, heq⟩ := Option.map_eq_some_iff.mp h
      cases heq
      exact Or.inl ⟨hn, rfl⟩
    | writing =>
      cases h
      exact Or.inr (Or.inr ⟨rfl, by simp [Thread.writes]⟩)
    | releasePostWritelock =>
      cases h
      exact Or.inr (Or.inl ⟨rfl, by simp [Thread.writes], by simp [Thread.writes]⟩)

variable {T : Type*} [DecidableEq T]

theorem both_inside {role : T → Role} {r w : T} (hr : role r = .reader) (hw : role w = .writer) :
    ∃ s, rwlock.Reaches role s ∧ (s.locals w).writes ∧ (s.locals r).reads :=
  Lock.both_inside rwlock (j := 5) (k := 2) (x := (.reader .reading 0, ⟨⟨1, 1, 1⟩, 0⟩))
    (y := (.writer .writing 0, ⟨⟨0, 1, 1⟩, 0⟩)) hr hw rfl rfl rfl rfl

theorem exclusive_iff (role : T → Role) :
    (∀ s, rwlock.Reaches role s → rwlock.Exclusive s) ↔
      (∀ t, role t = .writer) ∨ ∀ t, role t = .reader := by
  apply Lock.exclusive_iff
  · intro hrole s hs
    exact Lock.exclusive_of_writers (fun l => Thread.writes l = true) (fun s => s.mutex.writelock)
      ⟨rfl, by decide⟩
      (fun _ _ _ _ => writer_uses) (fun _ h => h) hrole hs
  · intro r w
    exact both_inside

end ReaderWriter
