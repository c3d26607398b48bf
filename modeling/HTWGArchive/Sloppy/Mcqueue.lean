import HTWGArchive.Library.Interleaving
import HTWGArchive.Library.LinkedChain

namespace Mcqueue

open Interleaving Semaphore

-- `live` are the nodes that have been allocated and not freed. The last three fields record the
-- number of allocations, the values linked and the values taken, in the order of the locks;
-- no step reads them.
structure Queue where
  head : ℕ
  tail : ℕ
  headLock : ℕ
  tailLock : ℕ
  next : ℕ → Option ℕ
  value : ℕ → Int
  live : ℕ → Bool
  mallocs : ℕ
  enqueued : List Int
  dequeued : List Int

-- `Queue_Init` with the node it has got and what else lies in the memory.
def Queue.init (tmp : ℕ) (next : ℕ → Option ℕ) (value : ℕ → Int) : Queue :=
  { head := tmp, tail := tmp, headLock := 1, tailLock := 1
    next := Function.update next tmp none, value := value, live := fun a => a = tmp
    mallocs := 1, enqueued := [], dequeued := [] }

-- The node `malloc` hands out may depend on all that has happened; it is not in use.
structure Allocator where
  malloc : Queue → Option ℕ
  fresh : ∀ {q a}, malloc q = some a → q.live a = false

inductive Call where
  | enqueue (value : Int)
  | dequeue
  deriving DecidableEq, Repr

-- What had been linked and taken when `next` was read.
structure Seen where
  linked : List Int
  taken : List Int
  deriving DecidableEq, Repr

-- A point is named after the statement the thread executes next.
inductive EnqueueAt where
  | malloc
  | storeValue (tmp : ℕ)
  | storeNext (tmp : ℕ)
  | lockTail (tmp : ℕ)
  | loadTail (tmp : ℕ)
  | link (tmp tail : ℕ)
  | moveTail (tmp : ℕ)
  | unlockTail
  deriving DecidableEq, Repr

inductive DequeueAt where
  | lockHead
  | loadHead
  | loadNext (tmp : ℕ)
  | test (tmp : ℕ) (newHead : Option ℕ) (seen : Seen)
  | unlockEmpty (seen : Seen)
  | loadValue (tmp newHead : ℕ)
  | moveHead (tmp newHead : ℕ) (value : Int)
  | unlockHead (tmp : ℕ) (value : Int)
  | free (tmp : ℕ) (value : Int)
  deriving DecidableEq, Repr

inductive At where
  | next
  | enqueue (p : EnqueueAt) (value : Int)
  | dequeue (p : DequeueAt)
  deriving DecidableEq, Repr

-- `empty` stands for the return value -1.
inductive Result where
  | empty (seen : Seen)
  | value (v : Int)
  deriving DecidableEq, Repr

structure Thread where
  point : At
  calls : List Call
  returned : List Result
  deriving DecidableEq, Repr

def Thread.start (calls : List Call) : Thread :=
  { point := .next, calls := calls, returned := [] }

def begin (l : Thread) (q : Queue) : Option (Thread × Queue) :=
  match l.calls with
  | [] => none
  | .enqueue value :: calls => some ({ l with point := .enqueue .malloc value, calls := calls }, q)
  | .dequeue :: calls => some ({ l with point := .dequeue .lockHead, calls := calls }, q)

-- Without a node the assertion ends the program.
def enqueueStep (m : Allocator) (value : Int) (q : Queue) : EnqueueAt → Option (At × Queue)
  | .malloc =>
    (m.malloc q).map fun tmp =>
      (.enqueue (.storeValue tmp) value,
        { q with live := Function.update q.live tmp true, mallocs := q.mallocs + 1 })
  | .storeValue tmp =>
    some (.enqueue (.storeNext tmp) value, { q with value := Function.update q.value tmp value })
  | .storeNext tmp =>
    some (.enqueue (.lockTail tmp) value, { q with next := Function.update q.next tmp none })
  | .lockTail tmp =>
    (wait q.tailLock).map fun n => (.enqueue (.loadTail tmp) value, { q with tailLock := n })
  | .loadTail tmp => some (.enqueue (.link tmp q.tail) value, q)
  | .link tmp tail =>
    some (.enqueue (.moveTail tmp) value,
      { q with
        next := Function.update q.next tail (some tmp)
        enqueued := q.enqueued ++ [value] })
  | .moveTail tmp => some (.enqueue .unlockTail value, { q with tail := tmp })
  | .unlockTail => some (.next, { q with tailLock := post q.tailLock })

def dequeueStep (l : Thread) (q : Queue) : DequeueAt → Option (Thread × Queue)
  | .lockHead =>
    (wait q.headLock).map fun n => ({ l with point := .dequeue .loadHead }, { q with headLock := n })
  | .loadHead => some ({ l with point := .dequeue (.loadNext q.head) }, q)
  | .loadNext tmp =>
    some ({ l with point := .dequeue (.test tmp (q.next tmp) ⟨q.enqueued, q.dequeued⟩) }, q)
  | .test _ none seen => some ({ l with point := .dequeue (.unlockEmpty seen) }, q)
  | .test tmp (some newHead) _ =>
    some ({ l with point := .dequeue (.loadValue tmp newHead) }, q)
  | .unlockEmpty seen =>
    some ({ l with point := .next, returned := l.returned ++ [.empty seen] },
      { q with headLock := post q.headLock })
  | .loadValue tmp newHead =>
    some ({ l with point := .dequeue (.moveHead tmp newHead (q.value newHead)) }, q)
  | .moveHead tmp newHead value =>
    some ({ l with point := .dequeue (.unlockHead tmp value) },
      { q with head := newHead, dequeued := q.dequeued ++ [value] })
  | .unlockHead tmp value =>
    some ({ l with point := .dequeue (.free tmp value) }, { q with headLock := post q.headLock })
  | .free tmp value =>
    some ({ l with point := .next, returned := l.returned ++ [.value value] },
      { q with live := Function.update q.live tmp false })

def step (m : Allocator) (l : Thread) (q : Queue) : Option (Thread × Queue) :=
  match l.point with
  | .next => begin l q
  | .enqueue p value => (enqueueStep m value q p).map fun x => ({ l with point := x.1 }, x.2)
  | .dequeue p => dequeueStep l q p

-- The node whose fields the next statement reads or writes, or which it frees.
def At.accesses : At → Option ℕ
  | .enqueue (.storeValue tmp) _ | .enqueue (.storeNext tmp) _ => some tmp
  | .enqueue (.link _ tail) _ => some tail
  | .dequeue (.loadNext tmp) => some tmp
  | .dequeue (.loadValue _ newHead) => some newHead
  | .dequeue (.free tmp _) => some tmp
  | _ => none

-- What a step does, point by point.
inductive Moves : At → Queue → At → Queue → Prop where
  | beginEnqueue (q : Queue) (value : Int) : Moves .next q (.enqueue .malloc value) q
  | beginDequeue (q : Queue) : Moves .next q (.dequeue .lockHead) q
  | malloc {q : Queue} {tmp : ℕ} (value : Int) : q.live tmp = false →
      Moves (.enqueue .malloc value) q (.enqueue (.storeValue tmp) value)
        { q with live := Function.update q.live tmp true, mallocs := q.mallocs + 1 }
  | storeValue (q : Queue) (tmp : ℕ) (value : Int) :
      Moves (.enqueue (.storeValue tmp) value) q (.enqueue (.storeNext tmp) value)
        { q with value := Function.update q.value tmp value }
  | storeNext (q : Queue) (tmp : ℕ) (value : Int) :
      Moves (.enqueue (.storeNext tmp) value) q (.enqueue (.lockTail tmp) value)
        { q with next := Function.update q.next tmp none }
  | lockTail {q : Queue} {n : ℕ} (tmp : ℕ) (value : Int) : wait q.tailLock = some n →
      Moves (.enqueue (.lockTail tmp) value) q (.enqueue (.loadTail tmp) value)
        { q with tailLock := n }
  | loadTail (q : Queue) (tmp : ℕ) (value : Int) :
      Moves (.enqueue (.loadTail tmp) value) q (.enqueue (.link tmp q.tail) value) q
  | link (q : Queue) (tmp tail : ℕ) (value : Int) :
      Moves (.enqueue (.link tmp tail) value) q (.enqueue (.moveTail tmp) value)
        { q with
          next := Function.update q.next tail (some tmp)
          enqueued := q.enqueued ++ [value] }
  | moveTail (q : Queue) (tmp : ℕ) (value : Int) :
      Moves (.enqueue (.moveTail tmp) value) q (.enqueue .unlockTail value) { q with tail := tmp }
  | unlockTail (q : Queue) (value : Int) :
      Moves (.enqueue .unlockTail value) q .next { q with tailLock := post q.tailLock }
  | lockHead {q : Queue} {n : ℕ} : wait q.headLock = some n →
      Moves (.dequeue .lockHead) q (.dequeue .loadHead) { q with headLock := n }
  | loadHead (q : Queue) : Moves (.dequeue .loadHead) q (.dequeue (.loadNext q.head)) q
  | loadNext (q : Queue) (tmp : ℕ) :
      Moves (.dequeue (.loadNext tmp)) q
        (.dequeue (.test tmp (q.next tmp) ⟨q.enqueued, q.dequeued⟩)) q
  | testNull (q : Queue) (tmp : ℕ) (seen : Seen) :
      Moves (.dequeue (.test tmp none seen)) q (.dequeue (.unlockEmpty seen)) q
  | testNode (q : Queue) (tmp newHead : ℕ) (seen : Seen) :
      Moves (.dequeue (.test tmp (some newHead) seen)) q (.dequeue (.loadValue tmp newHead)) q
  | unlockEmpty (q : Queue) (seen : Seen) :
      Moves (.dequeue (.unlockEmpty seen)) q .next { q with headLock := post q.headLock }
  | loadValue (q : Queue) (tmp newHead : ℕ) :
      Moves (.dequeue (.loadValue tmp newHead)) q
        (.dequeue (.moveHead tmp newHead (q.value newHead))) q
  | moveHead (q : Queue) (tmp newHead : ℕ) (value : Int) :
      Moves (.dequeue (.moveHead tmp newHead value)) q (.dequeue (.unlockHead tmp value))
        { q with head := newHead, dequeued := q.dequeued ++ [value] }
  | unlockHead (q : Queue) (tmp : ℕ) (value : Int) :
      Moves (.dequeue (.unlockHead tmp value)) q (.dequeue (.free tmp value))
        { q with headLock := post q.headLock }
  | free (q : Queue) (tmp : ℕ) (value : Int) :
      Moves (.dequeue (.free tmp value)) q .next
        { q with live := Function.update q.live tmp false }

variable {m : Allocator} {l : Thread} {q : Queue}

theorem enqueueStep_moves {p : EnqueueAt} {value : Int} {x : At × Queue}
    (h : enqueueStep m value q p = some x) : Moves (.enqueue p value) q x.1 x.2 := by
  cases p with
  | malloc =>
    obtain ⟨tmp, htmp, rfl⟩ := Option.map_eq_some_iff.mp h
    exact Moves.malloc value (m.fresh htmp)
  | lockTail tmp =>
    obtain ⟨n, hn, rfl⟩ := Option.map_eq_some_iff.mp h
    exact Moves.lockTail tmp value hn
  | _ =>
    cases h
    constructor

theorem dequeueStep_moves {p : DequeueAt} {x : Thread × Queue}
    (h : dequeueStep l q p = some x) : Moves (.dequeue p) q x.1.point x.2 := by
  cases p with
  | lockHead =>
    obtain ⟨n, hn, rfl⟩ := Option.map_eq_some_iff.mp h
    exact Moves.lockHead hn
  | test tmp newHead seen =>
    cases newHead with
    | none =>
      cases h
      constructor
    | some newHead =>
      cases h
      constructor
  | _ =>
    cases h
    constructor

theorem step_moves {x : Thread × Queue} (h : step m l q = some x) :
    Moves l.point q x.1.point x.2 := by
  unfold step at h
  split at h
  · rename_i hpoint
    rw [hpoint]
    unfold begin at h
    split at h
    · cases h
    · cases h
      constructor
    · cases h
      constructor
  · rename_i p value hpoint
    obtain ⟨y, hy, rfl⟩ := Option.map_eq_some_iff.mp h
    rw [hpoint]
    exact enqueueStep_moves hy
  · rename_i p hpoint
    rw [hpoint]
    exact dequeueStep_moves h

-- A call of `Queue_Dequeue` returns from the point where it gives up, or after it has freed.
def At.returns : At → List Result
  | .dequeue (.unlockEmpty seen) => [.empty seen]
  | .dequeue (.free _ value) => [.value value]
  | _ => []

theorem step_returned {x : Thread × Queue} (h : step m l q = some x) :
    x.1.returned = l.returned ++ l.point.returns := by
  unfold step at h
  split at h
  · rename_i hpoint
    rw [hpoint]
    unfold begin at h
    split at h
    · cases h
    · cases h
      exact (List.append_nil _).symm
    · cases h
      exact (List.append_nil _).symm
  · rename_i p value hpoint
    obtain ⟨y, -, rfl⟩ := Option.map_eq_some_iff.mp h
    rw [hpoint]
    exact (List.append_nil _).symm
  · rename_i p hpoint
    rw [hpoint]
    cases p with
    | lockHead =>
      obtain ⟨n, -, rfl⟩ := Option.map_eq_some_iff.mp h
      exact (List.append_nil _).symm
    | test tmp newHead seen =>
      cases newHead with
      | none =>
        cases h
        exact (List.append_nil _).symm
      | some newHead =>
        cases h
        exact (List.append_nil _).symm
    | unlockEmpty seen =>
      cases h
      rfl
    | free tmp value =>
      cases h
      rfl
    | _ =>
      cases h
      exact (List.append_nil _).symm

end Mcqueue
