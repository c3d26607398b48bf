import HTWGArchive.Library.RingBuffer
import HTWGArchive.Library.Wakeups
import Mathlib.Data.Int.Init

namespace BoundedBuffer

open Monitor

def maxThreads : ℕ := 100

-- What `main` has asserted about the options.
structure Options where
  loops : ℕ
  max : ℕ
  producers : ℕ
  consumers : ℕ
  loops_pos : 0 < loops
  max_pos : 0 < max
  producers_le : producers ≤ maxThreads
  consumers_le : consumers ≤ maxThreads

def empty : ℤ := -2

def endOfStream : ℤ := -1

structure Buffer where
  buffer : ℕ → ℤ
  usePtr : ℕ
  fillPtr : ℕ
  numFull : ℕ

def Buffer.init : Buffer :=
  { buffer := fun _ => empty
    usePtr := 0
    fillPtr := 0
    numFull := 0 }

-- `none` is an `ensure` that ends the program.
def doFill (max : ℕ) (b : Buffer) (value : ℤ) : Option Buffer :=
  if b.buffer b.fillPtr = empty then
    some { buffer := Function.update b.buffer b.fillPtr value
           usePtr := b.usePtr
           fillPtr := (b.fillPtr + 1) % max
           numFull := b.numFull + 1 }
  else none

def doGet (max : ℕ) (b : Buffer) : Option (ℤ × Buffer) :=
  let tmp := b.buffer b.usePtr
  if tmp ≠ empty then
    some (tmp,
      { buffer := Function.update b.buffer b.usePtr empty
        usePtr := (b.usePtr + 1) % max
        fillPtr := b.fillPtr
        numFull := b.numFull - 1 })
  else none

-- `none` is the thread of `main`; the producers come first.
abbrev Thread (o : Options) : Type := Option (Fin (o.producers + o.consumers))

-- Who has filled and got what, in order, stands beside the buffer.
structure Shared (o : Options) where
  buffer : Buffer
  filled : List (Thread o × ℤ)
  got : List (Thread o × ℤ)

inductive Condition where
  | empty
  | fill
  deriving DecidableEq

inductive Point where
  | loop
  | test
  | access
  | signal
  | unlock
  deriving DecidableEq

inductive Local where
  | producer (id i : ℕ) (p : Point)
  | consumer (tmp : ℤ) (consumedCount : ℕ) (p : Point)
  | joinProducers (i : ℕ)
  | endOfStreams (i : ℕ) (p : Point)
  | joinConsumers (i : ℕ) (counts : List ℤ)
  | exited

-- `id * loops` is cut to an `int`.
def base (o : Options) (id : ℕ) : ℤ :=
  ((id * o.loops : ℕ) : ℤ).bmod (2 ^ 32)

-- What a consumer has returned when it is joined.
def Local.result : Local → ℤ
  | .consumer _ consumedCount _ => consumedCount - 1
  | _ => 0

variable {o : Options}

abbrev Act (o : Options) : Type := Action (Thread o) Local (Shared o) Condition

-- The body that `producer` and `main` have in common.
def filling (t : Thread o) (value : ℤ) (here : Point → Local) (next : Local) (s : Shared o) :
    Point → Act o
  | .loop => .lock (here .test)
  | .test =>
    if s.buffer.numFull = o.max then .wait .empty (here .test) else .compute (here .access) s
  | .access =>
    match doFill o.max s.buffer value with
    | some buffer =>
      .compute (here .signal) { s with buffer := buffer, filled := s.filled ++ [(t, value)] }
    | none => .compute .exited s
  | .signal => .signal .fill (here .unlock)
  | .unlock => .unlock next

def producer (t : Thread o) (id i : ℕ) (s : Shared o) (p : Point) : Act o :=
  if p = .loop ∧ o.loops ≤ i then .ended
  else filling t (base o id + i) (.producer id i) (.producer id (i + 1) .loop) s p

def consumer (t : Thread o) (tmp : ℤ) (consumedCount : ℕ) (s : Shared o) : Point → Act o
  | .loop =>
    if tmp ≠ endOfStream then .lock (.consumer tmp consumedCount .test) else .ended
  | .test =>
    if s.buffer.numFull = 0 then .wait .fill (.consumer tmp consumedCount .test)
    else .compute (.consumer tmp consumedCount .access) s
  | .access =>
    match doGet o.max s.buffer with
    | some (tmp, buffer) =>
      .compute (.consumer tmp consumedCount .signal)
        { s with buffer := buffer, got := s.got ++ [(t, tmp)] }
    | none => .compute .exited s
  | .signal => .signal .empty (.consumer tmp consumedCount .unlock)
  | .unlock => .unlock (.consumer tmp (consumedCount + 1) .loop)

def act (o : Options) (t : Thread o) (l : Local) (s : Shared o) : Act o :=
  match l with
  | .producer id i p => producer t id i s p
  | .consumer tmp consumedCount p => consumer t tmp consumedCount s p
  | .joinProducers i =>
    if h : i < o.producers then
      .join (some ⟨i, by omega⟩) (fun _ => .joinProducers (i + 1))
    else .compute (.endOfStreams 0 .loop) s
  | .endOfStreams i p =>
    if p = .loop ∧ o.consumers ≤ i then .compute (.joinConsumers 0 []) s
    else filling t endOfStream (.endOfStreams i) (.endOfStreams (i + 1) .loop) s p
  | .joinConsumers i counts =>
    if h : i < o.consumers then
      .join (some ⟨o.producers + i, by omega⟩)
        (fun l => .joinConsumers (i + 1) (counts ++ [l.result]))
    else .ended
  | .exited => .ended

def start (o : Options) : State (Thread o) Local (Shared o) Condition where
  shared := ⟨Buffer.init, [], []⟩
  owner := none
  threads
    | none => .running (.joinProducers 0)
    | some t =>
      if t.val < o.producers then .running (.producer t 0 .loop) else .running (.consumer 0 0 .loop)

end BoundedBuffer
