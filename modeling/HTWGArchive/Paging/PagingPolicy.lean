import HTWGArchive.Library.DemandPaging
import Mathlib.Algebra.Order.Ring.Int
import Mathlib.Data.Finset.Dedup
import Mathlib.Data.List.Basic

namespace PagingPolicy

inductive Policy where
  | fifo
  | lru
  | mru
  | rand
  | clock
  | opt
  | unopt
  deriving DecidableEq, Repr

structure Options where
  policy : Policy
  cachesize : ℕ
  clockbits : ℕ
  deriving DecidableEq, Repr

-- What ends the program early; the last one is the end of the drawn numbers that we are given.
inductive Fault where
  | indexError
  | keyError
  | assertion
  | noDraw
  deriving DecidableEq, Repr

-- `draws` are the values that `int(random.random() * count)` still has.
structure State where
  memory : List ℕ
  count : ℕ
  hits : ℕ
  miss : ℕ
  ref : ℕ → Option ℕ
  draws : List ℕ

def State.init (draws : List ℕ) : State :=
  { memory := []
    count := 0
    hits := 0
    miss := 0
    ref := fun _ => none
    draws := draws }

-- A negative index counts from the end.
def pop (memory : List ℕ) (i : ℤ) : Except Fault (ℕ × List ℕ) :=
  let i := if i < 0 then i + memory.length else i
  if i < 0 then .error .indexError
  else
    match memory[i.toNat]? with
    | some page => .ok (page, memory.eraseIdx i.toNat)
    | none => .error .indexError

def whenReferenced (addrIndex : ℕ) (future : List ℕ) (page : ℕ) : ℕ :=
  addrIndex + 1 + future.idxOf page

def maxLoop (referenced : ℕ → ℕ) : ℤ → ℤ → ℤ → List ℕ → ℤ
  | _, replaceIdx, _, [] => replaceIdx
  | maxReplace, replaceIdx, pageIndex, page :: pages =>
    if maxReplace ≤ referenced page then
      maxLoop referenced (referenced page) pageIndex (pageIndex + 1) pages
    else maxLoop referenced maxReplace replaceIdx (pageIndex + 1) pages

def minLoop (referenced : ℕ → ℕ) : ℤ → ℤ → ℤ → List ℕ → ℤ
  | _, replaceIdx, _, [] => replaceIdx
  | minReplace, replaceIdx, pageIndex, page :: pages =>
    if referenced page < minReplace then
      minLoop referenced (referenced page) pageIndex (pageIndex + 1) pages
    else minLoop referenced minReplace replaceIdx (pageIndex + 1) pages

def clockScan (memory : List ℕ) :
    (ℕ → Option ℕ) → List ℕ → Except Fault (ℕ × (ℕ → Option ℕ) × List ℕ)
  | _, [] => .error .noDraw
  | ref, draw :: draws =>
    match memory[draw]? with
    | none => .error .indexError
    | some page =>
      match ref page with
      | none => .error .keyError
      | some bits =>
        if 1 ≤ bits then clockScan memory (Function.update ref page (some (bits - 1))) draws
        else .ok (page, Function.update ref page none, draws)

-- The victim and what is left without it.
def replace (o : Options) (addrIndex : ℕ) (future : List ℕ) (s : State) :
    Except Fault (ℕ × State) :=
  let popped (i : ℤ) (draws : List ℕ) : Except Fault (ℕ × State) :=
    (pop s.memory i).map (fun r => (r.1, { s with memory := r.2, draws := draws }))
  match o.policy with
  | .fifo => popped 0 s.draws
  | .lru => popped 0 s.draws
  | .mru => popped ((s.count : ℤ) - 1) s.draws
  | .rand =>
    match s.draws with
    | [] => .error .noDraw
    | draw :: draws => popped draw draws
  | .clock =>
    (clockScan s.memory s.ref s.draws).map (fun r =>
      (r.1, { s with memory := s.memory.erase r.1, ref := r.2.1, draws := r.2.2 }))
  | .opt => popped (maxLoop (whenReferenced addrIndex future) (-1) (-1) 0 s.memory) s.draws
  | .unopt =>
    popped (minLoop (whenReferenced addrIndex future) (addrIndex + 1 + future.length + 1) (-1) 0
      s.memory) s.draws

def touch (o : Options) (n : ℕ) (s : State) : State :=
  match s.ref n with
  | none => { s with ref := Function.update s.ref n (some 1) }
  | some bits =>
    let bits := if o.clockbits < bits + 1 then o.clockbits else bits + 1
    { s with ref := Function.update s.ref n (some bits) }

def access (o : Options) (addrIndex : ℕ) (future : List ℕ) (n : ℕ) (s : State) :
    Except Fault State :=
  if n ∈ s.memory then
    let memory :=
      if o.policy = .lru ∨ o.policy = .mru then s.memory.erase n ++ [n] else s.memory
    .ok (touch o n { s with memory := memory, hits := s.hits + 1 })
  else
    let s := { s with miss := s.miss + 1 }
    if s.count = o.cachesize then
      match replace o addrIndex future s with
      | .error fault => .error fault
      | .ok (victim, s) =>
        let s := { s with memory := s.memory ++ [n] }
        if victim ∈ s.memory then .error .assertion else .ok (touch o n s)
    else .ok (touch o n { s with count := s.count + 1, memory := s.memory ++ [n] })

def accesses (o : Options) : ℕ → State → List ℕ → Except Fault State
  | _, s, [] => .ok s
  | addrIndex, s, n :: future =>
    match access o addrIndex future n s with
    | .error fault => .error fault
    | .ok s => accesses o (addrIndex + 1) s future

def run (o : Options) (draws addrList : List ℕ) : Except Fault State :=
  accesses o 0 (State.init draws) addrList

def misses (o : Options) (draws addrList : List ℕ) : Option ℕ :=
  match run o draws addrList with
  | .ok s => some s.miss
  | .error _ => none

example : misses ⟨.opt, 3, 2⟩ [] [0, 1, 2, 0, 1, 3, 0, 3, 1, 2, 1] = some 5 := by decide

-- A larger cache may miss more often when the oldest page goes first.
example : misses ⟨.fifo, 3, 2⟩ [] [1, 2, 3, 4, 1, 2, 5, 1, 2, 3, 4, 5] = some 9 ∧
    misses ⟨.fifo, 4, 2⟩ [] [1, 2, 3, 4, 1, 2, 5, 1, 2, 3, 4, 5] = some 10 := by decide

end PagingPolicy
