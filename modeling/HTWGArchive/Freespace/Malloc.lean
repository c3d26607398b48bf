import HTWGArchive.Library.Tiling
import Mathlib.Data.List.Sort

namespace Freespace

open Tiling

inductive Policy where
  | first
  | best
  | worst
  deriving DecidableEq, Repr

inductive Order where
  | addrsort
  | sizesortUp
  | sizesortDown
  | insertFront
  | insertBack
  deriving DecidableEq, Repr

structure Config where
  size : ℤ
  start : ℤ
  headerSize : ℤ
  policy : Policy
  returnPolicy : Order
  coalesce : Bool
  align : ℤ
  align_ok : align = -1 ∨ 0 < align

structure Heap where
  freelist : List Block
  sizemap : List Block
  deriving DecidableEq, Repr

def init (c : Config) : Heap :=
  { freelist := [(c.start, c.size)]
    sizemap := [] }

-- `none` is a failed assertion.
def addToMap (h : Heap) (addr size : ℤ) : Option Heap :=
  if h.sizemap.any (fun b => b.1 = addr) then none
  else some { h with sizemap := h.sizemap ++ [(addr, size)] }

def blockSize (c : Config) (size : ℤ) : ℤ :=
  let size :=
    if c.align ≠ -1 then
      let left := size % c.align
      let diff := if left ≠ 0 then c.align - left else 0
      size + diff
    else size
  size + c.headerSize

-- `best` holds `bestIdx` and `bestAddr` once there is one.
structure Search where
  best : Option (ℕ × ℤ)
  bestSize : ℤ
  count : ℕ
  deriving DecidableEq, Repr

def Search.start (c : Config) : Search :=
  { best := none
    bestSize := if c.policy = .best then c.size + 1 else -1
    count := 0 }

def prefers : Policy → ℤ → ℤ → Prop
  | .best, esize, bestSize => esize < bestSize
  | .worst, esize, bestSize => bestSize < esize
  | .first, _, _ => True

instance (policy : Policy) (esize bestSize : ℤ) : Decidable (prefers policy esize bestSize) :=
  match policy with
  | .best => inferInstanceAs (Decidable (esize < bestSize))
  | .worst => inferInstanceAs (Decidable (bestSize < esize))
  | .first => inferInstanceAs (Decidable True)

def search (policy : Policy) (size : ℤ) : ℕ → Search → List Block → Search
  | _, st, [] => st
  | i, st, (eaddr, esize) :: rest =>
    let st := { st with count := st.count + 1 }
    if size ≤ esize ∧ prefers policy esize st.bestSize then
      let st := { st with best := some (i, eaddr), bestSize := esize }
      if policy = .first then st else search policy size (i + 1) st rest
    else search policy size (i + 1) st rest

def malloc (c : Config) (h : Heap) (size : ℤ) : Option (Heap × ℤ × ℕ) :=
  let size := blockSize c size
  let st := search c.policy size 0 (Search.start c) h.freelist
  match st.best with
  | some (bestIdx, bestAddr) =>
    if size < st.bestSize then
      let freelist := h.freelist.set bestIdx (bestAddr + size, st.bestSize - size)
      (addToMap { h with freelist := freelist } bestAddr size).map
        (fun h => (h, bestAddr, st.count))
    else if st.bestSize = size then
      let freelist := h.freelist.eraseIdx bestIdx
      (addToMap { h with freelist := freelist } bestAddr size).map
        (fun h => (h, bestAddr, st.count))
    else none
  | none => some (h, -1, st.count)

def insert (order : Order) (b : Block) (freelist : List Block) : List Block :=
  match order with
  | .insertBack => freelist ++ [b]
  | .insertFront => b :: freelist
  | .addrsort => (freelist ++ [b]).insertionSort (fun a b => a.1 ≤ b.1)
  | .sizesortUp => (freelist ++ [b]).insertionSort (fun a b => a.2 ≤ b.2)
  | .sizesortDown => (freelist ++ [b]).insertionSort (fun a b => b.2 ≤ a.2)

def coalesceFrom (curr : Block) : List Block → List Block
  | [] => [curr]
  | (eaddr, esize) :: rest =>
    if eaddr = curr.1 + curr.2 then coalesceFrom (curr.1, curr.2 + esize) rest
    else curr :: coalesceFrom (eaddr, esize) rest

def coalesceAll : List Block → List Block
  | [] => []
  | curr :: rest => coalesceFrom curr rest

def free (c : Config) (h : Heap) (addr : ℤ) : Heap × ℤ :=
  match h.sizemap.find? (fun b => b.1 = addr) with
  | none => (h, -1)
  | some b =>
    let freelist := insert c.returnPolicy (addr, b.2) h.freelist
    ({ freelist := if c.coalesce then coalesceAll freelist else freelist
       sizemap := h.sizemap.eraseP (fun b => b.1 = addr) }, 0)

inductive Call where
  | malloc (size : ℤ)
  | free (addr : ℤ)
  deriving DecidableEq, Repr

def call (c : Config) (h : Heap) : Call → Option Heap
  | .malloc size => (malloc c h size).map Prod.fst
  | .free addr => some (free c h addr).1

def run (c : Config) (calls : List Call) : Option Heap :=
  calls.foldlM (call c) (init c)

example : (run ⟨100, 1000, 0, .best, .addrsort, true, -1, Or.inl rfl⟩
    [.malloc 3, .malloc 5, .free 1000, .malloc 2, .free 1000]) =
    some ⟨[(1000, 3), (1008, 92)], [(1003, 5)]⟩ := by decide

end Freespace
