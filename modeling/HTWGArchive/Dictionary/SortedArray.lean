import HTWGArchive.Dictionary.EntryList
import HTWGArchive.Library.Slots

namespace SortedArrayDictionary

open BinaryTreeDictionary (Entry)
open Slots

variable {K V : Type*}

def defCapacity : ℕ := 32

-- An entry object stands in one slot only, so `setValue` is a write to its slot.
structure Dictionary (K V : Type*) where
  dict : List (Option (Entry K V))
  size : ℕ
  deriving Repr

def Dictionary.empty : Dictionary K V where
  dict := List.replicate defCapacity none
  size := 0

-- `none` is an index out of bounds or a null entry.
def entry (dict : List (Option (Entry K V))) (i : Int) : Option (Entry K V) :=
  (slot dict i).join

def ensurecapacity (d : Dictionary K V) : Option (Dictionary K V) :=
  if d.dict.length ≤ d.size then
    if d.dict.length ≤ d.size * 2 then
      some { d with dict := d.dict ++ List.replicate (d.size * 2 - d.dict.length) none }
    else none
  else some d

variable [LinearOrder K]

def replace (key : K) (value : V) (d : Dictionary K V) (i : ℕ) :
    Option (Option (Dictionary K V × V)) :=
  if i < d.size then do
    let e ← entry d.dict i
    if e.key = key then
      let dict ← write d.dict i (some { e with value := value })
      return some ({ d with dict := dict }, e.value)
    else replace key value d (i + 1)
  else some none
termination_by d.size - i

-- The last argument is `i + 1`.
def shift (key : K) : List (Option (Entry K V)) → ℕ → Option (List (Option (Entry K V)) × ℕ)
  | dict, 0 => some (dict, 0)
  | dict, i + 1 => do
    let e ← entry dict i
    if e.key < key then
      let dict' ← write dict (i + 1) (some e)
      shift key dict' i
    else some (dict, i + 1)

def insert (d : Dictionary K V) (key : K) (value : V) : Option (Dictionary K V × Option V) := do
  let d ← ensurecapacity d
  match ← replace key value d 0 with
  | some (d', old) => return (d', some old)
  | none =>
    let (dict, i) ← shift key d.dict d.size
    let dict ← write dict i (some ⟨key, value⟩)
    return ({ dict := dict, size := d.size + 1 }, none)

def searchLoop (dict : List (Option (Entry K V))) (key : K) (li re : Int) : Option (Option V) :=
  if li ≤ re then
    let m := (li + re) / 2
    match entry dict m with
    | none => none
    | some e =>
      if key > e.key then searchLoop dict key li (m - 1)
      else if key < e.key then searchLoop dict key (m + 1) re
      else some (some e.value)
  else some none
termination_by (re + 1 - li).toNat

def search (d : Dictionary K V) (key : K) : Option (Option V) :=
  searchLoop d.dict key 0 (d.size - 1)

def removeLoop (dict : List (Option (Entry K V))) (key : K) (m li re : Int) : Option Int :=
  if li ≤ re then
    let m := (re + li) / 2
    match entry dict m with
    | none => none
    | some e =>
      if e.key > key then removeLoop dict key m (m + 1) re
      else if e.key < key then removeLoop dict key m li (m - 1)
      else some m
  else some m
termination_by (re + 1 - li).toNat

def closeGap (dict : List (Option (Entry K V))) (size : ℕ) (i : Int) :
    Option (List (Option (Entry K V))) :=
  if i < size - 1 then
    match slot dict (i + 1) with
    | none => none
    | some x =>
      match write dict i x with
      | none => none
      | some dict' => closeGap dict' size (i + 1)
  else some dict
termination_by (size - 1 - i).toNat

def remove (d : Dictionary K V) (key : K) : Option (Dictionary K V × Option V) :=
  match search d key with
  | none => none
  | some none => some (d, none)
  | some (some _) =>
    match removeLoop d.dict key 0 0 (d.size - 1) with
    | none => none
    | some m => do
      let e ← entry d.dict m
      let dict ← closeGap d.dict d.size m
      let dict ← write dict (d.size - 1) none
      return ({ dict := dict, size := d.size - 1 }, some e.value)

def call (d : Dictionary K V) : FiniteMap.Call K V → Option (Dictionary K V × Option V)
  | .insert k v => insert d k v
  | .remove k => remove d k
  | .search k => (search d k).map fun v => (d, v)

def slots (es : List (Entry K V)) (c : ℕ) : List (Option (Entry K V)) :=
  es.map some ++ List.replicate c none

section Slots

variable {es : List (Entry K V)} {c i : ℕ}

omit [LinearOrder K]

theorem entry_middle {e : Entry K V} (as : List (Option (Entry K V)))
    (rest : List (Option (Entry K V))) : entry (as ++ some e :: rest) as.length = some e := by
  simp [entry, slot_natCast]

theorem entry_slots (h : i < es.length) : entry (slots es c) i = some es[i] := by
  simp [entry, slot_natCast, slots, List.getElem?_append, h]

end Slots

def Descending (es : List (Entry K V)) : Prop :=
  es.Pairwise (fun a b => b.key < a.key)

theorem Descending.index_lt {es : List (Entry K V)} (h : Descending es) {i j : ℕ}
    (hi : i < es.length) (hj : j < es.length) (hk : es[j].key < es[i].key) : i < j := by
  by_contra hle
  rcases Nat.lt_or_eq_of_le (Nat.le_of_not_lt hle) with hlt | rfl
  · exact lt_asymm hk (List.pairwise_iff_getElem.mp h j i hj hi hlt)
  · exact lt_irrefl _ hk

end SortedArrayDictionary
