import HTWGArchive.Dictionary.EntryList
import HTWGArchive.Library.JavaInt
import HTWGArchive.Library.Slots

namespace HashDictionary

open BinaryTreeDictionary (Entry)
open JavaInt Slots

class Key (K : Type*) extends BEq K where
  valueOf : K → List UInt16

open Key

variable {K V : Type*}

structure Dictionary (K V : Type*) where
  key : Int
  size : ℕ
  load : Int
  dict : List (Option (List (Entry K V)))
  deriving Repr

-- A negative array size is an exception.
def create (key load : Int) : Option (Dictionary K V) :=
  if load < 0 then none
  else some { key := key, size := 0, load := load, dict := List.replicate load.toNat none }

def hashSum (key : Int) (s : List UInt16) : Int :=
  s.foldl (fun adr c => int (key * adr + c.toNat)) 0

def isprimeFrom (n : Int) : ℕ → Int → Bool
  | 0, _ => true
  | fuel + 1, i =>
    if int (i * i) ≤ n then
      if n.tmod i = 0 then false else isprimeFrom n fuel (i + 1)
    else true

-- The loop ends at `i = n` at the latest.
def isprime (n : Int) : Bool :=
  isprimeFrom n n.toNat 2

def getprimeFrom : ℕ → Int → Int
  | 0, i => i
  | fuel + 1, i => if isprime (int (i + 1)) then int (i + 1) else getprimeFrom fuel (int (i + 1))

-- After the largest integer comes the smallest, which passes `isprime`.
def getprime (i : Int) : Int :=
  getprimeFrom (2 ^ 31 - i).toNat i

-- `(int) (load * 1.2)`: the double product lies within one rounding of the exact one, so that
-- the cast gives the floor of 6/5 of the load, and the largest integer beyond that.
def enlarged (load : Int) : Int :=
  min (load * 6 / 5) maxValue

-- `hasNext` moves on to the next list that is not null, and is false if that list is empty.
def iterate : List (Option (List (Entry K V))) → List (Entry K V)
  | [] => []
  | none :: rest => iterate rest
  | some [] :: _ => []
  | some (e :: es) :: rest => e :: es ++ iterate rest

variable [Key K]

def genHash (key : Int) (length : ℕ) (k : K) : Option Int :=
  let adr := hashSum key (valueOf k)
  let adr := if adr < 0 then int (-adr) else adr
  if (length : Int) - 1 = 0 then none else some (adr.tmod (length - 1))

def find (es : List (Entry K V)) (k : K) : Option V :=
  (es.find? (fun e => e.key == k)).map (·.value)

def search (d : Dictionary K V) (k : K) : Option (Option V) :=
  match genHash d.key d.dict.length k with
  | none => none
  | some i =>
    match slot d.dict i with
    | none => none
    | some none => some none
    | some (some es) => some (find es k)

def replace (k : K) (value : V) : List (Entry K V) → List (Entry K V)
  | [] => []
  | e :: es => if e.key == k then { e with value := value } :: es else e :: replace k value es

-- What `insert` does after `ensurecapacity`.
def put (d : Dictionary K V) (k : K) (value : V) : Option (Dictionary K V × Option V) :=
  match genHash d.key d.dict.length k with
  | none => none
  | some i =>
    match search d k with
    | none => none
    | some none => do
      let bucket ← slot d.dict i
      let dict ← write d.dict i (some (bucket.getD [] ++ [⟨k, value⟩]))
      return ({ d with dict := dict, size := d.size + 1 }, none)
    | some (some _) => do
      let bucket ← slot d.dict i
      let es ← bucket
      let dict ← write d.dict i (some (replace k value es))
      return ({ d with dict := dict }, find es k)

def putAll (grow : Dictionary K V → Option (Dictionary K V)) (d : Dictionary K V) :
    List (Entry K V) → Option (Dictionary K V)
  | [] => some d
  | e :: es => do
    let d ← grow d
    let x ← put d e.key e.value
    putAll grow x.1 es

-- The first argument bounds how deep backups of backups are nested.
def ensurecapacity : ℕ → Dictionary K V → Option (Dictionary K V)
  | 0, d => if d.load ≤ d.size then none else some d
  | depth + 1, d =>
    if d.load ≤ d.size then do
      let load := getprime (enlarged d.load)
      let backup ← create 3 load
      let backup ← putAll (ensurecapacity depth) backup (iterate d.dict)
      return { d with load := load, dict := backup.dict }
    else some d

def insert (depth : ℕ) (d : Dictionary K V) (k : K) (value : V) :
    Option (Dictionary K V × Option V) := do
  let d ← ensurecapacity depth d
  put d k value

def remove (d : Dictionary K V) (k : K) : Option (Dictionary K V × Option V) := do
  match genHash d.key d.dict.length k with
  | none => none
  | some i => do
    let bucket ← slot d.dict i
    let es ← bucket
    match find es k with
    | none => return (d, none)
    | some old =>
      let dict ← write d.dict i (some (es.eraseP (fun e => e.key == k)))
      return ({ d with dict := dict }, some old)

def call (depth : ℕ) (d : Dictionary K V) :
    FiniteMap.Call K V → Option (Dictionary K V × Option V)
  | .insert k v => insert depth d k v
  | .remove k => remove d k
  | .search k => (search d k).map fun v => (d, v)

end HashDictionary
