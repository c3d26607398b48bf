import Mathlib.Algebra.Order.Ring.Int
import Mathlib.Algebra.GroupWithZero.Nat

namespace RaidSimulator

inductive Level where
  | zero
  | one
  | four
  | five
  deriving DecidableEq, Repr

inductive Raid5Type where
  | LA
  | LS
  deriving DecidableEq, Repr

-- The fields after the source's own are what the program checks before it starts.
structure Raid where
  chunkSize : ℕ
  numDisks : ℕ
  raidLevel : Level
  raid5type : Raid5Type
  chunk_pos : 0 < chunkSize
  disks_pos : 0 < numDisks
  two_disks : raidLevel ≠ .zero → 2 ≤ numDisks
  mirrored : raidLevel = .one → numDisks % 2 = 0

inductive Op where
  | read (disk off : ℕ)
  | write (disk off : ℕ)
  deriving DecidableEq, Repr

def Raid.blocksInStripe (r : Raid) : ℕ :=
  (r.numDisks - 1) * r.chunkSize

def Raid.bmap0 (r : Raid) (bnum : ℕ) : ℕ × ℕ :=
  let cnum := bnum / r.chunkSize
  let coff := bnum % r.chunkSize
  (cnum % r.numDisks, (cnum / r.numDisks) * r.chunkSize + coff)

def Raid.enqueue0 (r : Raid) (addr size : ℕ) (isWrite : Bool) : List Op :=
  (List.range' addr size).map (fun b =>
    let (disk, off) := r.bmap0 b
    if isWrite then .write disk off else .read disk off)

def Raid.bmap1 (r : Raid) (bnum : ℕ) : ℕ × ℕ × ℕ :=
  let cnum := bnum / r.chunkSize
  let coff := bnum % r.chunkSize
  let disk := 2 * (cnum % (r.numDisks / 2))
  (disk, disk + 1, (cnum / (r.numDisks / 2)) * r.chunkSize + coff)

def Raid.enqueue1 (r : Raid) (addr size : ℕ) (isWrite : Bool) : List Op :=
  (List.range' addr size).flatMap (fun b =>
    let (disk1, disk2, off) := r.bmap1 b
    if isWrite then [.write disk1 off, .write disk2 off]
    else if off % 2 = 0 then [.read disk1 off]
    else [.read disk2 off])

def Raid.bmap4 (r : Raid) (bnum : ℕ) : Option (ℕ × ℕ) :=
  let cnum := bnum / r.chunkSize
  let coff := bnum % r.chunkSize
  some (cnum % (r.numDisks - 1), (cnum / (r.numDisks - 1)) * r.chunkSize + coff)

def Raid.pmap4 (r : Raid) (_ : ℕ) : Option ℕ :=
  some (r.numDisks - 1)

-- Left-asymmetric and left-symmetric layouts.
def Raid.shift (r : Raid) (disk pdisk col : ℕ) : ℕ :=
  match r.raid5type with
  | .LA => if pdisk ≤ disk then disk + 1 else disk
  | .LS => (((disk : ℤ) - col) % r.numDisks).toNat

-- Disk, parity disk and offset; the failed assertion gives nothing.
def Raid.bmap5' (r : Raid) (bnum : ℕ) : Option (ℕ × ℕ × ℕ) :=
  let cnum := bnum / r.chunkSize
  let coff := bnum % r.chunkSize
  let ddsk := cnum / (r.numDisks - 1)
  let doff := ddsk * r.chunkSize + coff
  let disk := cnum % (r.numDisks - 1)
  let col := ddsk % r.numDisks
  let pdisk := (r.numDisks - 1) - col
  let disk := r.shift disk pdisk col
  if disk = pdisk then none else some (disk, pdisk, doff)

def Raid.bmap5 (r : Raid) (bnum : ℕ) : Option (ℕ × ℕ) :=
  (r.bmap5' bnum).map (fun m => (m.1, m.2.2))

def Raid.pmap5 (r : Raid) (snum : ℕ) : Option ℕ :=
  (r.bmap5' (snum * r.blocksInStripe)).map (fun m => m.2.1)

def addOff (offs : List ℕ) (m : ℕ × ℕ) : List ℕ :=
  if m.2 ∈ offs then offs else offs ++ [m.2]

-- The offsets in the order in which they first occur.
def offList (targets : List (ℕ × ℕ)) : List ℕ :=
  targets.foldl addOff []

def Raid.doPartialWrite (r : Raid) (bmap : ℕ → Option (ℕ × ℕ)) (pmap : ℕ → Option ℕ)
    (stripe first last : ℕ) : Option (List Op) := do
  let numWrites := last - first
  let pdisk ← pmap stripe
  let targets ← (List.range' first numWrites).mapM bmap
  let writes := targets.map (fun m => Op.write m.1 m.2) ++
    (offList targets).map (fun off => Op.write pdisk off)
  if numWrites + 1 ≤ r.blocksInStripe - numWrites then
    some (targets.map (fun m => Op.read m.1 m.2) ++
      (offList targets).map (fun off => Op.read pdisk off) ++ writes)
  else
    let stripeBegin := stripe * r.blocksInStripe
    let stripeEnd := stripeBegin + r.blocksInStripe
    let before ← (List.range' stripeBegin (first - stripeBegin)).mapM bmap
    let after ← (List.range' last (stripeEnd - last)).mapM bmap
    some ((before ++ after).map (fun m => Op.read m.1 m.2) ++ writes)

def Raid.writeStripes (r : Raid) (bmap : ℕ → Option (ℕ × ℕ)) (pmap : ℕ → Option ℕ) :
    List ℕ → ℕ → ℕ → Option (List Op)
  | [], _, _ => some []
  | stripe :: stripes, left, first => do
    let endOfStripe := stripe * r.blocksInStripe + r.blocksInStripe
    let last := if r.blocksInStripe ≤ left then first + r.blocksInStripe else first + left
    let last := if endOfStripe ≤ last then endOfStripe else last
    let ops ← r.doPartialWrite bmap pmap stripe first last
    let rest ← r.writeStripes bmap pmap stripes (left - (last - first)) last
    some (ops ++ rest)

def Raid.bmap45 (r : Raid) : ℕ → Option (ℕ × ℕ) :=
  if r.raidLevel = .four then r.bmap4 else r.bmap5

def Raid.pmap45 (r : Raid) : ℕ → Option ℕ :=
  if r.raidLevel = .four then r.pmap4 else r.pmap5

def Raid.enqueue45 (r : Raid) (addr size : ℕ) (isWrite : Bool) : Option (List Op) :=
  if isWrite then
    let initStripe := addr / r.blocksInStripe
    let finalStripe := (addr + size - 1) / r.blocksInStripe
    r.writeStripes r.bmap45 r.pmap45 (List.range' initStripe (finalStripe + 1 - initStripe)) size
      addr
  else
    ((List.range' addr size).mapM r.bmap45).map (fun targets =>
      targets.map (fun m => Op.read m.1 m.2))

def Raid.enqueue (r : Raid) (addr size : ℕ) (isWrite : Bool) : Option (List Op) :=
  match r.raidLevel with
  | .zero => some (r.enqueue0 addr size isWrite)
  | .one => some (r.enqueue1 addr size isWrite)
  | .four => r.enqueue45 addr size isWrite
  | .five => r.enqueue45 addr size isWrite

end RaidSimulator
