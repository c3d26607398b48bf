import Mathlib.Algebra.GroupWithZero.Nat
import Mathlib.Algebra.Order.Ring.Int
import Mathlib.Logic.Function.Basic

namespace MultilevelTranslate

-- `noDraw` is the end of the drawn numbers that we are given, the others are failed assertions
-- and a process without a page directory.
inductive Fault where
  | noDraw
  | noFreePage
  | badEntry
  | keyError
  deriving DecidableEq, Repr

def pageSize : ℕ := 32

def physPages : ℕ := 128

def vaPages : ℕ := 1024

def pageBits : ℕ := 5

def PDE_MASK : ℕ := 0x7c00

def PDE_SHIFT : ℕ := 10

def PTE_MASK : ℕ := 0x03e0

def PTE_SHIFT : ℕ := 5

def OFFSET_MASK : ℕ := 0x1f

-- `draws` are the numbers that `int(random.random() * n)` still yields, whatever its `n` is.
structure OS where
  usedPages : ℕ → Bool
  usedPagesCount : ℕ
  memory : ℕ → ℕ
  pdbr : ℕ → Option ℕ
  draws : List ℕ

def OS.init (draws : List ℕ) : OS :=
  { usedPages := fun _ => false
    usedPagesCount := 0
    memory := fun _ => 0
    pdbr := fun _ => none
    draws := draws }

-- Draws below `n` until one is not taken.
def drawUntil (n : ℕ) (taken : ℕ → Bool) : List ℕ → Except Fault (ℕ × List ℕ)
  | [] => .error .noDraw
  | look :: draws =>
    if n ≤ look then .error .noDraw
    else if taken look then drawUntil n taken draws
    else .ok (look, draws)

def findFree (s : OS) : Except Fault (ℕ × OS) :=
  if s.usedPagesCount < physPages then
    match drawUntil physPages s.usedPages s.draws with
    | .error fault => .error fault
    | .ok (look, draws) =>
      .ok (look, { s with usedPagesCount := s.usedPagesCount + 1
                          usedPages := Function.update s.usedPages look true
                          draws := draws })
  else .error .noFreePage

def initPageDir (whichPage : ℕ) (s : OS) : OS :=
  let whichByte := whichPage <<< pageBits
  let memory := (List.range pageSize).foldl
    (fun memory i => Function.update memory (whichByte + i) 0x7f) s.memory
  { s with memory := memory }

def initPageTablePage (whichPage : ℕ) (s : OS) : OS :=
  initPageDir whichPage s

def getPageTableEntry (virtualAddr ptePage : ℕ) (s : OS) : ℕ × ℕ × ℕ :=
  let pteBits := (virtualAddr &&& PTE_MASK) >>> PTE_SHIFT
  let pteAddr := (ptePage <<< pageBits) ||| pteBits
  let pte := s.memory pteAddr
  ((pte &&& 0x80) >>> 7, pte &&& 0x7f, pteAddr)

def getPageDirEntry (pid virtualAddr : ℕ) (s : OS) : Except Fault (ℕ × ℕ × ℕ) :=
  match s.pdbr pid with
  | none => .error .keyError
  | some pageDir =>
    let pdeBits := (virtualAddr &&& PDE_MASK) >>> PDE_SHIFT
    let pdeAddr := (pageDir <<< pageBits) ||| pdeBits
    let pde := s.memory pdeAddr
    .ok ((pde &&& 0x80) >>> 7, pde &&& 0x7f, pdeAddr)

def setPageTableEntry (pteAddr physicalPage : ℕ) (s : OS) : OS :=
  { s with memory := Function.update s.memory pteAddr (0x80 ||| physicalPage) }

def setPageDirEntry (pdeAddr physicalPage : ℕ) (s : OS) : OS :=
  { s with memory := Function.update s.memory pdeAddr (0x80 ||| physicalPage) }

-- The page of the page table that the directory leads to, made when there is none.
def pageTablePage (pid virtualAddr : ℕ) (s : OS) : Except Fault (ℕ × OS) :=
  match getPageDirEntry pid virtualAddr s with
  | .error fault => .error fault
  | .ok (valid, ptPtr, pdeAddr) =>
    if valid = 0 then
      if ptPtr = 127 then
        match findFree s with
        | .error fault => .error fault
        | .ok (ptePage, s) =>
          .ok (ptePage, initPageTablePage ptePage (setPageDirEntry pdeAddr ptePage s))
      else .error .badEntry
    else .ok (ptPtr, s)

def allocVirtualPage (pid virtualPage physicalPage : ℕ) (s : OS) : Except Fault OS :=
  let virtualAddr := virtualPage <<< pageBits
  match pageTablePage pid virtualAddr s with
  | .error fault => .error fault
  | .ok (ptePage, s) =>
    let (valid, pfn, pteAddr) := getPageTableEntry virtualAddr ptePage s
    if valid = 0 ∧ pfn = 127 then .ok (setPageTableEntry pteAddr physicalPage s)
    else .error .badEntry

def translate (pid virtualAddr : ℕ) (s : OS) : Except Fault ℤ :=
  match getPageDirEntry pid virtualAddr s with
  | .error fault => .error fault
  | .ok (valid, ptPtr, _) =>
    if valid = 1 then
      let (valid, pfn, _) := getPageTableEntry virtualAddr ptPtr s
      if valid = 1 then .ok (((pfn <<< pageBits) ||| (virtualAddr &&& OFFSET_MASK) : ℕ) : ℤ)
      else .ok (-2)
    else .ok (-1)

def fillPage (whichPage : ℕ) : List ℕ → OS → Except Fault OS
  | [], s => .ok s
  | j :: js, s =>
    match s.draws with
    | [] => .error .noDraw
    | value :: draws =>
      if value < 31 then
        fillPage whichPage js
          { s with memory := Function.update s.memory (whichPage * pageSize + j) value
                   draws := draws }
      else .error .noDraw

-- `used[vp] == 1` holds of the pages in `allocatedVPs`.
def allocPages (pid : ℕ) : ℕ → List ℕ → OS → Except Fault (List ℕ × OS)
  | 0, allocatedVPs, s => .ok (allocatedVPs, s)
  | numPages + 1, allocatedVPs, s =>
    match drawUntil vaPages (fun vp => allocatedVPs.contains vp) s.draws with
    | .error fault => .error fault
    | .ok (vp, draws) =>
      match findFree { s with draws := draws } with
      | .error fault => .error fault
      | .ok (pp, s) =>
        match allocVirtualPage pid vp pp s with
        | .error fault => .error fault
        | .ok s =>
          match fillPage pp (List.range pageSize) s with
          | .error fault => .error fault
          | .ok s => allocPages pid numPages (allocatedVPs ++ [vp]) s

def procAlloc (pid numPages : ℕ) (s : OS) : Except Fault (List ℕ × OS) :=
  match findFree s with
  | .error fault => .error fault
  | .ok (pageDir, s) =>
    allocPages pid numPages []
      (initPageDir pageDir { s with pdbr := Function.update s.pdbr pid (some pageDir) })

def getValue (addr : ℕ) (s : OS) : ℕ :=
  s.memory addr

-- One call of `procAlloc` after the other, with what each of them returns.
def procAllocs : List (ℕ × ℕ) → OS → Except Fault (List (ℕ × List ℕ) × OS)
  | [], s => .ok ([], s)
  | (pid, numPages) :: calls, s =>
    match procAlloc pid numPages s with
    | .error fault => .error fault
    | .ok (allocatedVPs, s) =>
      (procAllocs calls s).map (fun r => ((pid, allocatedVPs) :: r.1, r.2))

end MultilevelTranslate
