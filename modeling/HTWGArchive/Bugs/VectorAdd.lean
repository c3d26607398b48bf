import HTWGArchive.Library.LockOrder

namespace VectorAdd

open LockOrder

-- The lock of a vector, and the one around the acquisition of the others.
inductive Mutex where
  | global
  | vector (i : ℕ)
  deriving DecidableEq, Repr

inductive Instr where
  | lock (m : Mutex)
  | tryLock (m : Mutex) (undo : List Mutex)
  | unlock (m : Mutex)
  deriving DecidableEq, Repr

def VECTOR_SIZE : ℕ := 100

-- The values of all vectors, as 32-bit integers.
abbrev Vectors := ℕ → ℕ → BitVec 32

-- What the versions of `vector_add` do before and after the loop over the values, which they share.
structure Version where
  acquire : ℕ → ℕ → List Instr
  release : ℕ → ℕ → List Mutex

def vectorGlobalOrder : Version where
  acquire := fun v_dst v_src =>
    if v_dst < v_src then [.lock (.vector v_dst), .lock (.vector v_src)]
    else if v_src < v_dst then [.lock (.vector v_src), .lock (.vector v_dst)]
    else [.lock (.vector v_src)]
  release := fun v_dst v_src =>
    if v_dst ≠ v_src then [.vector v_src, .vector v_dst] else [.vector v_src]

def vectorAvoidHoldAndWait : Version where
  acquire := fun v_dst v_src =>
    [.lock .global, .lock (.vector v_dst), .lock (.vector v_src), .unlock .global]
  release := fun v_dst v_src => [.vector v_dst, .vector v_src]

-- A lock that is not free sends the thread back to the start without the locks it has.
def vectorTryWait : Version where
  acquire := fun v_dst v_src =>
    [.tryLock (.vector v_dst) [], .tryLock (.vector v_src) [.vector v_dst]]
  release := fun v_dst v_src => [.vector v_dst, .vector v_src]

def vectorDeadlock : Version where
  acquire := fun v_dst v_src => [.lock (.vector v_dst), .lock (.vector v_src)]
  release := fun v_dst v_src => [.vector v_dst, .vector v_src]

structure Args where
  vector_add_order : ℕ
  vector_0 : ℕ
  vector_1 : ℕ
  deriving DecidableEq, Repr

def Args.dst (args : Args) : ℕ :=
  if args.vector_add_order = 0 then args.vector_0 else args.vector_1

def Args.src (args : Args) : ℕ :=
  if args.vector_add_order = 0 then args.vector_1 else args.vector_0

-- Where a worker is: `i` of its loops are done, and `j` of the values.
inductive Local where
  | next (i : ℕ)
  | acquiring (i : ℕ) (rest : List Instr)
  | undoing (i : ℕ) (rest : List Mutex)
  | adding (i j : ℕ)
  | storing (i j : ℕ) (sum : BitVec 32)
  | releasing (i : ℕ) (rest : List Mutex)
  | returned
  deriving DecidableEq, Repr

def store (v_dst j : ℕ) (sum : BitVec 32) (v : Vectors) : Vectors :=
  Function.update v v_dst (Function.update (v v_dst) j sum)

theorem store_self (v_dst j : ℕ) (sum : BitVec 32) (v : Vectors) :
    store v_dst j sum v v_dst j = sum := by
  simp [store]

theorem store_of_ne {v_dst j x y : ℕ} (h : ¬ (x = v_dst ∧ y = j)) (sum : BitVec 32)
    (v : Vectors) : store v_dst j sum v x y = v x y := by
  rw [store]
  by_cases hx : x = v_dst
  · subst hx
    rw [Function.update_self, Function.update_of_ne (fun hy => h ⟨rfl, hy⟩)]
  · rw [Function.update_of_ne hx]

-- One step of `worker` with `vector_add`; the values are read and written apart.
def worker (version : Version) (loops : ℕ) (args : Args) :
    Local → Vectors → Action Local Mutex Vectors
  | .next i, v =>
    if i < loops then .work (.acquiring i (version.acquire args.dst args.src)) v
    else .work .returned v
  | .acquiring i [], v => .work (.adding i 0) v
  | .acquiring i (.lock m :: rest), _ => .lock m (.acquiring i rest)
  | .acquiring i (.tryLock m undo :: rest), _ =>
    .tryLock m (.acquiring i rest) (.undoing i undo)
  | .acquiring i (.unlock m :: rest), _ => .unlock m (.acquiring i rest)
  | .undoing i [], v => .work (.acquiring i (version.acquire args.dst args.src)) v
  | .undoing i (m :: rest), _ => .unlock m (.undoing i rest)
  | .adding i j, v =>
    if j < VECTOR_SIZE then .work (.storing i j (v args.dst j + v args.src j)) v
    else .work (.releasing i (version.release args.dst args.src)) v
  | .storing i j sum, v => .work (.adding i (j + 1)) (store args.dst j sum v)
  | .releasing i [], v => .work (.next (i + 1)) v
  | .releasing i (m :: rest), _ => .unlock m (.releasing i rest)
  | .returned, _ => .ended

section Worker

variable {version : Version} {loops i j : ℕ} {args : Args} {v : Vectors}

theorem worker_next (h : i < loops) : worker version loops args (.next i) v =
    .work (.acquiring i (version.acquire args.dst args.src)) v :=
  if_pos h

theorem worker_last (h : ¬ i < loops) :
    worker version loops args (.next i) v = .work .returned v :=
  if_neg h

theorem worker_adding (h : j < VECTOR_SIZE) : worker version loops args (.adding i j) v =
    .work (.storing i j (v args.dst j + v args.src j)) v :=
  if_pos h

theorem worker_added (h : ¬ j < VECTOR_SIZE) : worker version loops args (.adding i j) v =
    .work (.releasing i (version.release args.dst args.src)) v :=
  if_neg h

end Worker

variable {T : Type}

def start (v : Vectors) : State T Local Mutex Vectors :=
  { shared := v
    owner := fun _ => none
    locals := fun _ => .next 0 }

-- What `main` hands to its threads.
def mainArgs (cause_deadlock enable_parallelism : Bool) (i : ℕ) : Args :=
  { vector_add_order := if cause_deadlock ∧ i % 2 = 1 then 1 else 0
    vector_0 := if enable_parallelism then i * 2 else 0
    vector_1 := if enable_parallelism then i * 2 + 1 else 1 }

def mainVectors : Vectors :=
  fun i _ => BitVec.ofNat 32 i

end VectorAdd
