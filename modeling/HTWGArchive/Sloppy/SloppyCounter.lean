import HTWGArchive.Library.ThreadSums
import Mathlib.Algebra.Order.BigOperators.Group.Finset

namespace SloppyCounter

open Interleaving Semaphore

def NUMCPUS : ℕ := 4

abbrev Cpu := Fin NUMCPUS

def cpuOf (threadID : ℕ) : Cpu :=
  ⟨threadID % NUMCPUS, Nat.mod_lt threadID (by decide)⟩

-- Thread ids and amounts are not negative, and no sum leaves the range of `int`. The last two
-- fields record how much has been passed to calls of `update` and how much to those
-- that have returned; no step reads them.
structure Counter where
  global : ℕ
  glock : ℕ
  localCount : Cpu → ℕ
  llock : Cpu → ℕ
  threshold : ℕ
  started : ℕ
  completed : ℕ

def Counter.init (threshold : ℕ) : Counter :=
  { threshold := threshold, global := 0, glock := 1, localCount := fun _ => 0, llock := fun _ => 1
    started := 0, completed := 0 }

inductive Call where
  | update (threadID amt : ℕ)
  | get
  deriving DecidableEq, Repr

-- A point is named after the statement the thread executes next. `moved` is what `global` has
-- been given and the local counter still shows.
inductive UpdateAt where
  | lockLocal
  | loadLocal
  | storeLocal (loaded : ℕ)
  | test
  | lockGlobal
  | loadGlobal
  | storeGlobal (loaded : ℕ)
  | unlockGlobal (moved : ℕ)
  | clearLocal (moved : ℕ)
  | unlockLocal
  deriving DecidableEq, Repr

-- The value `get` has read, with the two records at that moment.
structure Reading where
  val : ℕ
  started : ℕ
  completed : ℕ
  deriving DecidableEq, Repr

inductive GetAt where
  | lockGlobal
  | load
  | unlockGlobal (r : Reading)
  deriving DecidableEq, Repr

inductive At where
  | next
  | update (p : UpdateAt) (cpu : Cpu) (amt : ℕ)
  | get (p : GetAt)
  deriving DecidableEq, Repr

-- A thread makes its calls one after the other and keeps what `get` has returned.
structure Thread where
  point : At
  calls : List Call
  returned : List Reading
  deriving DecidableEq, Repr

def Thread.start (calls : List Call) : Thread :=
  { point := .next, calls := calls, returned := [] }

def begin (l : Thread) (c : Counter) : Option (Thread × Counter) :=
  match l.calls with
  | [] => none
  | .update threadID amt :: calls =>
    some ({ l with point := .update .lockLocal (cpuOf threadID) amt, calls := calls },
      { c with started := c.started + amt })
  | .get :: calls => some ({ l with point := .get .lockGlobal, calls := calls }, c)

def updateStep (cpu : Cpu) (amt : ℕ) (c : Counter) : UpdateAt → Option (At × Counter)
  | .lockLocal =>
    (wait (c.llock cpu)).map fun n =>
      (.update .loadLocal cpu amt, { c with llock := Function.update c.llock cpu n })
  | .loadLocal => some (.update (.storeLocal (c.localCount cpu)) cpu amt, c)
  | .storeLocal loaded =>
    some (.update .test cpu amt,
      { c with localCount := Function.update c.localCount cpu (loaded + amt) })
  | .test =>
    if c.threshold ≤ c.localCount cpu then some (.update .lockGlobal cpu amt, c)
    else some (.update .unlockLocal cpu amt, c)
  | .lockGlobal =>
    (wait c.glock).map fun n => (.update .loadGlobal cpu amt, { c with glock := n })
  | .loadGlobal => some (.update (.storeGlobal c.global) cpu amt, c)
  | .storeGlobal loaded =>
    some (.update (.unlockGlobal (c.localCount cpu)) cpu amt,
      { c with global := loaded + c.localCount cpu })
  | .unlockGlobal moved =>
    some (.update (.clearLocal moved) cpu amt, { c with glock := post c.glock })
  | .clearLocal _ =>
    some (.update .unlockLocal cpu amt,
      { c with localCount := Function.update c.localCount cpu 0 })
  | .unlockLocal =>
    some (.next,
      { c with
        llock := Function.update c.llock cpu (post (c.llock cpu))
        completed := c.completed + amt })

def getStep (l : Thread) (c : Counter) : GetAt → Option (Thread × Counter)
  | .lockGlobal =>
    (wait c.glock).map fun n => ({ l with point := .get .load }, { c with glock := n })
  | .load =>
    some ({ l with point := .get (.unlockGlobal ⟨c.global, c.started, c.completed⟩) }, c)
  | .unlockGlobal r =>
    some ({ l with point := .next, returned := l.returned ++ [r] }, { c with glock := post c.glock })

def step (l : Thread) (c : Counter) : Option (Thread × Counter) :=
  match l.point with
  | .next => begin l c
  | .update p cpu amt => (updateStep cpu amt c p).map fun x => ({ l with point := x.1 }, x.2)
  | .get p => getStep l c p

-- What a step does, point by point.
inductive Moves : At → Counter → At → Counter → Prop where
  | beginUpdate (c : Counter) (cpu : Cpu) (amt : ℕ) :
      Moves .next c (.update .lockLocal cpu amt) { c with started := c.started + amt }
  | beginGet (c : Counter) : Moves .next c (.get .lockGlobal) c
  | lockLocal {c : Counter} {cpu : Cpu} {n : ℕ} (amt : ℕ) : wait (c.llock cpu) = some n →
      Moves (.update .lockLocal cpu amt) c (.update .loadLocal cpu amt)
        { c with llock := Function.update c.llock cpu n }
  | loadLocal (c : Counter) (cpu : Cpu) (amt : ℕ) :
      Moves (.update .loadLocal cpu amt) c (.update (.storeLocal (c.localCount cpu)) cpu amt) c
  | storeLocal (c : Counter) (cpu : Cpu) (amt loaded : ℕ) :
      Moves (.update (.storeLocal loaded) cpu amt) c (.update .test cpu amt)
        { c with localCount := Function.update c.localCount cpu (loaded + amt) }
  | testReached {c : Counter} {cpu : Cpu} (amt : ℕ) : c.threshold ≤ c.localCount cpu →
      Moves (.update .test cpu amt) c (.update .lockGlobal cpu amt) c
  | testBelow {c : Counter} {cpu : Cpu} (amt : ℕ) : c.localCount cpu < c.threshold →
      Moves (.update .test cpu amt) c (.update .unlockLocal cpu amt) c
  | lockGlobal {c : Counter} {n : ℕ} (cpu : Cpu) (amt : ℕ) : wait c.glock = some n →
      Moves (.update .lockGlobal cpu amt) c (.update .loadGlobal cpu amt) { c with glock := n }
  | loadGlobal (c : Counter) (cpu : Cpu) (amt : ℕ) :
      Moves (.update .loadGlobal cpu amt) c (.update (.storeGlobal c.global) cpu amt) c
  | storeGlobal (c : Counter) (cpu : Cpu) (amt loaded : ℕ) :
      Moves (.update (.storeGlobal loaded) cpu amt) c
        (.update (.unlockGlobal (c.localCount cpu)) cpu amt)
        { c with global := loaded + c.localCount cpu }
  | unlockGlobal (c : Counter) (cpu : Cpu) (amt moved : ℕ) :
      Moves (.update (.unlockGlobal moved) cpu amt) c (.update (.clearLocal moved) cpu amt)
        { c with glock := post c.glock }
  | clearLocal (c : Counter) (cpu : Cpu) (amt moved : ℕ) :
      Moves (.update (.clearLocal moved) cpu amt) c (.update .unlockLocal cpu amt)
        { c with localCount := Function.update c.localCount cpu 0 }
  | unlockLocal (c : Counter) (cpu : Cpu) (amt : ℕ) :
      Moves (.update .unlockLocal cpu amt) c .next
        { c with
          llock := Function.update c.llock cpu (post (c.llock cpu))
          completed := c.completed + amt }
  | getLock {c : Counter} {n : ℕ} : wait c.glock = some n →
      Moves (.get .lockGlobal) c (.get .load) { c with glock := n }
  | getLoad (c : Counter) :
      Moves (.get .load) c (.get (.unlockGlobal ⟨c.global, c.started, c.completed⟩)) c
  | getUnlock (c : Counter) (r : Reading) :
      Moves (.get (.unlockGlobal r)) c .next { c with glock := post c.glock }

theorem updateStep_moves {p : UpdateAt} {cpu : Cpu} {amt : ℕ} {c : Counter} {x : At × Counter}
    (h : updateStep cpu amt c p = some x) : Moves (.update p cpu amt) c x.1 x.2 := by
  cases p with
  | lockLocal =>
    obtain ⟨n, hn, rfl⟩ := Option.map_eq_some_iff.mp h
    exact Moves.lockLocal amt hn
  | lockGlobal =>
    obtain ⟨n, hn, rfl⟩ := Option.map_eq_some_iff.mp h
    exact Moves.lockGlobal cpu amt hn
  | test =>
    rw [updateStep] at h
    split at h
    · rename_i hreached
      cases h
      exact Moves.testReached amt hreached
    · rename_i hbelow
      cases h
      exact Moves.testBelow amt (not_le.mp hbelow)
  | _ =>
    cases h
    constructor

theorem getStep_moves {p : GetAt} {l : Thread} {c : Counter} {x : Thread × Counter}
    (h : getStep l c p = some x) : Moves (.get p) c x.1.point x.2 := by
  cases p with
  | lockGlobal =>
    obtain ⟨n, hn, rfl⟩ := Option.map_eq_some_iff.mp h
    exact Moves.getLock hn
  | _ =>
    cases h
    constructor

theorem begin_moves {l : Thread} {c : Counter} {x : Thread × Counter} (h : begin l c = some x) :
    Moves .next c x.1.point x.2 := by
  unfold begin at h
  split at h
  · cases h
  · cases h
    constructor
  · cases h
    constructor

theorem step_moves {l : Thread} {c : Counter} {x : Thread × Counter} (h : step l c = some x) :
    Moves l.point c x.1.point x.2 := by
  unfold step at h
  split at h
  · rename_i hpoint
    rw [hpoint]
    exact begin_moves h
  · rename_i p cpu amt hpoint
    obtain ⟨y, hy, rfl⟩ := Option.map_eq_some_iff.mp h
    rw [hpoint]
    exact updateStep_moves hy
  · rename_i p hpoint
    rw [hpoint]
    exact getStep_moves h

def At.holdsLocal (k : Cpu) : At → Bool
  | .update .lockLocal _ _ => false
  | .update _ cpu _ => cpu = k
  | _ => false

def At.holdsGlobal : At → Bool
  | .update .loadGlobal _ _ | .update (.storeGlobal _) _ _ | .update (.unlockGlobal _) _ _ => true
  | .get .load | .get (.unlockGlobal _) => true
  | _ => false

def At.busy : At → ℕ
  | .update _ _ amt => amt
  | _ => 0

def At.added : At → ℕ
  | .update .lockLocal _ _ | .update .loadLocal _ _ | .update (.storeLocal _) _ _ => 0
  | .update _ _ amt => amt
  | _ => 0

def At.moved : At → ℕ
  | .update (.unlockGlobal moved) _ _ | .update (.clearLocal moved) _ _ => moved
  | _ => 0

-- What the counters show beyond the calls that have returned.
def At.excess (l : At) : ℕ :=
  l.added + l.moved

def At.on (k : Cpu) (f : At → ℕ) : At → ℕ
  | .update p cpu amt => if cpu = k then f (.update p cpu amt) else 0
  | _ => 0

-- What a thread knows of the counters it has locked.
def Fact (c : Counter) : At → Prop
  | .update (.storeLocal loaded) cpu _ => loaded = c.localCount cpu
  | .update (.storeGlobal loaded) _ _ => loaded = c.global
  | .update (.unlockGlobal moved) cpu _ | .update (.clearLocal moved) cpu _ =>
    moved = c.localCount cpu
  | .update .unlockLocal cpu _ => c.localCount cpu < c.threshold
  | _ => True

namespace Moves

variable {l l' : At} {c c' : Counter}

theorem threshold (h : Moves l c l' c') : c'.threshold = c.threshold := by
  cases h <;> rfl

theorem uses_llock (h : Moves l c l' c') (k : Cpu) :
    Uses (fun l => At.holdsLocal k l = true) (c.llock k) (c'.llock k) l l' := by
  cases h with
  | @lockLocal _ cpu n amt hn =>
    rcases eq_or_ne k cpu with rfl | hne
    · exact Or.inl ⟨by simp [hn], by simp [At.holdsLocal]⟩
    · refine Or.inr (Or.inr ⟨Function.update_of_ne hne _ _, ?_⟩)
      simp [At.holdsLocal, hne.symm]
  | unlockLocal _ cpu amt =>
    rcases eq_or_ne k cpu with rfl | hne
    · refine Or.inr (Or.inl ⟨Function.update_self _ _ _, ?_, ?_⟩)
      · simp [At.holdsLocal]
      · simp [At.holdsLocal]
    · refine Or.inr (Or.inr ⟨Function.update_of_ne hne _ _, ?_⟩)
      simp [At.holdsLocal, hne.symm]
  | _ => exact Or.inr (Or.inr ⟨rfl, by simp [At.holdsLocal]⟩)

theorem uses_glock (h : Moves l c l' c') :
    Uses (fun l => At.holdsGlobal l = true) c.glock c'.glock l l' := by
  cases h with
  | lockGlobal _ _ hn => exact Or.inl ⟨hn, rfl⟩
  | getLock hn => exact Or.inl ⟨hn, rfl⟩
  | unlockGlobal => exact Or.inr (Or.inl ⟨rfl, rfl, by simp [At.holdsGlobal]⟩)
  | getUnlock => exact Or.inr (Or.inl ⟨rfl, rfl, by simp [At.holdsGlobal]⟩)
  | _ => exact Or.inr (Or.inr ⟨rfl, by simp [At.holdsGlobal]⟩)

theorem fact (h : Moves l c l' c') (hpos : 0 < c.threshold) (hl : Fact c l) : Fact c' l' := by
  cases h with
  | testBelow _ hbelow => exact hbelow
  | unlockGlobal => exact hl
  | clearLocal c cpu => simpa [Fact] using hpos
  | _ => trivial

-- A counter is changed under its lock only.
theorem frame_local (h : Moves l c l' c') {k : Cpu} (hk : ¬l.holdsLocal k) :
    c'.localCount k = c.localCount k := by
  cases h with
  | storeLocal =>
    refine Function.update_of_ne ?_ _ _
    rintro rfl
    simp [At.holdsLocal] at hk
  | clearLocal =>
    refine Function.update_of_ne ?_ _ _
    rintro rfl
    simp [At.holdsLocal] at hk
  | _ => rfl

theorem frame_global (h : Moves l c l' c') (hl : ¬l.holdsGlobal) : c'.global = c.global := by
  cases h with
  | storeGlobal => simp [At.holdsGlobal] at hl
  | _ => rfl

theorem busy (h : Moves l c l' c') :
    c'.started + c.completed + l.busy = c.started + c'.completed + l'.busy := by
  cases h <;> simp only [At.busy] <;> omega

theorem sum_local (c : Counter) (cpu : Cpu) (n : ℕ) :
    (∑ k, Function.update c.localCount cpu n k) + c.localCount cpu = (∑ k, c.localCount k) + n :=
  ThreadSums.sum_update id c.localCount cpu n

theorem flow (h : Moves l c l' c') (hl : Fact c l) :
    c'.global + (∑ k, c'.localCount k) + (c.completed + l.excess) =
      c.global + (∑ k, c.localCount k) + (c'.completed + l'.excess) := by
  cases h with
  | storeLocal _ cpu amt loaded =>
    have hsum := sum_local c cpu (loaded + amt)
    have hloaded : loaded = c.localCount cpu := hl
    simp only [At.excess, At.added, At.moved]
    omega
  | storeGlobal _ cpu amt loaded =>
    have hloaded : loaded = c.global := hl
    simp only [At.excess, At.added, At.moved]
    omega
  | clearLocal _ cpu amt moved =>
    have hsum := sum_local c cpu 0
    have hmoved : moved = c.localCount cpu := hl
    simp only [At.excess, At.added, At.moved]
    omega
  | unlockLocal =>
    simp only [At.excess, At.added, At.moved]
    omega
  | _ => simp only [At.excess, At.added, At.moved]

-- Outside of the critical section a local counter is below the threshold.
theorem below (h : Moves l c l' c') (hpos : 0 < c.threshold) (hl : Fact c l) {k : Cpu} {rest : ℕ}
    (hk : c.localCount k < c.threshold + (rest + l.on k At.excess)) :
    c'.localCount k < c.threshold + (rest + l'.on k At.excess) := by
  cases h with
  | storeLocal _ cpu amt loaded =>
    have hloaded : loaded = c.localCount cpu := hl
    rcases eq_or_ne cpu k with rfl | hne
    · simp [At.on, At.excess, At.added, At.moved] at hk ⊢
      omega
    · simp [At.on, hne, Function.update_of_ne hne.symm] at hk ⊢
      omega
  | clearLocal _ cpu amt moved =>
    rcases eq_or_ne cpu k with rfl | hne
    · simp
      omega
    · simp [At.on, hne, Function.update_of_ne hne.symm] at hk ⊢
      omega
  | unlockLocal _ cpu amt =>
    rcases eq_or_ne cpu k with rfl | hne
    · have hbelow : c.localCount cpu < c.threshold := hl
      simp only
      omega
    · simp [At.on, hne] at hk ⊢
      omega
  | storeGlobal =>
    refine hk.trans_le ?_
    simp only [At.on, At.excess, At.added, At.moved]
    split <;> simp
  | _ =>
    refine hk.trans_le ?_
    simp [At.on, At.excess, At.added, At.moved]

end Moves

-- Another thread keeps what it knows, as it holds the locks of the counters it knows about.
theorem Fact.frame {l : At} {c c' : Counter} (h : Fact c l) (hthreshold : c'.threshold = c.threshold)
    (hlocal : ∀ k, l.holdsLocal k → c'.localCount k = c.localCount k)
    (hglobal : l.holdsGlobal → c'.global = c.global) : Fact c' l := by
  unfold Fact at h ⊢
  split at h
  · rw [h, hlocal _ (by simp [At.holdsLocal])]
  · rw [h, hglobal rfl]
  · rw [h, hlocal _ (by simp [At.holdsLocal])]
  · rw [h, hlocal _ (by simp [At.holdsLocal])]
  · rwa [hthreshold, hlocal _ (by simp [At.holdsLocal])]
  · trivial

theorem sum_on {f : At → ℕ} (hnext : f .next = 0) (hget : ∀ p, f (.get p) = 0) (l : At) :
    ∑ k, l.on k f = f l := by
  cases l with
  | next => simp [At.on, hnext]
  | update p cpu amt => simp [At.on]
  | get p => simp [At.on, hget]

theorem At.added_le_busy (l : At) : l.added ≤ l.busy := by
  unfold At.added
  split <;> simp [At.busy]

theorem At.on_moved_eq_zero {k : Cpu} {l : At} (h : ¬l.holdsLocal k) : l.on k At.moved = 0 := by
  cases l with
  | update p cpu amt => cases p <;> simp_all [At.on, At.moved, At.holdsLocal]
  | _ => rfl

theorem Fact.on_moved_le {c : Counter} {l : At} (h : Fact c l) (k : Cpu) :
    l.on k At.moved ≤ c.localCount k := by
  cases l with
  | update p cpu amt =>
    rcases eq_or_ne cpu k with rfl | hne
    · cases p with
      | unlockGlobal moved => simpa [At.on, At.moved] using Nat.le_of_eq h
      | clearLocal moved => simpa [At.on, At.moved] using Nat.le_of_eq h
      | _ => simp [At.on, At.moved]
    · simp [At.on, hne]
  | _ => exact Nat.zero_le _

def Reading.Bounded (threshold : ℕ) (r : Reading) : Prop :=
  r.val ≤ r.started ∧ r.completed ≤ r.val + NUMCPUS * (threshold - 1)

theorem Moves.reading {l : At} {c c' : Counter} {r : Reading}
    (h : Moves l c (.get (.unlockGlobal r)) c') : r = ⟨c.global, c.started, c.completed⟩ := by
  cases h
  rfl

theorem step_returned {l : Thread} {c : Counter} {x : Thread × Counter} (h : step l c = some x)
    {r : Reading} (hr : r ∈ x.1.returned) :
    r ∈ l.returned ∨ l.point = .get (.unlockGlobal r) := by
  unfold step at h
  split at h
  · unfold begin at h
    split at h
    · cases h
    · cases h
      exact Or.inl hr
    · cases h
      exact Or.inl hr
  · obtain ⟨y, -, rfl⟩ := Option.map_eq_some_iff.mp h
    exact Or.inl hr
  · rename_i p hpoint
    cases p with
    | lockGlobal =>
      obtain ⟨n, -, rfl⟩ := Option.map_eq_some_iff.mp h
      exact Or.inl hr
    | load =>
      cases h
      exact Or.inl hr
    | unlockGlobal r' =>
      cases h
      rcases List.mem_append.mp hr with hr | hr
      · exact Or.inl hr
      · rw [List.mem_singleton.mp hr]
        exact Or.inr hpoint

variable {T : Type*} [Fintype T] {threshold : ℕ} {s : State T Thread Counter}

structure Inv (threshold : ℕ) (s : State T Thread Counter) : Prop where
  kept : s.shared.threshold = threshold
  llock : ∀ k, Guards (fun l : Thread => l.point.holdsLocal k = true) (s.shared.llock k) s.locals
  glock : Guards (fun l : Thread => l.point.holdsGlobal = true) s.shared.glock s.locals
  fact : ∀ t, Fact s.shared (s.locals t).point
  busy : s.shared.started = s.shared.completed + ∑ t, (s.locals t).point.busy
  flow : s.shared.global + ∑ k, s.shared.localCount k =
    s.shared.completed + ∑ t, (s.locals t).point.excess
  below : ∀ k, s.shared.localCount k < threshold + ∑ t, (s.locals t).point.on k At.excess
  returned : ∀ t, ∀ r ∈ (s.locals t).returned, r.Bounded threshold
  read : ∀ t r, (s.locals t).point = .get (.unlockGlobal r) → r.Bounded threshold

namespace Inv

theorem sum_moved_le (h : Inv threshold s) (k : Cpu) :
    ∑ t, (s.locals t).point.on k At.moved ≤ s.shared.localCount k := by
  refine ThreadSums.sum_le_of_guards (fun l : Thread => l.point.on k At.moved) (h.llock k) ?_ ?_
  · exact fun l hl => At.on_moved_eq_zero hl
  · exact fun t => (h.fact t).on_moved_le k

-- What has been moved but not cleared is still in the local counters.
theorem global_le (h : Inv threshold s) : s.shared.global ≤ s.shared.started := by
  have hmoved : ∑ t, (s.locals t).point.moved ≤ ∑ k, s.shared.localCount k := by
    calc ∑ t, (s.locals t).point.moved
        = ∑ t, ∑ k, (s.locals t).point.on k At.moved := by
          simp only [sum_on (f := At.moved) rfl (fun _ => rfl)]
      _ = ∑ k, ∑ t, (s.locals t).point.on k At.moved := Finset.sum_comm
      _ ≤ ∑ k, s.shared.localCount k := Finset.sum_le_sum (fun k _ => h.sum_moved_le k)
  have hadded : ∑ t, (s.locals t).point.added ≤ ∑ t, (s.locals t).point.busy := by
    exact Finset.sum_le_sum (fun t _ => At.added_le_busy _)
  have hflow := h.flow
  have hbusy := h.busy
  simp only [At.excess, Finset.sum_add_distrib] at hflow
  omega

theorem completed_le (h : Inv threshold s) (hpos : 0 < threshold) :
    s.shared.completed ≤ s.shared.global + NUMCPUS * (threshold - 1) := by
  have hlocal : ∑ k, s.shared.localCount k ≤
      NUMCPUS * (threshold - 1) + ∑ t, (s.locals t).point.excess := by
    calc ∑ k, s.shared.localCount k
        ≤ ∑ k : Cpu, (threshold - 1 + ∑ t, (s.locals t).point.on k At.excess) := by
          refine Finset.sum_le_sum (fun k _ => ?_)
          have hbelow := h.below k
          omega
      _ = NUMCPUS * (threshold - 1) + ∑ t, ∑ k, (s.locals t).point.on k At.excess := by
          rw [Finset.sum_add_distrib, Finset.sum_comm, Finset.sum_const_nat (fun _ _ => rfl),
            Finset.card_univ, Fintype.card_fin]
      _ = NUMCPUS * (threshold - 1) + ∑ t, (s.locals t).point.excess := by
          simp only [sum_on (f := At.excess) rfl (fun _ => rfl)]
  have hflow := h.flow
  omega

variable [DecidableEq T] {t : T} {x : Thread × Counter}

theorem set (h : Inv threshold s) (hpos : 0 < threshold)
    (hx : step (s.locals t) s.shared = some x) : Inv threshold (s.set t x) := by
  have hmoves := step_moves hx
  have hkept := h.kept
  have hown := h.fact t
  have hread : (⟨s.shared.global, s.shared.started, s.shared.completed⟩ : Reading).Bounded
      threshold := ⟨h.global_le, h.completed_le hpos⟩
  constructor
  · exact hmoves.threshold.trans hkept
  · exact fun k => (h.llock k).use (hmoves.uses_llock k)
  · exact h.glock.use hmoves.uses_glock
  · intro u
    rcases eq_or_ne u t with rfl | hne
    · rw [State.set_locals_self]
      exact hmoves.fact (by omega) hown
    · rw [State.set_locals_of_ne s hne]
      refine (h.fact u).frame hmoves.threshold ?_ ?_
      · exact fun k hk => hmoves.frame_local (fun ht => hne ((h.llock k).exclusive hk ht))
      · exact fun hg => hmoves.frame_global (fun ht => hne (h.glock.exclusive hg ht))
  · have hsum := ThreadSums.sum_update (fun l : Thread => l.point.busy) s.locals t x.1
    have hstep := hmoves.busy
    have hbusy := h.busy
    simp only [State.set]
    omega
  · have hsum := ThreadSums.sum_update (fun l : Thread => l.point.excess) s.locals t x.1
    have hstep := hmoves.flow hown
    have hflow := h.flow
    simp only [State.set]
    omega
  · intro k
    have hsum := ThreadSums.sum_update (fun l : Thread => l.point.on k At.excess) s.locals t x.1
    have hle := ThreadSums.le_sum (fun l : Thread => l.point.on k At.excess) s.locals t
    have hbelow := h.below k
    obtain ⟨rest, hrest⟩ := Nat.exists_eq_add_of_le' hle
    have hstep := hmoves.below (by omega) hown
      (show s.shared.localCount k <
        s.shared.threshold + (rest + (s.locals t).point.on k At.excess) by omega)
    simp only [State.set]
    omega
  · intro u r hr
    rcases eq_or_ne u t with rfl | hne
    · rw [State.set_locals_self] at hr
      rcases step_returned hx hr with hr | hr
      · exact h.returned u r hr
      · exact h.read u r hr
    · rw [State.set_locals_of_ne s hne] at hr
      exact h.returned u r hr
  · intro u r hr
    rcases eq_or_ne u t with rfl | hne
    · rw [State.set_locals_self] at hr
      rw [hr] at hmoves
      rwa [hmoves.reading]
    · rw [State.set_locals_of_ne s hne] at hr
      exact h.read u r hr

end Inv

def start (threshold : ℕ) (calls : T → List Call) : State T Thread Counter :=
  ⟨Counter.init threshold, fun t => Thread.start (calls t)⟩

theorem inv_start (hpos : 0 < threshold) (calls : T → List Call) :
    Inv threshold (start threshold calls) where
  kept := rfl
  llock k := Or.inl ⟨rfl, by simp [start, Thread.start, At.holdsLocal]⟩
  glock := Or.inl ⟨rfl, by simp [start, Thread.start, At.holdsGlobal]⟩
  fact _ := trivial
  busy := by simp [start, Counter.init, Thread.start, At.busy]
  flow := by simp [start, Counter.init, Thread.start, At.excess, At.added, At.moved]
  below k := by simpa [start, Counter.init, Thread.start, At.on] using hpos
  returned t r hr := by simp [start, Thread.start] at hr
  read t r hr := by simp [start, Thread.start] at hr

variable [DecidableEq T] {calls : T → List Call}

theorem reached (hpos : 0 < threshold) (h : Reachable step (start threshold calls) s) :
    Inv threshold s :=
  Reachable.invariant (inv_start hpos calls) (fun _ _ _ ih hx => ih.set hpos hx) h

def Quiet (s : State T Thread Counter) : Prop :=
  ∀ t p cpu amt, (s.locals t).point ≠ .update p cpu amt

omit [DecidableEq T] in
theorem Inv.total (h : Inv threshold s) (hquiet : Quiet s) :
    s.shared.global + ∑ k, s.shared.localCount k = s.shared.started := by
  have hidle : ∀ t, (s.locals t).point.busy = 0 ∧ (s.locals t).point.excess = 0 := by
    intro t
    cases hpoint : (s.locals t).point with
    | update p cpu amt => exact absurd hpoint (hquiet t p cpu amt)
    | _ => exact ⟨rfl, rfl⟩
  rw [h.flow, h.busy]
  simp only [hidle]

-- `get` is judged by what has been started and completed when it reads the global counter.
theorem error_bounded (hpos : 1 ≤ threshold) (h : Reachable step (start threshold calls) s) :
    (∀ t, ∀ r ∈ (s.locals t).returned,
      r.val ≤ r.started ∧ r.completed ≤ r.val + NUMCPUS * (threshold - 1)) ∧
      (Quiet s → s.shared.global + ∑ k, s.shared.localCount k = s.shared.started) :=
  ⟨(reached hpos h).returned, (reached hpos h).total⟩

theorem error_bounded_three : ∃ s, Reachable step (start 2 fun _ : Fin 1 => [.update 5 3, .get]) s ∧
    (s.locals 0).returned = [⟨3, 3, 3⟩] ∧
      (∀ t, ∀ r ∈ (s.locals t).returned,
        r.val ≤ r.started ∧ r.completed ≤ r.val + NUMCPUS * (2 - 1)) ∧
      (Quiet s → s.shared.global + ∑ k, s.shared.localCount k = s.shared.started) := by
  obtain ⟨x, hx, hreturned⟩ : ∃ x, solo step 15
      (Thread.start [.update 5 3, .get], Counter.init 2) = some x ∧ x.1.returned = [⟨3, 3, 3⟩] :=
    ⟨_, rfl, rfl⟩
  have hreach : Reachable step (start 2 fun _ : Fin 1 => [.update 5 3, .get])
      ((start 2 fun _ : Fin 1 => [.update 5 3, .get]).set 0 x) :=
    Reachable.runs Relation.ReflTransGen.refl hx
  refine ⟨_, hreach, ?_, error_bounded (by decide) hreach⟩
  rw [State.set_locals_self]
  exact hreturned

end SloppyCounter
