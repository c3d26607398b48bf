import HTWGArchive.Dictionary.SortedArrayMap

namespace SortedArrayDictionary

open BinaryTreeDictionary (Entry)
open Slots

variable {K V : Type*}

-- The iterator is its index into `dict`; `none` is an ArrayIndexOutOfBoundsException.
def hasNext (d : Dictionary K V) (index : ℕ) : Option Bool :=
  (slot d.dict index).map (·.isSome)

def next (d : Dictionary K V) (index : ℕ) : Option (Option (Entry K V) × ℕ) :=
  (slot d.dict index).map fun e => (e, index + 1)

theorem hasNext_lt {d : Dictionary K V} {index : ℕ} (h : hasNext d index = some true) :
    index < d.dict.length := by
  obtain ⟨x,hx,-⟩ := Option.map_eq_some_iff.mp h
  rw [slot_natCast] at hx
  exact (List.getElem?_eq_some_iff.mp hx).1

theorem next_index {d : Dictionary K V} {index i : ℕ} {e : Option (Entry K V)}
    (h : next d index = some (e, i)) : i = index + 1 := by
  obtain ⟨x,-,hx⟩ := Option.map_eq_some_iff.mp h
  exact (Prod.mk.inj hx).2.symm

-- What a for-each loop is given, and what the last call of `hasNext` came to.
def forEach (d : Dictionary K V) (index : ℕ) : List (Option (Entry K V)) × Option Bool :=
  match _hn : hasNext d index with
  | some true =>
    match _hm : next d index with
    | none => ([], none)
    | some (e, i) => (e :: (forEach d i).1, (forEach d i).2)
  | last => ([], last)
termination_by d.dict.length - index
decreasing_by
  all_goals
    have hlt := hasNext_lt _hn
    have hi := next_index _hm
    omega

theorem forEach_more {d : Dictionary K V} {index i : ℕ} {e : Option (Entry K V)}
    (hn : hasNext d index = some true) (hm : next d index = some (e, i)) :
    forEach d index = (e :: (forEach d i).1, (forEach d i).2) := by
  rw [forEach]
  split
  · split
    · simp_all
    · simp_all
  · simp_all

theorem forEach_last {d : Dictionary K V} {index : ℕ} (hn : hasNext d index ≠ some true) :
    forEach d index = ([], hasNext d index) := by
  rw [forEach]
  split
  · exact absurd ‹_› hn
  · rfl

def Complete (d : Dictionary K V) : Prop :=
  forEach d 0 = (d.dict.take d.size, some false)

section Loop

variable {es : List (Entry K V)} {c n : ℕ}

theorem hasNext_entry {i : ℕ} (h : i < es.length) :
    hasNext ⟨slots es c, n⟩ i = some true := by
  simp [hasNext, slot_natCast, slots, List.getElem?_append, h]

theorem next_entry {i : ℕ} (h : i < es.length) :
    next ⟨slots es c, n⟩ i = some (some es[i], i + 1) := by
  simp [next, slot_natCast, slots, List.getElem?_append, h]

theorem hasNext_end :
    hasNext ⟨slots es c, n⟩ es.length = if c = 0 then none else some false := by
  rw [hasNext, slot_natCast, slots, List.getElem?_append_right (by simp), List.length_map,
    Nat.sub_self]
  cases c <;> rfl

theorem forEach_slots (k : ℕ) {i : ℕ} (h : i + k = es.length) :
    forEach ⟨slots es c, n⟩ i = ((es.drop i).map some, if c = 0 then none else some false) := by
  induction k generalizing i with
  | zero =>
    obtain rfl : i = es.length := h
    have hlast : hasNext ⟨slots es c, n⟩ es.length ≠ some true := by
      rw [hasNext_end]
      split_ifs <;> simp
    rw [forEach_last hlast, hasNext_end, List.drop_length, List.map_nil]
  | succ k ih =>
    have hi : i < es.length := by omega
    rw [forEach_more (hasNext_entry hi) (next_entry hi), ih (by omega), List.drop_eq_getElem_cons hi,
      List.map_cons]

end Loop

theorem Refines.complete_iff [LinearOrder K] {d : Dictionary K V} {m : K → Option V}
    (h : Refines d m) : Complete d ↔ d.size < d.dict.length := by
  obtain ⟨es,c,rfl,-,-,-⟩ := h
  have htake : (slots es c).take es.length = es.map some := by
    rw [slots, List.take_left' (by simp)]
  rw [Complete, forEach_slots es.length (Nat.zero_add _), htake, List.drop_zero, slots_length]
  split_ifs with hc
  · simp [hc]
  · simp only [true_iff]
    omega

theorem iterates_all_iff [LinearOrder K] (calls : List (FiniteMap.Call K V)) :
    ∃ d rs, Refinement.tryRun call Dictionary.empty calls = some (d, rs) ∧
      (Complete d ↔ d.size < d.dict.length) := by
  have hstep : ∀ (d : Dictionary K V) (m : K → Option V) (o : FiniteMap.Call K V), Refines d m →
      ∃ d', call d o = some (d', (FiniteMap.call m o).2) ∧ Refines d' (FiniteMap.call m o).1 :=
    fun d m o h => call_refines h o
  obtain ⟨d,hrun,hrefines⟩ := Refinement.tryRun_simulates hstep empty_refines calls
  exact ⟨d,_,hrun,hrefines.complete_iff⟩

def fullCalls : List (FiniteMap.Call ℕ ℕ) :=
  (List.range defCapacity).map fun i => .insert i i

theorem full_array_overruns :
    ∃ d rs, Refinement.tryRun call Dictionary.empty fullCalls = some (d, rs) ∧ ¬ Complete d := by
  have hrun : ((Refinement.tryRun call Dictionary.empty fullCalls).map fun r =>
      (forEach r.1 0).2) = some none := by decide +kernel
  obtain ⟨⟨d,rs⟩,hd,hlast⟩ := Option.map_eq_some_iff.mp hrun
  refine ⟨d,rs,hd,fun hc => ?_⟩
  rw [hc] at hlast
  cases hlast

end SortedArrayDictionary
