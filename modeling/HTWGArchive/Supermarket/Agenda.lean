import Mathlib.Algebra.Order.Ring.Canonical
import Mathlib.Data.List.Perm.Subperm
import HTWGArchive.Supermarket.EventList

namespace Supermarket

variable {K St : Type}

def Fun.prio : Fun St → ℕ
  | .begin _ => 2
  | .arrive _ => 3
  | .leave _ => 1
  | .stationLeave _ => 1

theorem key_le_iff [LinearOrder K] {e f : Event K St} :
    e.key ≤ f.key ↔ e.eTime < f.eTime ∨
      (e.eTime = f.eTime ∧ (e.ePrio < f.ePrio ∨ (e.ePrio = f.ePrio ∧ e.eNum ≤ f.eNum))) := by
  rw [Event.key, Event.key, Prod.Lex.toLex_le_toLex, Prod.Lex.toLex_le_toLex]

theorem eTime_le_of_key_le [LinearOrder K] {e f : Event K St} (h : e.key ≤ f.key) :
    e.eTime ≤ f.eTime := by
  rcases key_le_iff.mp h with hlt | ⟨heq, -⟩
  · exact hlt.le
  · exact heq.le

def Line.added [DecidableEq St] (st : St) : Line K St → Option ℕ
  | .adding _ x c => if x = st then some c else none
  | _ => none

def Line.left [DecidableEq St] (st : St) : Line K St → Option ℕ
  | .finished _ x c => if x = st then some c else none
  | _ => none

namespace System

section Pushes

variable [Preorder K] {s s' s₂ : System K St} {es : List (Event K St)}

-- All that a call does to the events.
structure Pushes (s s' : System K St) (es : List (Event K St)) : Prop where
  queue : s'.event_queue.Perm (es ++ s.event_queue)
  pushed : s'.pushed = s.pushed ++ es
  time : s'.simulation_time = s.simulation_time
  number : s'.event_number = s.event_number + es.length
  numbers : es.map Event.eNum = List.range' (s.event_number + 1) es.length
  later : ∀ e ∈ es, s.simulation_time ≤ e.eTime ∧ e.ePrio = e.eFun.prio

theorem Pushes.refl (s : System K St) : Pushes s s [] where
  queue := List.Perm.refl _
  pushed := (List.append_nil _).symm
  time := rfl
  number := rfl
  numbers := rfl
  later := by simp

theorem Pushes.keep (h : Pushes s s' es) (hqueue : s₂.event_queue = s'.event_queue)
    (hpushed : s₂.pushed = s'.pushed) (htime : s₂.simulation_time = s'.simulation_time)
    (hnumber : s₂.event_number = s'.event_number) : Pushes s s₂ es where
  queue := by
    rw [hqueue]
    exact h.queue
  pushed := hpushed.trans h.pushed
  time := htime.trans h.time
  number := hnumber.trans h.number
  numbers := h.numbers
  later := h.later

theorem Pushes.push (h : Pushes s s' es) (f : Fun St) {t : K} (ht : s.simulation_time ≤ t) :
    Pushes s (s'.push t f.prio f) (es ++ [⟨t, f.prio, s'.event_number + 1, f⟩]) where
  queue := by
    have hcons : (⟨t, f.prio, s'.event_number + 1, f⟩ :: s'.event_queue).Perm
        (⟨t, f.prio, s'.event_number + 1, f⟩ :: (es ++ s.event_queue)) := h.queue.cons _
    refine hcons.trans ?_
    rw [List.append_assoc]
    exact List.perm_middle.symm
  pushed := by
    change s'.pushed ++ _ = _
    rw [h.pushed, List.append_assoc]
  time := h.time
  number := by
    change s'.event_number + 1 = _
    rw [h.number, List.length_append]
    rfl
  numbers := by
    rw [List.map_append, h.numbers, List.length_append, List.length_singleton, List.range'_concat,
      List.map_singleton, h.number]
    have hnumber : s.event_number + es.length + 1 = s.event_number + 1 + 1 * es.length := by omega
    exact congrArg (fun k => List.range' (s.event_number + 1) es.length ++ [k]) hnumber
  later := by
    intro e he
    rcases List.mem_append.mp he with he | he
    · exact h.later e he
    · rw [List.mem_singleton.mp he]
      exact ⟨ht, rfl⟩

theorem pushes_keep (h : ∃ es, Pushes s s' es) (hqueue : s₂.event_queue = s'.event_queue)
    (hpushed : s₂.pushed = s'.pushed) (htime : s₂.simulation_time = s'.simulation_time)
    (hnumber : s₂.event_number = s'.event_number) : ∃ es, Pushes s s₂ es := by
  obtain ⟨es, h⟩ := h
  exact ⟨es, h.keep hqueue hpushed htime hnumber⟩

theorem pushes_push {f : Fun St} {t : K} {p : ℕ} (h : ∃ es, Pushes s s' es)
    (ht : s.simulation_time ≤ t) (hp : p = f.prio) : ∃ es, Pushes s (s'.push t p f) es := by
  obtain ⟨es, h⟩ := h
  rw [hp]
  exact ⟨_, h.push f ht⟩

end Pushes

variable [DecidableEq St] [Semiring K] [LinearOrder K] [CanonicallyOrderedAdd K]

variable {s s' s₂ : System K St} {es : List (Event K St)} {c : ℕ} {st : St}

omit [DecidableEq St] in
theorem serve_pushes (h : s.serve st = some s') (hp : ∃ es, Pushes s₂ s es) :
    ∃ es, Pushes s₂ s' es := by
  unfold serve at h
  split at h
  · obtain rfl := Option.some.inj h
    exact hp
  · split at h
    · cases h
    · obtain rfl := Option.some.inj h
      have hlater : ∀ t, s₂.simulation_time ≤ s.simulation_time + t := by
        intro t
        obtain ⟨es, hp⟩ := hp
        rw [hp.time]
        exact le_self_add
      refine pushes_push (pushes_push (pushes_keep hp rfl rfl rfl rfl) ?_ rfl) ?_ rfl
      · exact hlater _
      · exact hlater _

theorem call_pushes {f : Fun St} (h : s.call f = some s') : ∃ es, Pushes s s' es := by
  have hrefl : ∃ es, Pushes s s es := ⟨[], Pushes.refl s⟩
  cases f with
  | begin c =>
    simp only [call, System.begin] at h
    split at h
    · cases h
    · obtain rfl := Option.some.inj h
      refine pushes_push (pushes_push (pushes_keep hrefl rfl rfl rfl rfl) ?_ rfl) ?_ rfl
      · exact le_self_add
      · exact le_self_add
  | arrive c =>
    simp only [call, System.arrive] at h
    split at h
    · cases h
    · split at h
      · simp only [System.queue] at h
        split at h
        · exact serve_pushes h (pushes_keep hrefl rfl rfl rfl rfl)
        · obtain rfl := Option.some.inj h
          exact pushes_keep hrefl rfl rfl rfl rfl
      · obtain rfl := Option.some.inj h
        refine pushes_push (pushes_keep hrefl rfl rfl rfl rfl) ?_ rfl
        exact le_self_add
  | leave c =>
    obtain rfl := Option.some.inj h
    simp only [System.leave]
    split
    · exact pushes_keep hrefl rfl rfl rfl rfl
    · exact pushes_keep hrefl rfl rfl rfl rfl
    · refine pushes_push (pushes_keep hrefl rfl rfl rfl rfl) ?_ rfl
      exact le_self_add
  | stationLeave st =>
    simp only [call, System.stationLeave] at h
    split at h
    · cases h
    · exact serve_pushes h (pushes_keep hrefl rfl rfl rfl rfl)

structure Agenda (s : System K St) : Prop where
  times : ∀ e ∈ s.event_queue, s.simulation_time ≤ e.eTime
  numbers : (s.pushed.map Event.eNum) = List.range' 1 s.event_number
  sub : s.event_queue.Subperm s.pushed
  prios : ∀ e ∈ s.event_queue, e.ePrio = e.eFun.prio

omit [DecidableEq St] [Semiring K] [CanonicallyOrderedAdd K] in
theorem Agenda.unique (h : s.Agenda) {e f : Event K St} (he : e ∈ s.event_queue)
    (hf : f ∈ s.event_queue) (hnum : e.eNum = f.eNum) : e = f := by
  have hnodup : (s.pushed.map Event.eNum).Nodup := by
    rw [h.numbers]
    exact List.nodup_range'
  exact List.inj_on_of_nodup_map hnodup (h.sub.subset he) (h.sub.subset hf) hnum

omit [DecidableEq St] [Semiring K] [CanonicallyOrderedAdd K] in
theorem Agenda.eNum_le (h : s.Agenda) {e : Event K St} (he : e ∈ s.event_queue) :
    e.eNum ≤ s.event_number := by
  have hmem : e.eNum ∈ s.pushed.map Event.eNum := List.mem_map_of_mem (h.sub.subset he)
  rw [h.numbers, List.mem_range'_1] at hmem
  omega

-- The state in which an event is executed.
structure Popped (s : System K St) (e : Event K St) (s₁ : System K St) : Prop where
  eq : s₁ = { s with event_queue := s₁.event_queue, simulation_time := e.eTime }
  perm : s.event_queue.Perm (e :: s₁.event_queue)
  least : ∀ f ∈ s.event_queue, e.key ≤ f.key

omit [CanonicallyOrderedAdd K] in
theorem turn_popped (h : s.event_queue ≠ []) :
    ∃ e s₁, Popped s e s₁ ∧ s.turn = (s₁.call e.eFun).map (fun x => (e, x)) := by
  have hsome : ∃ e rest, LeastFirst.pop Event.key s.event_queue = some (e, rest) :=
    LeastFirst.pop_isSome h
  obtain ⟨e, event_queue, hpop⟩ := hsome
  obtain ⟨hperm, hleast⟩ := LeastFirst.pop_eq_some hpop
  refine ⟨e, { s with event_queue := event_queue, simulation_time := e.eTime },
    ⟨rfl, hperm, hleast⟩, ?_⟩
  rw [turn, hpop]

omit [CanonicallyOrderedAdd K] in
theorem turn_eq {e : Event K St} (h : s.turn = some (e, s')) :
    ∃ s₁, Popped s e s₁ ∧ s₁.call e.eFun = some s' := by
  have hne : s.event_queue ≠ [] := by
    intro hnil
    rw [turn, hnil] at h
    cases h
  obtain ⟨f, s₁, hpopped, hturn⟩ := turn_popped hne
  rw [h] at hturn
  obtain ⟨x, hcall, hx⟩ := Option.map_eq_some_iff.mp hturn.symm
  obtain ⟨rfl, rfl⟩ := Prod.mk.inj hx
  exact ⟨s₁, hpopped, hcall⟩

section Popped

variable {e : Event K St} {s₁ : System K St}

omit [DecidableEq St] [Semiring K] [CanonicallyOrderedAdd K] in
theorem Popped.mem (h : Popped s e s₁) : e ∈ s.event_queue :=
  h.perm.mem_iff.mpr (List.mem_cons_self ..)

omit [DecidableEq St] [Semiring K] [CanonicallyOrderedAdd K] in
theorem Popped.mem_of_mem (h : Popped s e s₁) {f : Event K St} (hf : f ∈ s₁.event_queue) :
    f ∈ s.event_queue :=
  h.perm.mem_iff.mpr (List.mem_cons_of_mem _ hf)

omit [DecidableEq St] [Semiring K] [CanonicallyOrderedAdd K] in
theorem Popped.time (h : Popped s e s₁) : s₁.simulation_time = e.eTime := by
  rw [h.eq]

omit [DecidableEq St] [Semiring K] [CanonicallyOrderedAdd K] in
theorem Popped.agenda (h : Popped s e s₁) (ha : s.Agenda) : s₁.Agenda where
  times := by
    intro f hf
    rw [h.time]
    exact eTime_le_of_key_le (h.least f (h.mem_of_mem hf))
  numbers := by
    rw [h.eq]
    exact ha.numbers
  sub := by
    have hsub : s₁.event_queue.Subperm s.event_queue :=
      (List.sublist_cons_self e _).subperm.trans h.perm.symm.subperm
    rw [show s₁.pushed = s.pushed by rw [h.eq]]
    exact hsub.trans ha.sub
  prios := fun f hf => ha.prios f (h.mem_of_mem hf)

end Popped

omit [DecidableEq St] [Semiring K] [CanonicallyOrderedAdd K] in
theorem Pushes.agenda (h : Pushes s s' es) (ha : s.Agenda) : s'.Agenda where
  times := by
    intro e he
    rw [h.time]
    rcases List.mem_append.mp (h.queue.mem_iff.mp he) with he | he
    · exact (h.later e he).1
    · exact ha.times e he
  numbers := by
    have hrange : List.range' 1 s.event_number ++ List.range' (s.event_number + 1) es.length =
        List.range' 1 (s.event_number + es.length) := by
      rw [Nat.add_comm s.event_number 1, List.range'_append_1]
    rw [h.pushed, List.map_append, ha.numbers, h.numbers, h.number, hrange]
  sub := by
    rw [h.pushed]
    have hsub : (s.event_queue ++ es).Subperm (s.pushed ++ es) :=
      ha.sub.append (List.Subperm.refl es)
    exact (h.queue.trans List.perm_append_comm).subperm.trans hsub
  prios := by
    intro e he
    rcases List.mem_append.mp (h.queue.mem_iff.mp he) with he | he
    · exact (h.later e he).2
    · exact ha.prios e he

omit [DecidableEq St] [Semiring K] [CanonicallyOrderedAdd K] in
theorem Pushes.conserved (h : Pushes s s' es) {ls : List (Event K St)}
    (hs : (ls ++ s.event_queue).Perm s.pushed) : (ls ++ s'.event_queue).Perm s'.pushed := by
  have hqueue : (ls ++ s'.event_queue).Perm (ls ++ s.event_queue ++ es) := by
    rw [List.append_assoc]
    exact (h.queue.trans List.perm_append_comm).append_left ls
  rw [h.pushed]
  exact hqueue.trans (hs.append_right es)

def added (s : System K St) (st : St) : List ℕ :=
  s.output_file.filterMap (Line.added st)

def left (s : System K St) (st : St) : List ℕ :=
  s.output_file.filterMap (Line.left st)

def Fifo (s : System K St) : Prop :=
  ∀ st, s.added st = s.left st ++ (s.stations st).customer_queue

omit [Semiring K] [LinearOrder K] [CanonicallyOrderedAdd K] in
theorem Fifo.keep (h : s.Fifo) (hfile : s'.output_file = s.output_file)
    (hqueue : ∀ st, (s'.stations st).customer_queue = (s.stations st).customer_queue) : s'.Fifo := by
  intro st
  rw [added, left, hfile, hqueue]
  exact h st

omit [Semiring K] [LinearOrder K] [CanonicallyOrderedAdd K] in
theorem Fifo.serving (h : s.Fifo) (t : K) (st : St) (c : ℕ) : (s.print (.serving t st c)).Fifo := by
  intro x
  simp only [added, left, System.print, List.filterMap_append]
  have hnone : ∀ f : Line K St → Option ℕ, f (.serving t st c) = none →
      [Line.serving t st c].filterMap f = [] := by
    intro f hf
    simp [hf]
  rw [hnone _ rfl, hnone _ rfl, List.append_nil, List.append_nil]
  exact h x

omit [LinearOrder K] [CanonicallyOrderedAdd K] in
theorem serve_fifo (h : s.Fifo) (hs : s.serve st = some s') : s'.Fifo := by
  unfold serve at hs
  split at hs
  · obtain rfl := Option.some.inj hs
    exact h
  · split at hs
    · cases hs
    · obtain rfl := Option.some.inj hs
      exact (h.serving _ _ _).keep rfl (fun _ => rfl)

omit [LinearOrder K] [CanonicallyOrderedAdd K] in
theorem call_fifo {f : Fun St} (h : s.Fifo) (hs : s.call f = some s') : s'.Fifo := by
  cases f with
  | begin c =>
    simp only [call, System.begin] at hs
    split at hs
    · cases hs
    · obtain rfl := Option.some.inj hs
      exact h.keep rfl (fun _ => rfl)
  | arrive c =>
    simp only [call, System.arrive] at hs
    split at hs
    · cases hs
    · rename_i station_tuple station_list hlist
      split at hs
      · simp only [System.queue] at hs
        have hqueued : ∀ x : Station K, x.customer_queue =
            (s.stations station_tuple.station).customer_queue ++ [c] → ∀ k t,
            (((s.setCustomer c k).print (.adding t station_tuple.station c)).setStation
              station_tuple.station x).Fifo := by
          intro x hx k t st
          have hold := h st
          simp only [added, left] at hold
          simp only [added, left, setStation, System.print, setCustomer, List.filterMap_append,
            List.filterMap_cons, List.filterMap_nil, Line.added, Line.left, Function.update_apply]
          by_cases hst : st = station_tuple.station
          · subst hst
            simp [hold, hx]
          · simp [hold, hst, Ne.symm hst]
        split at hs
        · exact serve_fifo (hqueued _ rfl _ _) hs
        · obtain rfl := Option.some.inj hs
          exact hqueued _ rfl _ _
      · obtain rfl := Option.some.inj hs
        refine h.keep rfl ?_
        intro st
        simp only [push, setStation, Function.update_apply]
        split
        · rename_i hst
          rw [hst]
        · rfl
  | leave c =>
    obtain rfl := Option.some.inj hs
    simp only [System.leave]
    split
    · exact h.keep rfl (fun _ => rfl)
    · exact h.keep rfl (fun _ => rfl)
    · exact h.keep rfl (fun _ => rfl)
  | stationLeave st =>
    simp only [call, System.stationLeave] at hs
    split at hs
    · cases hs
    · rename_i customer rest hqueue
      refine serve_fifo ?_ hs
      intro x
      have hold := h x
      simp only [added, left] at hold
      simp only [added, left, setStation, System.print, List.filterMap_append,
        List.filterMap_cons, List.filterMap_nil, Line.added, Line.left, Function.update_apply]
      by_cases hx : x = st
      · subst hx
        simp [hold, hqueue]
      · simp [hold, hx, Ne.symm hx]

end System

end Supermarket
