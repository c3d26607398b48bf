import Mathlib.Algebra.Order.Group.Nat
import HTWGArchive.Supermarket.Calls
import HTWGArchive.Supermarket.Placement

namespace Supermarket

namespace System

variable {K St : Type} [DecidableEq St]

def Settled (s : System K St) : Prop :=
  ∃ stage, Placed s.pending s.queues s.lists s.created none stage

def Skips (s : System K St) (c : ℕ) : Prop :=
  ∃ t ts, s.lists c = t :: ts ∧ t.tolerance < (s.queues t.station).length

variable [Add K] [Mul K]

-- The arrival that follows the first station of a list.
def onward (s : System K St) (c : ℕ) : List (Event K St) :=
  match (s.lists c).tail with
  | [] => []
  | t :: _ => [⟨s.simulation_time + t.time, 3, s.event_number + 1, .arrive c⟩]

def Proceeds (s s' : System K St) (c : ℕ) : Prop :=
  s'.lists c = (s.lists c).tail ∧ s'.pushed = s.pushed ++ s.onward c

def SkipsRight (s : System K St) (c : ℕ) : Prop :=
  s.Skips c → ∃ s', s.arrive c = some s' ∧ s.Proceeds s' c

def InTime (s : System K St) (c : ℕ) : Prop :=
  s.Skips c → ∃ t t' ts, s.lists c = t :: t' :: ts ∧ t.time = t'.time

-- The state in which the next event is executed.
def popped [LinearOrder K] (s : System K St) : Option (Event K St × System K St) :=
  (LeastFirst.pop Event.key s.event_queue).map (fun x =>
    (x.1, { s with event_queue := x.2, simulation_time := x.1.eTime }))

def Executes [LinearOrder K] (s : System K St) (x : Event K St × System K St)
    (s' : System K St) : Prop :=
  s.popped = some x ∧ x.2.call x.1.eFun = some s'

def Raises [LinearOrder K] (s : System K St) : Prop :=
  ∃ x, s.popped = some x ∧ x.2.call x.1.eFun = none

variable {s s' s₁ : System K St} {st : St} {c : ℕ} {stage : ℕ → Stage St} {f : Fun St}

section Calls

theorem serve_settled (stage : ℕ → Stage St)
    (h : Placed s.pending s.queues s.lists s.created (some st) stage) :
    ∃ s', s.serve st = some s' ∧ s'.Settled := by
  unfold serve
  split
  · rename_i hnil
    exact ⟨s, rfl, stage, h.serve_nobody hnil⟩
  · rename_i c rest hqueue
    have hcons : s.queues st = c :: rest := hqueue
    have hlist := h.lists c (by simp [(h.first_waiting hcons).1])
    obtain ⟨t, ts, hts⟩ := List.exists_cons_of_ne_nil hlist
    have hserve := h.serve hcons
    rw [show (s.customers c).station_list = t :: ts from hts]
    refine ⟨_, rfl, Function.update stage c .leaving, ?_⟩
    rw [pending_push, pending_push]
    exact hserve

theorem queue_settled (stage : ℕ → Stage St)
    (h : Placed s.pending s.queues s.lists s.created none stage)
    (hout : stage c = .out) (hlist : s.lists c ≠ []) (hc : c < s.created) :
    ∃ s', s.queue st c = some s' ∧ s'.Settled := by
  have hqueue : Placed s.pending (Function.update s.queues st (s.queues st ++ [c])) s.lists
      s.created (if s.queues st = [] then some st else none)
      (Function.update stage c (.waiting st)) := h.queue hout hlist hc
  simp only [System.queue]
  cases hcons : s.queues st with
  | nil =>
    rw [if_pos hcons] at hqueue
    rw [if_pos (by simp [show (s.stations st).customer_queue = [] from hcons])]
    refine serve_settled (Function.update stage c (.waiting st)) ?_
    rw [queues_update s rfl]
    exact hqueue
  | cons x xs =>
    rw [if_neg (by simp [hcons])] at hqueue
    rw [if_neg (by simp [show (s.stations st).customer_queue = x :: xs from hcons])]
    refine ⟨_, rfl, Function.update stage c (.waiting st), ?_⟩
    rw [queues_update s rfl]
    exact hqueue

omit [Mul K] in
theorem begin_settled
    (h : Placed (s.pending + Pi.single (.begin c) 1) s.queues s.lists s.created none stage) :
    ∃ s', s.begin c = some s' ∧ s'.Settled := by
  have hstage : stage c ≠ .out := (Stage.event_customer (h.taken (c := c) rfl)).2.1
  have hborn := h.born hstage
  have hlist := h.lists c hstage
  have hout := h.take (c := c) rfl
  have hnext := hout.give (c := s.created) (p := .beginning) (hout.unborn _ (le_refl _)) rfl hlist
    (Nat.le_succ _) (Nat.lt_succ_self _)
  have harrive := hnext.give (c := c) (p := .walking) (by simp [Nat.ne_of_lt hborn]) rfl hlist
    (le_refl _) (Nat.lt_succ_of_lt hborn)
  have hself : s.lists c = Function.update s.lists s.created (s.lists c) c := by
    simp [Nat.ne_of_lt hborn]
  rw [Function.update_eq_self_iff.mpr hself] at harrive
  obtain ⟨t, ts, hcons⟩ := List.exists_cons_of_ne_nil hlist
  rw [hcons] at harrive
  simp only [System.begin, show (s.customers c).station_list = t :: ts from hcons]
  refine ⟨_, rfl, Function.update (Function.update (Function.update stage c .out) s.created
    .beginning) c .walking, ?_⟩
  rw [pending_push, pending_push, lists_update s rfl]
  exact harrive

theorem arrive_settled
    (h : Placed (s.pending + Pi.single (.arrive c) 1) s.queues s.lists s.created none stage)
    (hlast : ¬s.SkipsLast c) : ∃ s', s.arrive c = some s' ∧ s'.Settled := by
  have hstage : stage c ≠ .out := (Stage.event_customer (h.taken (c := c) rfl)).2.1
  have hborn := h.born hstage
  have hout := h.take (c := c) rfl
  obtain ⟨t, ts, hcons⟩ := List.exists_cons_of_ne_nil (h.lists c hstage)
  simp only [System.arrive, show (s.customers c).station_list = t :: ts from hcons]
  split
  · refine queue_settled (Function.update stage c .out) ?_ (Function.update_self ..) ?_
      hborn
    · rw [lists_keep s rfl hcons.symm]
      exact hout
    · rw [lists_keep s rfl hcons.symm, hcons]
      exact List.cons_ne_nil t ts
  · rename_i htolerance
    have hts : ts ≠ [] := by
      rintro rfl
      exact hlast ⟨t, hcons, not_le.mp htolerance⟩
    have hwalk := hout.give (c := c) (p := .walking) (Function.update_self ..) rfl hts (le_refl _)
      hborn
    refine ⟨_, rfl, Function.update (Function.update stage c .out) c .walking, ?_⟩
    rw [pending_push, lists_update s rfl, queues_keep s rfl (by rfl)]
    exact hwalk

omit [Mul K] in
theorem leave_settled
    (h : Placed (s.pending + Pi.single (.leave c) 1) s.queues s.lists s.created none stage) :
    (s.leave c).Settled := by
  have hstage : stage c ≠ .out := (Stage.event_customer (h.taken (c := c) rfl)).2.1
  have hborn := h.born hstage
  have hout := h.take (c := c) rfl
  simp only [System.leave]
  split
  · refine ⟨Function.update stage c .out, ?_⟩
    rw [lists_update s rfl]
    exact hout.setList (Function.update_self ..)
  · refine ⟨Function.update stage c .out, ?_⟩
    rw [lists_update s rfl]
    exact hout.setList (Function.update_self ..)
  · rename_i t t' ts hcons
    have hwalk := hout.give (c := c) (p := .walking) (Function.update_self ..) rfl
      (List.cons_ne_nil t' ts) (le_refl _) hborn
    refine ⟨Function.update (Function.update stage c .out) c .walking, ?_⟩
    rw [pending_push, lists_update s rfl]
    exact hwalk

theorem stationLeave_settled
    (h : Placed (s.pending + Pi.single (.stationLeave st) 1) s.queues s.lists s.created none
      stage) : ∃ s', s.stationLeave st = some s' ∧ s'.Settled := by
  have hne : s.queues st ≠ [] := by
    intro hnil
    have hcount := h.stations st
    simp [hnil] at hcount
  obtain ⟨c, rest, hcons⟩ := List.exists_cons_of_ne_nil hne
  have hserve := h.stationOut
  rw [hcons] at hserve
  simp only [System.stationLeave, show (s.stations st).customer_queue = c :: rest from hcons]
  refine serve_settled stage ?_
  rw [queues_update s rfl]
  exact hserve

theorem call_settled (h : Placed (s.pending + Pi.single f 1) s.queues s.lists s.created none stage)
    (hlast : ∀ c, f = .arrive c → ¬s.SkipsLast c) : ∃ s', s.call f = some s' ∧ s'.Settled := by
  cases f with
  | begin c => exact begin_settled h
  | arrive c => exact arrive_settled h (hlast c rfl)
  | leave c => exact ⟨s.leave c, rfl, leave_settled h⟩
  | stationLeave st => exact stationLeave_settled h

end Calls

section Skipping

omit [DecidableEq St] [Mul K] in
theorem leave_proceeds (s : System K St) (c : ℕ) : s.Proceeds (s.leave c) c := by
  unfold Proceeds onward
  simp only [System.leave]
  split
  · rename_i hnil
    simp [lists, setCustomer, hnil]
  · rename_i t hcons
    simp [lists, setCustomer, hcons]
  · rename_i t t' ts hcons
    simp [lists, setCustomer, push, hcons]

-- The event of a skipping customer has the travel time to the station it skips.
theorem arrive_skips {t : StationTuple K St} {ts : List (StationTuple K St)}
    (hlist : s.lists c = t :: ts) (hskip : t.tolerance < (s.queues t.station).length) :
    ∃ s', s.arrive c = some s' ∧ s'.lists c = ts ∧ s'.pushed =
      s.pushed ++ [⟨s.simulation_time + t.time, 3, s.event_number + 1, .arrive c⟩] := by
  have hfull : ¬((s.stations t.station).customer_queue.length : ℤ) ≤ t.tolerance := not_le.mpr hskip
  simp only [System.arrive, show (s.customers c).station_list = t :: ts from hlist, if_neg hfull]
  refine ⟨_, rfl, ?_, rfl⟩
  simp [lists, push, setStation, setCustomer]

theorem skipsRight_iff [IsLeftCancelAdd K] : s.SkipsRight c ↔ s.InTime c := by
  constructor
  · intro hright hskips
    obtain ⟨s', harrive, -, hpushed⟩ := hright hskips
    obtain ⟨t, ts, hlist, hskip⟩ := hskips
    obtain ⟨s₂, harrive₂, -, hevent⟩ := arrive_skips hlist hskip
    obtain rfl := Option.some.inj (harrive.symm.trans harrive₂)
    rw [hevent, List.append_cancel_left_eq, onward, hlist] at hpushed
    cases ts with
    | nil => cases hpushed
    | cons t' ts =>
      refine ⟨t, t', ts, hlist, ?_⟩
      have heq : s.simulation_time + t.time = s.simulation_time + t'.time := by
        simpa using hpushed
      exact add_left_cancel heq
  · intro htime hskips
    obtain ⟨t, t', ts, hlist, heq⟩ := htime hskips
    obtain ⟨x, xs, hcons, hskip⟩ := hskips
    obtain ⟨rfl, rfl⟩ := List.cons.inj (hcons.symm.trans hlist)
    obtain ⟨s', harrive, hrest, hevent⟩ := arrive_skips hlist hskip
    refine ⟨s', harrive, ?_, ?_⟩
    · rw [hrest, hlist, List.tail_cons]
    · rw [hevent, onward, hlist, List.tail_cons, heq]

omit [DecidableEq St] [Add K] [Mul K] in
theorem InTime.not_skipsLast (h : s.InTime c) : ¬s.SkipsLast c := by
  rintro ⟨t, hlist, hskip⟩
  obtain ⟨x, t', ts, hcons, -⟩ := h ⟨t, [], hlist, hskip⟩
  rw [hlist] at hcons
  cases hcons

end Skipping

section Runs

variable [LinearOrder K] {x : Event K St × System K St}

theorem turn_popped_bind (s : System K St) :
    s.turn = s.popped.bind (fun x => (x.2.call x.1.eFun).map (fun s' => (x.1, s'))) := by
  unfold turn popped
  cases LeastFirst.pop Event.key s.event_queue with
  | none => rfl
  | some x => rfl

omit [Add K] [Mul K] in
theorem Settled.popped (h : s.Settled) (hpop : s.popped = some x) :
    ∃ stage, Placed (x.2.pending + Pi.single x.1.eFun 1) x.2.queues x.2.lists x.2.created none
      stage := by
  obtain ⟨stage, h⟩ := h
  obtain ⟨⟨e, rest⟩, hleast, rfl⟩ := Option.map_eq_some_iff.mp hpop
  have hperm := (LeastFirst.pop_eq_some hleast).1
  have hpending : s.pending = ({ s with
      event_queue := rest, simulation_time := e.eTime } : System K St).pending +
        Pi.single e.eFun 1 := by
    funext f
    have hcount := (hperm.map Event.eFun).count_eq f
    rw [List.map_cons, List.count_cons] at hcount
    simp only [pending, hcount, Pi.add_apply, Pi.single_apply, beq_iff_eq, eq_comm (a := f)]
  refine ⟨stage, ?_⟩
  rw [← hpending]
  exact h

theorem Settled.executes (h : s.Settled) (hs : s.Executes x s')
    (htime : ∀ c, x.1.eFun = .arrive c → x.2.InTime c) : s'.Settled := by
  obtain ⟨hpop, hcall⟩ := hs
  obtain ⟨stage, hplaced⟩ := h.popped hpop
  obtain ⟨s₂, hs₂, hsettled⟩ := call_settled hplaced (fun c hc => (htime c hc).not_skipsLast)
  obtain rfl := Option.some.inj (hs₂.symm.trans hcall)
  exact hsettled

theorem Settled.not_raises (h : s.Settled) : ¬s.Raises := by
  rintro ⟨x, hpop, hcall⟩
  obtain ⟨stage, hplaced⟩ := h.popped hpop
  have hlast : ∀ c, x.1.eFun = .arrive c → ¬x.2.SkipsLast c := by
    rintro c hc ⟨t, hlist, hskip⟩
    obtain ⟨s', harrive, -⟩ := arrive_skips hlist hskip
    rw [hc, call, harrive] at hcall
    cases hcall
  obtain ⟨s', hs', -⟩ := call_settled hplaced hlast
  rw [hs'] at hcall
  cases hcall

omit [Add K] [Mul K] [LinearOrder K] in
theorem announce_settled {customers : List (K × KundIn K St)} (h : s.Settled)
    (hlists : ∀ k ∈ customers, k.2.station_list ≠ []) : (s.announce customers).Settled := by
  induction customers generalizing s with
  | nil => exact h
  | cons k customers ih =>
    obtain ⟨hlist, hrest⟩ := List.forall_mem_cons.mp hlists
    obtain ⟨time, customer⟩ := k
    obtain ⟨stage, h⟩ := h
    have hgive := h.give (c := s.created) (p := .beginning) (h.unborn _ (le_refl _)) rfl hlist
      (Nat.le_succ _) (Nat.lt_succ_self _)
    refine ih ⟨Function.update stage s.created .beginning, ?_⟩ hrest
    rw [pending_push, lists_update s rfl]
    exact hgive

omit [Add K] [Mul K] [LinearOrder K] in
theorem blank_settled [Zero K] (times : St → K) : (blank times).Settled := by
  refine ⟨fun _ => .out, ?_⟩
  constructor
  · simp [pending, blank, Stage.event]
  · simp [waitingAt, queues, blank]
  · simp [pending, queues, blank]
  · simp
  · simp

-- First any customer in any state, then the runs of a simulation.
theorem skipping_right_iff [Zero K] [IsLeftCancelAdd K] :
    (∀ (s : System K St) (c : ℕ), s.lists c ≠ [] →
      s.Proceeds (s.leave c) c ∧ (s.SkipsRight c ↔ s.InTime c)) ∧
    ∀ (times : St → K) (customers : List (K × KundIn K St))
      (ls : List (Event K St × System K St)) (s : System K St),
      (∀ k ∈ customers, k.2.station_list ≠ []) →
      LabelledRun.Run Executes ((blank times).announce customers) ls s →
      (((∀ x ∈ ls, ∀ c, x.1.eFun = .arrive c → x.2.SkipsRight c) ∧ ¬s.Raises) ↔
        ∀ x ∈ ls, ∀ c, x.1.eFun = .arrive c → x.2.InTime c) := by
  refine ⟨fun s c _ => ⟨leave_proceeds s c, skipsRight_iff⟩, ?_⟩
  intro times customers ls s hlists hrun
  constructor
  · rintro ⟨hright, -⟩ x hx c hc
    exact skipsRight_iff.mp (hright x hx c hc)
  · intro htime
    refine ⟨fun x hx c hc => skipsRight_iff.mpr (htime x hx c hc), ?_⟩
    have hinit := announce_settled (blank_settled times) hlists
    have hsettled : s.Settled := by
      refine hrun.invariant (G := fun x => ∀ c, x.1.eFun = .arrive c → x.2.InTime c) hinit ?_ htime
      intro s x s' hs hgood hexec
      exact hs.executes hexec hgood
    exact hsettled.not_raises

theorem skipping_right_same_time :
    ∃ (ls : List (Event ℕ Unit × System ℕ Unit)) (s : System ℕ Unit),
      ls.map (fun x => x.1.eFun) = [.begin 0, .arrive 0] ∧
        (∀ x ∈ ls, ∀ c, x.1.eFun = .arrive c → x.2.SkipsRight c) ∧ ¬s.Raises := by
  refine ⟨_, _, ?_, (skipping_right_iff.2 (fun _ => 10)
    [(0, ⟨[⟨4, -1, 1, ()⟩, ⟨4, 1, 1, ()⟩], 100, false, false, 0, 0⟩)] _ _ (by simp)
    (.snoc (.snoc .nil ⟨rfl, rfl⟩) ⟨rfl, rfl⟩)).mpr ?_⟩
  · rfl
  · refine List.forall_mem_append.mpr ⟨List.forall_mem_append.mpr ⟨by simp,
      List.forall_mem_singleton.mpr ?_⟩, List.forall_mem_singleton.mpr ?_⟩
    · rintro c ⟨⟩
    · rintro c hc -
      obtain rfl : 0 = c := Fun.arrive.inj hc
      exact ⟨_, _, _, rfl, rfl⟩

-- The second customer finds the first one twice and arrives once more with an empty list.
theorem skipping_raises :
    ∃ (ls : List (Event ℕ Unit × System ℕ Unit)) (s : System ℕ Unit),
      LabelledRun.Run Executes ((blank (fun _ => 10)).announce
        [(0, ⟨[⟨1, 5, 2, ()⟩], 100, false, false, 0, 0⟩),
          (1, ⟨[⟨1, 0, 1, ()⟩, ⟨4, 0, 1, ()⟩], 100, false, false, 0, 0⟩)]) ls s ∧
      (∃ x ∈ ls, x.1.eFun = .arrive 1 ∧ ¬x.2.SkipsRight 1) ∧
      ∃ x, s.popped = some x ∧ x.1.eFun = .arrive 1 ∧ x.2.arrive 1 = none := by
  refine ⟨_, _, .snoc (.snoc (.snoc (.snoc (.snoc .nil ⟨rfl, rfl⟩) ⟨rfl, rfl⟩) ⟨rfl, rfl⟩)
    ⟨rfl, rfl⟩) ⟨rfl, rfl⟩, ⟨_, List.mem_append_left _ (List.mem_append_right _
      (List.mem_singleton_self _)), rfl, ?_⟩, ⟨_, rfl, rfl, rfl⟩⟩
  rw [skipsRight_iff]
  intro htime
  obtain ⟨t, t', ts, hlist, heq⟩ := htime ⟨_, _, rfl, by decide⟩
  obtain ⟨rfl, hrest⟩ := List.cons.inj
    (show [⟨1, 0, 1, ()⟩, ⟨4, 0, 1, ()⟩] = t :: t' :: ts from hlist)
  obtain ⟨rfl, -⟩ := List.cons.inj hrest
  exact absurd heq (by decide)

end Runs

end System

end Supermarket
