import HTWGArchive.Supermarket.Agenda
import HTWGArchive.Supermarket.Ledger

namespace Supermarket

variable {K St : Type}

-- The customer and the station have an event each for the same departure, one after the other.
def Pair (es : List (Event K St)) (st : St) (c : ℕ) : Prop :=
  ∃ t k, ⟨t, 1, k, .leave c⟩ ∈ es ∧ ⟨t, 1, k + 1, .stationLeave st⟩ ∈ es

theorem Pair.mono {es es' : List (Event K St)} {st : St} {c : ℕ} (h : Pair es st c)
    (hsub : ∀ e ∈ es, e ∈ es') : Pair es' st c := by
  obtain ⟨t, k, hleave, hstation⟩ := h
  exact ⟨t, k, hsub _ hleave, hsub _ hstation⟩

namespace System

variable [DecidableEq St]

def pending (s : System K St) (f : Fun St) : ℕ :=
  (s.event_queue.map Event.eFun).count f

def queues (s : System K St) (st : St) : List ℕ :=
  (s.stations st).customer_queue

def lists (s : System K St) (c : ℕ) : List (StationTuple K St) :=
  (s.customers c).station_list

variable {s s' : System K St} {st : St} {c : ℕ} {customer : KundIn K St} {x : Station K}

theorem pending_push (t : K) (p : ℕ) (f : Fun St) :
    (s.push t p f).pending = s.pending + Pi.single f 1 := by
  funext g
  simp only [pending, push, List.map_cons, List.count_cons, Pi.add_apply, Pi.single_apply,
    beq_iff_eq, eq_comm (a := f)]

omit [DecidableEq St] in
theorem lists_update (s' : System K St)
    (hs : s.customers = Function.update s'.customers c customer) :
    s.lists = Function.update s'.lists c customer.station_list := by
  funext d
  by_cases hd : d = c
  · subst hd
    simp [lists, hs]
  · simp [lists, hs, hd]

theorem queues_update (s' : System K St) (hs : s.stations = Function.update s'.stations st x) :
    s.queues = Function.update s'.queues st x.customer_queue := by
  funext st'
  by_cases hst' : st' = st
  · subst hst'
    simp [queues, hs]
  · simp [queues, hs, hst']

omit [DecidableEq St] in
theorem lists_keep (s' : System K St)
    (hs : s.customers = Function.update s'.customers c customer)
    (hlist : customer.station_list = s'.lists c) : s.lists = s'.lists := by
  rw [lists_update s' hs, hlist, Function.update_eq_self]

theorem queues_keep (s' : System K St) (hs : s.stations = Function.update s'.stations st x)
    (hqueue : x.customer_queue = s'.queues st) : s.queues = s'.queues := by
  rw [queues_update s' hs, hqueue, Function.update_eq_self]

-- `pending` counts the events that wait and the one that is executed.
structure Valid (s : System K St) (pending : Fun St → ℕ) (mode : Mode St) (phase : ℕ → Phase St) :
    Prop where
  books : Books pending s.queues s.lists s.created mode phase
  pairs : ∀ st c, (s.queues st).head? = some c → mode.serves st → Pair s.event_queue st c

def Consistent (s : System K St) (mode : Mode St) : Prop :=
  ∃ phase, s.Valid s.pending mode phase

variable [Add K] [Mul K] {phase : ℕ → Phase St}

theorem serve_valid (phase : ℕ → Phase St) (h : s.Valid s.pending (.unserved st) phase) :
    ∃ s', s.serve st = some s' ∧ s'.Consistent .settled := by
  unfold serve
  split
  · rename_i hnil
    refine ⟨s, rfl, phase, h.books.serve_nobody hnil, ?_⟩
    intro st' c hhead _
    refine h.pairs st' c hhead ?_
    rw [Mode.unserved_serves]
    rintro rfl
    rw [queues, hnil] at hhead
    cases hhead
  · rename_i c rest hqueue
    have hhead : (s.queues st).head? = some c := by
      rw [queues, hqueue]
      rfl
    have hmem : c ∈ (Mode.unserved st).waiting s.queues st := by
      simp [Mode.waiting, queues, hqueue]
    obtain ⟨t, ts, hlist, -⟩ := h.books.list_eq hmem
    have hbooks := h.books.serve hhead
    unfold lists at hlist
    rw [hlist]
    refine ⟨_, rfl, phase, ?_, ?_⟩
    · rw [pending_push, pending_push]
      exact hbooks
    · intro st' d hd _
      by_cases hst' : st = st'
      · subst hst'
        obtain rfl := Option.some.inj (hhead.symm.trans hd)
        exact ⟨_, _, List.mem_cons_of_mem _ (List.mem_cons_self ..), List.mem_cons_self ..⟩
      · refine (h.pairs st' d hd (Mode.unserved_serves.mpr hst')).mono ?_
        intro e he
        exact List.mem_cons_of_mem _ (List.mem_cons_of_mem _ he)

omit [Mul K] in
theorem begin_valid (h : s.Valid (s.pending + Pi.single (.begin c) 1) .settled phase) :
    ∃ s', s.begin c = some s' ∧ s'.Consistent .settled := by
  have hphase : phase c = .beginning := by
    have hcall := h.books.calls (c := c) rfl
    cases hp : phase c with
    | beginning => rfl
    | _ => simp [Phase.call, hp] at hcall
  have hlist : s.lists c ≠ [] := by
    have hfits := (h.books.accounts c).fits
    rwa [hphase] at hfits
  have hout := h.books.out (c := c) rfl
  have hborn : c < s.created := h.books.born (by simp [hphase])
  have hnext := hout.starts (c := s.created) (f := .begin s.created) (p := .beginning)
    (hout.unborn _ (le_refl _)) rfl hlist (Nat.le_succ _) (Nat.lt_succ_self _)
  have hself : Function.update s.lists s.created (s.lists c) c = s.lists c := by
    simp [Nat.ne_of_lt hborn]
  have harrive := hnext.starts (c := c) (f := .arrive c) (p := .walking)
    (by simp [Nat.ne_of_lt hborn]) rfl hlist (le_refl _) (Nat.lt_succ_of_lt hborn)
  rw [Function.update_eq_self_iff.mpr hself.symm] at harrive
  obtain ⟨t, ts, hcons⟩ := List.exists_cons_of_ne_nil hlist
  rw [hcons] at harrive
  simp only [System.begin, show (s.customers c).station_list = t :: ts from hcons]
  refine ⟨_, rfl, Function.update (Function.update (Function.update phase c .out) s.created
    .beginning) c .walking, ?_, ?_⟩
  · rw [pending_push, pending_push, lists_update s rfl]
    exact harrive
  · intro st' d hd hserves
    refine (h.pairs st' d hd hserves).mono ?_
    intro e he
    exact List.mem_cons_of_mem _ (List.mem_cons_of_mem _ he)

theorem queue_valid (phase : ℕ → Phase St)
    (hbooks : Books s.pending s.queues s.lists s.created .settled phase)
    (hpairs : ∀ st d, (s.queues st).head? = some d → Pair s.event_queue st d)
    (hout : phase c = .out) (hc : c < s.created)
    (hfits : (Phase.queued st).Fits (s.lists c)) :
    ∃ s', s.queue st c = some s' ∧ s'.Consistent .settled := by
  have hqueue := hbooks.queue hout hc hfits
  simp only [System.queue]
  by_cases hnil : s.queues st = []
  · rw [if_pos hnil] at hqueue
    rw [if_pos (by simp [show (s.stations st).customer_queue = [] from hnil])]
    refine serve_valid (Function.update phase c (.queued st)) ⟨?_, ?_⟩
    · rw [queues_update s rfl]
      exact hqueue
    · intro st' d hd hserves
      rw [Mode.unserved_serves] at hserves
      rw [queues_update s rfl, Function.update_of_ne (Ne.symm hserves)] at hd
      exact hpairs st' d hd
  · rw [if_neg hnil] at hqueue
    obtain ⟨x, xs, hcons⟩ := List.exists_cons_of_ne_nil hnil
    have hlen : ¬ ((s.stations st).customer_queue ++ [c]).length ≤ 1 := by
      simp [show (s.stations st).customer_queue = x :: xs from hcons]
    rw [if_neg hlen]
    refine ⟨_, rfl, Function.update phase c (.queued st), ?_, ?_⟩
    · rw [queues_update s rfl]
      exact hqueue
    · intro st' d hd _
      rw [queues_update s rfl] at hd
      by_cases hst' : st' = st
      · subst hst'
        refine hpairs st' d ?_
        simpa [show (s.stations st').customer_queue = x :: xs from hcons, hcons] using hd
      · rw [Function.update_of_ne hst'] at hd
        exact hpairs st' d hd

def SkipsLast (s : System K St) (c : ℕ) : Prop :=
  ∃ t, s.lists c = [t] ∧ t.tolerance < (s.queues t.station).length

theorem arrive_valid (h : s.Valid (s.pending + Pi.single (.arrive c) 1) .settled phase)
    (hlast : ¬ s.SkipsLast c) : ∃ s', s.arrive c = some s' ∧ s'.Consistent .settled := by
  have hphase : phase c = .walking := by
    have hcall := h.books.calls (c := c) rfl
    cases hp : phase c with
    | walking => rfl
    | _ => simp [Phase.call, hp] at hcall
  have hlist : s.lists c ≠ [] := by
    have hfits := (h.books.accounts c).fits
    rwa [hphase] at hfits
  have hout := h.books.out (c := c) rfl
  have hborn : c < s.created := h.books.born (by simp [hphase])
  have hpairs : ∀ st d, (s.queues st).head? = some d → Pair s.event_queue st d :=
    fun st d hd => h.pairs st d hd (Mode.settled_serves st)
  obtain ⟨t, ts, hcons⟩ := List.exists_cons_of_ne_nil hlist
  simp only [System.arrive, show (s.customers c).station_list = t :: ts from hcons]
  split
  · refine queue_valid (Function.update phase c .out) ?_ hpairs (Function.update_self ..)
      hborn ⟨t, ts, ?_, rfl⟩
    · rw [lists_keep s rfl hcons.symm]
      exact hout
    · rw [lists_keep s rfl hcons.symm]
      exact hcons
  · rename_i htolerance
    have hts : ts ≠ [] := by
      rintro rfl
      exact hlast ⟨t, hcons, not_le.mp htolerance⟩
    have hwalk := hout.starts (c := c) (f := .arrive c) (p := .walking) (Function.update_self ..)
      rfl hts (le_refl _) hborn
    refine ⟨_, rfl, Function.update (Function.update phase c .out) c .walking, ?_, ?_⟩
    · rw [pending_push, lists_update s rfl, queues_keep s rfl (by rfl)]
      exact hwalk
    · intro st' d hd _
      rw [queues_keep s rfl (by rfl)] at hd
      refine (hpairs st' d hd).mono ?_
      intro e he
      exact List.mem_cons_of_mem _ he

omit [Mul K] in
theorem leave_valid (hbooks : Books (s.pending + Pi.single (.leave c) 1) s.queues s.lists s.created
      .settled phase) (hst : phase c = .queued st) (hhead : (s.queues st).head? = some c)
    (hpairs : ∀ st' d, (s.queues st').head? = some d → st ≠ st' → Pair s.event_queue st' d) :
    (s.leave c).Consistent (.departing st) ∧ (s.leave c).queues st = s.queues st := by
  have hborn : c < s.created := hbooks.born (by simp [hst])
  have hkeep : ∀ s' : System K St, s'.queues = s.queues → (∀ e ∈ s.event_queue, e ∈ s'.event_queue) →
      ∀ st' d, (s'.queues st').head? = some d → (Mode.departing st).serves st' →
        Pair s'.event_queue st' d := by
    intro s' hqueues hsub st' d hd hserves
    rw [hqueues] at hd
    exact (hpairs st' d hd (Mode.departing_serves.mp hserves)).mono hsub
  simp only [System.leave]
  split
  · refine ⟨⟨Function.update phase c .out, ?_, hkeep _ rfl (fun _ he => he)⟩, rfl⟩
    rw [lists_update s rfl]
    exact hbooks.leave_out hst hhead _
  · refine ⟨⟨Function.update phase c .out, ?_, hkeep _ rfl (fun _ he => he)⟩, rfl⟩
    rw [lists_update s rfl]
    exact hbooks.leave_out hst hhead _
  · rename_i t t' ts hcons
    have hout := hbooks.leave_out hst hhead (t' :: ts)
    have hwalk := hout.starts (c := c) (f := .arrive c) (p := .walking) (Function.update_self ..)
      rfl (List.cons_ne_nil t' ts) (le_refl _) hborn
    rw [Function.update_idem] at hwalk
    refine ⟨⟨Function.update (Function.update phase c .out) c .walking, ?_,
      hkeep _ rfl (fun _ he => List.mem_cons_of_mem _ he)⟩, rfl⟩
    rw [pending_push, lists_update s rfl]
    exact hwalk

theorem stationLeave_valid
    (h : s.Valid (s.pending + Pi.single (.stationLeave st) 1) (.departing st) phase) :
    ∃ s', s.stationLeave st = some s' ∧ s'.Consistent .settled := by
  have hne : s.queues st ≠ [] := by
    intro hnil
    have hcount := h.books.station_leaves st
    simp [hnil] at hcount
  obtain ⟨d, rest, hcons⟩ := List.exists_cons_of_ne_nil hne
  have hbooks := h.books.station_out
  rw [hcons] at hbooks
  simp only [System.stationLeave, show (s.stations st).customer_queue = d :: rest from hcons]
  refine serve_valid phase ⟨?_, ?_⟩
  · rw [queues_update s rfl]
    exact hbooks
  · intro st' d hd hserves
    rw [Mode.unserved_serves] at hserves
    rw [queues_update s rfl, Function.update_of_ne (Ne.symm hserves)] at hd
    exact h.pairs st' d hd (Mode.departing_serves.mpr hserves)

end System

end Supermarket
