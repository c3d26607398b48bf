import Mathlib.Algebra.Order.Group.Nat
import HTWGArchive.Supermarket.Calls

namespace Supermarket

variable {K St : Type}

namespace System

variable [DecidableEq St] [Semiring K] [LinearOrder K] [CanonicallyOrderedAdd K]
  {s s' s₁ : System K St} {e f : Event K St} {st : St} {c : ℕ} {mode : Mode St}
  {phase : ℕ → Phase St}

omit [Semiring K] [CanonicallyOrderedAdd K] in
theorem Popped.pending_eq (h : Popped s e s₁) : s.pending = s₁.pending + Pi.single e.eFun 1 := by
  funext g
  have hcount := (h.perm.map Event.eFun).count_eq g
  rw [List.map_cons, List.count_cons] at hcount
  simp only [pending, hcount, Pi.add_apply, Pi.single_apply, beq_iff_eq, eq_comm (a := g)]

omit [Semiring K] [CanonicallyOrderedAdd K] in
theorem Popped.books (h : Popped s e s₁)
    (hbooks : Books s.pending s.queues s.lists s.created mode phase) :
    Books (s₁.pending + Pi.single e.eFun 1) s₁.queues s₁.lists s₁.created mode phase := by
  rw [← h.pending_eq, h.eq]
  exact hbooks

omit [DecidableEq St] [Semiring K] [CanonicallyOrderedAdd K] in
theorem Popped.mem_of_ne (h : Popped s e s₁) (hf : f ∈ s.event_queue) (hne : f.eFun ≠ e.eFun) :
    f ∈ s₁.event_queue := by
  rcases List.mem_cons.mp (h.perm.mem_iff.mp hf) with rfl | hmem
  · exact absurd rfl hne
  · exact hmem

omit [DecidableEq St] [Semiring K] [CanonicallyOrderedAdd K] in
theorem Popped.pair (h : Popped s e s₁) (hpair : Pair s.event_queue st c)
    (hleave : e.eFun ≠ .leave c) (hstation : e.eFun ≠ .stationLeave st) :
    Pair s₁.event_queue st c := by
  obtain ⟨t, k, hfirst, hsecond⟩ := hpair
  exact ⟨t, k, h.mem_of_ne hfirst (Ne.symm hleave), h.mem_of_ne hsecond (Ne.symm hstation)⟩

-- No two pending events call the same method of the same object.
omit [Semiring K] [LinearOrder K] [CanonicallyOrderedAdd K] in
theorem eFun_nodup (hbooks : Books s.pending s.queues s.lists s.created mode phase) :
    (s.event_queue.map Event.eFun).Nodup :=
  List.nodup_iff_count_le_one.mpr hbooks.pending_le

omit [Semiring K] [LinearOrder K] [CanonicallyOrderedAdd K] in
theorem eq_of_eFun (hbooks : Books s.pending s.queues s.lists s.created mode phase)
    (he : e ∈ s.event_queue) (hf : f ∈ s.event_queue) (hfun : e.eFun = f.eFun) : e = f :=
  List.inj_on_of_nodup_map (eFun_nodup hbooks) he hf hfun

omit [Semiring K] [CanonicallyOrderedAdd K] in
theorem Popped.eFun_ne (h : Popped s e s₁)
    (hbooks : Books s.pending s.queues s.lists s.created mode phase) (hf : f ∈ s₁.event_queue) :
    f.eFun ≠ e.eFun := by
  intro hfun
  have hnodup := (h.perm.map Event.eFun).nodup_iff.mp (eFun_nodup hbooks)
  rw [List.map_cons, List.nodup_cons] at hnodup
  exact hnodup.1 (hfun ▸ List.mem_map_of_mem hf)

omit [Semiring K] [CanonicallyOrderedAdd K] in
theorem Popped.not_stationLeave (h : Popped s e s₁) (hv : s.Valid s.pending .settled phase) :
    e.eFun ≠ .stationLeave st := by
  intro he
  have hne : s.queues st ≠ [] := by
    intro hnil
    have hcount := hv.books.station_leaves st
    rw [h.pending_eq, he] at hcount
    simp [hnil] at hcount
  obtain ⟨d, rest, hcons⟩ := List.exists_cons_of_ne_nil hne
  obtain ⟨t, k, hleave, hstation⟩ := hv.pairs st d (by rw [hcons]; rfl) (Mode.settled_serves st)
  have heq := eq_of_eFun hv.books hstation h.mem he.symm
  have hkey := h.least _ hleave
  rw [← heq, key_le_iff] at hkey
  simp only [lt_irrefl, true_and, false_or] at hkey
  omega

def Closing (s : System K St) (st : St) : Prop :=
  ∃ e ∈ s.event_queue, e.eFun = .stationLeave st ∧ ∀ f ∈ s.event_queue, e.key ≤ f.key

omit [DecidableEq St] in
theorem Fun.one_le_prio (f : Fun St) : 1 ≤ f.prio := by
  cases f <;> simp [Fun.prio]

omit [Semiring K] [CanonicallyOrderedAdd K] in
theorem Popped.closing (h : Popped s e s₁) (ha : s.Agenda)
    (hbooks : Books s.pending s.queues s.lists s.created mode phase)
    (hpair : ∃ t k, e = ⟨t, 1, k, .leave c⟩ ∧ ⟨t, 1, k + 1, .stationLeave st⟩ ∈ s.event_queue)
    {es : List (Event K St)} (hpushes : Pushes s₁ s' es) : s'.Closing st := by
  obtain ⟨t, k, rfl, hstation⟩ := hpair
  have hmem := h.mem_of_ne hstation (by simp)
  refine ⟨_, hpushes.queue.mem_iff.mpr (List.mem_append_right _ hmem), rfl, ?_⟩
  intro f hf
  rw [key_le_iff]
  rcases List.mem_append.mp (hpushes.queue.mem_iff.mp hf) with hf | hf
  · obtain ⟨htime, hprio⟩ := hpushes.later f hf
    rw [h.time] at htime
    have hnum : s₁.event_number < f.eNum := by
      have hnum := List.mem_map_of_mem (f := Event.eNum) hf
      rw [hpushes.numbers, List.mem_range'_1] at hnum
      omega
    have hle := (h.agenda ha).eNum_le hmem
    have hone := Fun.one_le_prio f.eFun
    simp only at htime hle ⊢
    rcases lt_or_eq_of_le htime with hlt | heq
    · exact Or.inl hlt
    · refine Or.inr ⟨heq, ?_⟩
      omega
  · have hkey := h.least f (h.mem_of_mem hf)
    rw [key_le_iff] at hkey
    have hne : f.eNum ≠ k := by
      intro hnum
      have heq := ha.unique (h.mem_of_mem hf) h.mem hnum
      exact h.eFun_ne hbooks hf (congrArg Event.eFun heq)
    simp only at hkey ⊢
    rcases hkey with hlt | ⟨htime, hlt | ⟨hprio, hle⟩⟩
    · exact Or.inl hlt
    · exact Or.inr ⟨htime, Or.inl hlt⟩
    · exact Or.inr ⟨htime, Or.inr ⟨hprio, by omega⟩⟩

theorem turn_settled (ha : s.Agenda) (hv : s.Valid s.pending .settled phase)
    (ht : s.turn = some (e, s')) (hlast : ∀ c, e.eFun = .arrive c → ¬ s.SkipsLast c) :
    (∃ c st, e.eFun = .leave c ∧ (s'.queues st).head? = some c ∧
      s'.Consistent (.departing st) ∧ s'.Closing st) ∨
    ((∀ c, e.eFun ≠ .leave c) ∧ s'.Consistent .settled) := by
  obtain ⟨s₁, hpop, hcall⟩ := turn_eq ht
  obtain ⟨es, hpushes⟩ := call_pushes hcall
  have hbooks := hpop.books hv.books
  have hqueues : s₁.queues = s.queues := by rw [hpop.eq]; rfl
  have hpairs : ∀ st d, (s₁.queues st).head? = some d → e.eFun ≠ .leave d →
      Pair s₁.event_queue st d := by
    intro st d hd hne
    rw [hqueues] at hd
    exact hpop.pair (hv.pairs st d hd (Mode.settled_serves st)) hne (hpop.not_stationLeave hv)
  cases he : e.eFun with
  | begin c =>
    rw [he] at hbooks hcall
    have hvalid : s₁.Valid (s₁.pending + Pi.single (.begin c) 1) .settled phase :=
      ⟨hbooks, fun st d hd _ => hpairs st d hd (by simp [he])⟩
    obtain ⟨s₂, hs₂, hcons⟩ := begin_valid hvalid
    obtain rfl : s₂ = s' := Option.some.inj (hs₂.symm.trans hcall)
    exact Or.inr ⟨by simp, hcons⟩
  | arrive c =>
    rw [he] at hbooks hcall
    have hvalid : s₁.Valid (s₁.pending + Pi.single (.arrive c) 1) .settled phase :=
      ⟨hbooks, fun st d hd _ => hpairs st d hd (by simp [he])⟩
    have hlast' : ¬ s₁.SkipsLast c := by
      rw [hpop.eq]
      exact hlast c he
    obtain ⟨s₂, hs₂, hcons⟩ := arrive_valid hvalid hlast'
    obtain rfl : s₂ = s' := Option.some.inj (hs₂.symm.trans hcall)
    exact Or.inr ⟨by simp, hcons⟩
  | leave c =>
    rw [he] at hbooks hcall
    obtain rfl : s₁.leave c = s' := Option.some.inj hcall
    obtain ⟨st, hst, hhead, -⟩ := hbooks.leaves
    have hothers : ∀ st' d, (s₁.queues st').head? = some d → st ≠ st' →
        Pair s₁.event_queue st' d := by
      intro st' d hd hne
      refine hpairs st' d hd ?_
      rw [he]
      rintro hdc
      obtain rfl := Fun.leave.inj hdc
      have hmem : c ∈ (Mode.settled : Mode St).waiting s₁.queues st' := by
        simp [Mode.waiting, List.mem_of_mem_head? hd]
      exact hne (Phase.queued.inj (hst.symm.trans (hbooks.queued hmem)))
    obtain ⟨hcons, hsame⟩ := leave_valid hbooks hst hhead hothers
    refine Or.inl ⟨c, st, rfl, by rw [hsame, hhead], hcons, ?_⟩
    rw [hqueues] at hhead
    obtain ⟨t, k, hleave, hstation⟩ := hv.pairs st c hhead (Mode.settled_serves st)
    exact hpop.closing ha hv.books ⟨t, k, (eq_of_eFun hv.books hleave hpop.mem he.symm).symm, hstation⟩
      hpushes
  | stationLeave st => exact absurd he (hpop.not_stationLeave hv)

omit [CanonicallyOrderedAdd K] in
theorem turn_departing (ha : s.Agenda) (hv : s.Valid s.pending (.departing st) phase)
    (hclosing : s.Closing st) :
    ∃ e s', s.turn = some (e, s') ∧ e.eFun = .stationLeave st ∧ s'.Consistent .settled := by
  obtain ⟨f, hf, hfun, hleast⟩ := hclosing
  obtain ⟨e, s₁, hpop, hturn⟩ := turn_popped (List.ne_nil_of_mem hf)
  have heq : e = f := by
    refine ha.unique hpop.mem hf ?_
    have hkey := le_antisymm (hpop.least f hf) (hleast e hpop.mem)
    exact congrArg (fun k => (ofLex (ofLex k).2).2) hkey
  subst heq
  have hbooks := hpop.books hv.books
  have hqueues : s₁.queues = s.queues := by rw [hpop.eq]; rfl
  rw [hfun] at hbooks
  have hvalid : s₁.Valid (s₁.pending + Pi.single (.stationLeave st) 1) (.departing st) phase := by
    refine ⟨hbooks, ?_⟩
    intro st' d hd hserves
    rw [hqueues] at hd
    refine hpop.pair (hv.pairs st' d hd hserves) (by simp [hfun]) ?_
    rw [hfun]
    intro hst
    exact Mode.departing_serves.mp hserves (Fun.stationLeave.inj hst)
  obtain ⟨s', hs', hcons⟩ := stationLeave_valid hvalid
  refine ⟨e, s', ?_, hfun, hcons⟩
  rw [hturn, hfun, call, hs']
  rfl

-- A turn that does not skip the last station of a list.
def Turn (s : System K St) (e : Event K St) (s' : System K St) : Prop :=
  s.turn = some (e, s') ∧ ∀ c, e.eFun = .arrive c → ¬ s.SkipsLast c

-- The state at an event boundary, by the event executed last.
structure Sound (ls : List (Event K St)) (s : System K St) : Prop where
  agenda : s.Agenda
  fifo : s.Fifo
  conserved : (ls ++ s.event_queue).Perm s.pushed
  mode : (∃ e c st, ls.getLast? = some e ∧ e.eFun = .leave c ∧ (s.queues st).head? = some c ∧
      s.Consistent (.departing st) ∧ s.Closing st) ∨
    ((∀ e c, ls.getLast? = some e → e.eFun ≠ .leave c) ∧ s.Consistent .settled)

theorem Sound.turn {ls : List (Event K St)} (h : Sound ls s) (ht : s.Turn e s') :
    Sound (ls ++ [e]) s' := by
  obtain ⟨hturn, hlast⟩ := ht
  obtain ⟨s₁, hpop, hcall⟩ := turn_eq hturn
  obtain ⟨es, hpushes⟩ := call_pushes hcall
  have hpushed : s₁.pushed = s.pushed := by rw [hpop.eq]
  refine ⟨hpushes.agenda (hpop.agenda h.agenda), ?_, ?_, ?_⟩
  · refine call_fifo ?_ hcall
    rw [hpop.eq]
    exact h.fifo
  · refine hpushes.conserved ?_
    rw [hpushed, List.append_assoc]
    exact (hpop.perm.symm.append_left ls).trans h.conserved
  · rw [List.getLast?_concat]
    rcases h.mode with ⟨f, c, st, -, -, -, ⟨phase, hv⟩, hclosing⟩ | ⟨-, phase, hv⟩
    · obtain ⟨f, x, hx, hfun, hcons⟩ := turn_departing h.agenda hv hclosing
      obtain ⟨rfl, rfl⟩ := Prod.mk.inj (Option.some.inj (hturn.symm.trans hx))
      refine Or.inr ⟨?_, hcons⟩
      rintro g c hg hleave
      obtain rfl := Option.some.inj hg
      rw [hfun] at hleave
      cases hleave
    · rcases turn_settled h.agenda hv hturn hlast with ⟨c, st, he, hhead, hcons, hclosing⟩ | ⟨hne, hcons⟩
      · exact Or.inl ⟨e, c, st, rfl, he, hhead, hcons, hclosing⟩
      · refine Or.inr ⟨?_, hcons⟩
        rintro g c hg
        obtain rfl := Option.some.inj hg
        exact hne c

theorem announce_sound {customers : List (K × KundIn K St)} (h : Sound [] s)
    (htime : s.simulation_time = 0) (hlists : ∀ k ∈ customers, k.2.station_list ≠ []) :
    Sound [] (s.announce customers) := by
  induction customers generalizing s with
  | nil => exact h
  | cons k customers ih =>
    obtain ⟨hlist, hrest⟩ := List.forall_mem_cons.mp hlists
    obtain ⟨time, customer⟩ := k
    obtain ⟨phase, hv⟩ : s.Consistent .settled := by
      rcases h.mode with ⟨e, c, st, he, -⟩ | ⟨-, hcons⟩
      · cases he
      · exact hcons
    have hkeep : Pushes s { s with
        customers := Function.update s.customers s.created customer
        created := s.created + 1 } [] := (Pushes.refl s).keep rfl rfl rfl rfl
    have hpushes := hkeep.push (.begin s.created) (t := time) (htime.trans_le zero_le)
    have hbooks := hv.books.starts (f := .begin s.created) (p := .beginning)
      (hv.books.unborn _ (le_refl _)) rfl hlist (Nat.le_succ _) (Nat.lt_succ_self _)
    refine ih ⟨hpushes.agenda h.agenda, h.fifo.keep rfl (fun _ => rfl), ?_, Or.inr ⟨by simp, ?_⟩⟩
      htime hrest
    · exact hpushes.conserved h.conserved
    · refine ⟨Function.update phase s.created .beginning, ?_, ?_⟩
      · rw [pending_push, lists_update s rfl]
        exact hbooks
      · intro st d hd hserves
        refine (hv.pairs st d hd hserves).mono ?_
        intro e he
        exact List.mem_cons_of_mem _ he

theorem blank_sound (times : St → K) : Sound [] (blank times) where
  agenda := ⟨by simp [blank], rfl, List.Subperm.refl _, by simp [blank]⟩
  fifo := fun _ => rfl
  conserved := List.Perm.refl _
  mode := by
    refine Or.inr ⟨by simp, fun _ => .out, ?_, by simp [queues, blank]⟩
    constructor
    · intro c
      constructor
      · simp [pending, blank, Phase.call]
      · simp [pending, blank, Phase.leaves]
      · simp [Mode.waiting, queues, blank]
      · trivial
    · simp [pending, blank, queues]
    · simp

-- What holds between two events, unless the last one was the leave event of a customer.
structure Between (s : System K St) : Prop where
  busy : ∀ st, s.queues st ≠ [] ↔ s.pending (.stationLeave st) = 1
  head : ∀ e ∈ s.event_queue, ∀ st, e.eFun = .stationLeave st →
    ∃ c, (s.queues st).head? = some c ∧ ∃ f ∈ s.event_queue, f.eFun = .leave c ∧
      f.eTime = e.eTime ∧ f.ePrio = e.ePrio ∧ f.eNum + 1 = e.eNum
  station : ∀ st, ∀ c ∈ s.queues st, ∃ t ts, s.lists c = t :: ts ∧ t.station = st
  nodup : ∀ st, (s.queues st).Nodup
  apart : ∀ st st' c, c ∈ s.queues st → c ∈ s.queues st' → st = st'

structure Disciplined (ls : List (Event K St)) (s : System K St) : Prop where
  clock : ∀ e s', s.turn = some (e, s') → s.simulation_time ≤ s'.simulation_time
  conserved : (ls ++ s.event_queue).Perm s.pushed
  once : s.pushed.Nodup
  pair : ∀ e c, ls.getLast? = some e → e.eFun = .leave c →
    ∃ st f s', (s.queues st).head? = some c ∧ s.turn = some (f, s') ∧ f.eFun = .stationLeave st
  between : (∀ e c, ls.getLast? = some e → e.eFun ≠ .leave c) → s.Between
  fifo : ∀ st, s.added st = s.left st ++ s.queues st

omit [Semiring K] [LinearOrder K] [CanonicallyOrderedAdd K] in
theorem Consistent.between (h : s.Consistent .settled) : s.Between := by
  obtain ⟨phase, hv⟩ := h
  have hpending : ∀ st, s.pending (.stationLeave st) = if s.queues st = [] then 0 else 1 := by
    intro st
    simpa using hv.books.station_leaves st
  have hmem : ∀ st c, c ∈ s.queues st → c ∈ Mode.settled.waiting s.queues st := by
    intro st c hc
    simpa [Mode.waiting] using hc
  refine ⟨?_, ?_, ?_, ?_, ?_⟩
  · intro st
    rw [hpending]
    split
    · simp [*]
    · simp [*]
  · intro e he st hfun
    have hne : s.queues st ≠ [] := by
      intro hnil
      have hpos : 0 < s.pending (.stationLeave st) :=
        List.count_pos_iff.mpr (hfun ▸ List.mem_map_of_mem he)
      rw [hpending, if_pos hnil] at hpos
      exact absurd hpos (lt_irrefl 0)
    obtain ⟨d, rest, hcons⟩ := List.exists_cons_of_ne_nil hne
    have hhead : (s.queues st).head? = some d := by rw [hcons]; rfl
    obtain ⟨t, k, hleave, hstation⟩ := hv.pairs st d hhead (Mode.settled_serves st)
    have heq := eq_of_eFun hv.books he hstation hfun
    rw [heq]
    exact ⟨d, hhead, _, hleave, rfl, rfl, rfl, rfl⟩
  · intro st c hc
    exact hv.books.list_eq (hmem st c hc)
  · intro st
    rw [List.nodup_iff_count_le_one]
    intro c
    have hcount := (hv.books.accounts c).waiting st
    simp only [Mode.waiting, reduceCtorEq, if_false] at hcount
    rw [hcount]
    split <;> omega
  · intro st st' c hc hc'
    exact Phase.queued.inj ((hv.books.queued (hmem st c hc)).symm.trans
      (hv.books.queued (hmem st' c hc')))

theorem Sound.disciplined {ls : List (Event K St)} (h : Sound ls s) : Disciplined ls s where
  clock := by
    intro e s' hturn
    obtain ⟨s₁, hpop, hcall⟩ := turn_eq hturn
    obtain ⟨es, hpushes⟩ := call_pushes hcall
    rw [hpushes.time, hpop.time]
    exact h.agenda.times e hpop.mem
  conserved := h.conserved
  once := by
    refine List.Nodup.of_map Event.eNum ?_
    rw [h.agenda.numbers]
    exact List.nodup_range'
  pair := by
    intro e c he hfun
    rcases h.mode with ⟨f, d, st, hf, hleave, hhead, ⟨phase, hv⟩, hclosing⟩ | ⟨hne, -⟩
    · obtain rfl := Option.some.inj (he.symm.trans hf)
      obtain rfl := Fun.leave.inj (hfun.symm.trans hleave)
      obtain ⟨g, s', hturn, hstation, -⟩ := turn_departing h.agenda hv hclosing
      exact ⟨st, g, s', hhead, hturn, hstation⟩
    · exact absurd hfun (hne e c he)
  between := by
    intro hlast
    rcases h.mode with ⟨f, d, st, hf, hleave, -⟩ | ⟨-, hcons⟩
    · exact absurd hleave (hlast f d hf)
    · exact hcons.between
  fifo := h.fifo

theorem queue_discipline (times : St → K) (customers : List (K × KundIn K St))
    {ls : List (Event K St)} (hlists : ∀ k ∈ customers, k.2.station_list ≠ [])
    (hrun : LabelledRun.Run Turn ((blank times).announce customers) ls s) : Disciplined ls s := by
  have hinit := announce_sound (blank_sound times) rfl hlists
  have hsound : Sound ls s := by
    refine LabelledRun.Run.history (G := fun _ => True) hinit ?_ hrun (fun _ _ => trivial)
    intro ls s e s' _ hs _ ht
    exact hs.turn ht
  exact hsound.disciplined

theorem queue_discipline_one_customer : ∃ ls : List (Event ℕ Unit), ∃ s : System ℕ Unit,
    ls.map Event.eFun = [.begin 0, .arrive 0, .leave 0, .stationLeave ()] ∧ Disciplined ls s := by
  refine ⟨_, _, ?_, queue_discipline (fun _ => 3)
    [(0, ⟨[⟨1, 5, 2, ()⟩], 100, false, false, 0, 0⟩)] (by simp) (.snoc (.snoc (.snoc (.snoc .nil
    ⟨rfl, ?_⟩) ⟨rfl, ?_⟩) ⟨rfl, ?_⟩) ⟨rfl, ?_⟩)⟩
  · rfl
  · simp
  · rintro c hc ⟨t, ht, htolerance⟩
    obtain rfl := Fun.arrive.inj hc
    obtain ⟨rfl, -⟩ := List.cons.inj (show [⟨1, 5, 2, ()⟩] = [t] from ht)
    exact absurd htolerance (by decide)
  · simp
  · simp

end System

end Supermarket
