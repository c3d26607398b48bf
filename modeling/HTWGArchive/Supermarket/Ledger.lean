import Mathlib.Algebra.Group.Pi.Basic
import Mathlib.Algebra.GroupWithZero.Nat
import HTWGArchive.Supermarket.EventList

namespace Supermarket

inductive Phase (St : Type) where
  | out
  | beginning
  | walking
  | queued (station : St)
  deriving DecidableEq

-- `departing`: the customer has left and the station has not; `unserved`: inside a call.
inductive Mode (St : Type) where
  | settled
  | departing (station : St)
  | unserved (station : St)
  deriving DecidableEq

section Ledger

variable {K St : Type} [DecidableEq St]

def Mode.serves (mode : Mode St) (st : St) : Prop :=
  mode ≠ .departing st ∧ mode ≠ .unserved st

instance (mode : Mode St) (st : St) : Decidable (mode.serves st) :=
  inferInstanceAs (Decidable (_ ∧ _))

omit [DecidableEq St] in
@[simp]
theorem Mode.settled_serves (st : St) : (Mode.settled : Mode St).serves st :=
  ⟨by simp, by simp⟩

omit [DecidableEq St] in
@[simp]
theorem Mode.departing_serves {st st' : St} : (Mode.departing st).serves st' ↔ st ≠ st' := by
  simp [Mode.serves]

omit [DecidableEq St] in
@[simp]
theorem Mode.unserved_serves {st st' : St} : (Mode.unserved st).serves st' ↔ st ≠ st' := by
  simp [Mode.serves]

-- The customer of an event that comes alone.
def Fun.solo : Fun St → Option ℕ
  | .begin c => some c
  | .arrive c => some c
  | _ => none

def Phase.call (c : ℕ) : Phase St → Option (Fun St)
  | .beginning => some (.begin c)
  | .walking => some (.arrive c)
  | _ => none

def Phase.Fits : Phase St → List (StationTuple K St) → Prop
  | .out, _ => True
  | .beginning, station_list => station_list ≠ []
  | .walking, station_list => station_list ≠ []
  | .queued st, station_list => ∃ t ts, station_list = t :: ts ∧ t.station = st

def Phase.leaves (queues : St → List ℕ) (mode : Mode St) (c : ℕ) : Phase St → ℕ
  | .queued st => if (queues st).head? = some c ∧ mode.serves st then 1 else 0
  | _ => 0

def Mode.waiting (mode : Mode St) (queues : St → List ℕ) (st : St) : List ℕ :=
  if mode = .departing st then (queues st).tail else queues st

-- The events that wait for a customer and the queues it stands in.
structure Account (pending : Fun St → ℕ) (queues : St → List ℕ) (mode : Mode St) (c : ℕ)
    (p : Phase St) (station_list : List (StationTuple K St)) : Prop where
  calls : ∀ f, f.solo = some c → pending f = if p.call c = some f then 1 else 0
  leaves : pending (.leave c) = p.leaves queues mode c
  waiting : ∀ st, (mode.waiting queues st).count c = if p = .queued st then 1 else 0
  fits : p.Fits station_list

structure Books (pending : Fun St → ℕ) (queues : St → List ℕ)
    (lists : ℕ → List (StationTuple K St)) (created : ℕ) (mode : Mode St)
    (phase : ℕ → Phase St) : Prop where
  accounts : ∀ c, Account pending queues mode c (phase c) (lists c)
  station_leaves : ∀ st, pending (.stationLeave st) =
    if queues st = [] ∨ mode = .unserved st then 0 else 1
  unborn : ∀ c, created ≤ c → phase c = .out

variable {pending pending' : Fun St → ℕ} {queues queues' : St → List ℕ}
  {lists : ℕ → List (StationTuple K St)} {created created' : ℕ} {mode mode' : Mode St}
  {phase : ℕ → Phase St} {c d : ℕ} {st : St} {p : Phase St}
  {station_list : List (StationTuple K St)}

theorem Phase.leaves_pos (h : p.leaves queues mode c ≠ 0) :
    ∃ st, p = .queued st ∧ (queues st).head? = some c ∧ mode.serves st := by
  cases p with
  | queued st =>
    simp only [Phase.leaves, ne_eq, ite_eq_right_iff, one_ne_zero, imp_false, not_not] at h
    exact ⟨st, rfl, h⟩
  | _ => exact absurd rfl h

theorem Phase.call_eq (queues : St → List ℕ) (mode : Mode St) {f : Fun St}
    (h : p.call c = some f) :
    f.solo = some c ∧ p ≠ .out ∧ (∀ st, p ≠ .queued st) ∧ p.leaves queues mode c = 0 := by
  cases p with
  | beginning =>
    obtain rfl := Option.some.inj h
    exact ⟨rfl, by simp, by simp, rfl⟩
  | walking =>
    obtain rfl := Option.some.inj h
    exact ⟨rfl, by simp, by simp, rfl⟩
  | out => cases h
  | queued st => cases h

theorem Account.frame (h : Account pending queues mode d p station_list)
    (hcalls : ∀ f, f.solo = some d → pending' f = pending f)
    (hleave : pending' (.leave d) = pending (.leave d))
    (hleaves : p.leaves queues' mode' d = p.leaves queues mode d)
    (hwaiting : ∀ st, (mode'.waiting queues' st).count d = (mode.waiting queues st).count d) :
    Account pending' queues' mode' d p station_list where
  calls := fun f hf => (hcalls f hf).trans (h.calls f hf)
  leaves := by rw [hleave, hleaves, h.leaves]
  waiting := fun st => (hwaiting st).trans (h.waiting st)
  fits := h.fits

theorem Books.change (h : Books pending queues lists created mode phase)
    (hothers : ∀ d, d ≠ c → Account pending' queues' mode' d (phase d) (lists d))
    (hself : Account pending' queues' mode' c p station_list)
    (hstations : ∀ st, pending' (.stationLeave st) =
      if queues' st = [] ∨ mode' = .unserved st then 0 else 1)
    (hcreated : created ≤ created') (hc : c < created') :
    Books pending' queues' (Function.update lists c station_list) created' mode'
      (Function.update phase c p) where
  accounts := by
    intro d
    by_cases hd : d = c
    · subst hd
      simpa using hself
    · simpa [hd] using hothers d hd
  station_leaves := hstations
  unborn := by
    intro d hd
    have hne : d ≠ c := by omega
    rw [Function.update_of_ne hne]
    exact h.unborn d (le_trans hcreated hd)

theorem Books.pending_le (h : Books pending queues lists created mode phase) (f : Fun St) :
    pending f ≤ 1 := by
  cases f with
  | begin c =>
    rw [(h.accounts c).calls _ rfl]
    split <;> omega
  | arrive c =>
    rw [(h.accounts c).calls _ rfl]
    split <;> omega
  | leave c =>
    rw [(h.accounts c).leaves]
    unfold Phase.leaves
    split
    · split <;> omega
    · omega
  | stationLeave st =>
    rw [h.station_leaves]
    split <;> omega

theorem Books.born (h : Books pending queues lists created mode phase) (hc : phase c ≠ .out) :
    c < created := by
  by_contra hlt
  exact hc (h.unborn c (Nat.le_of_not_lt hlt))

theorem Books.queued (h : Books pending queues lists created mode phase)
    (hc : c ∈ mode.waiting queues st) : phase c = .queued st := by
  by_contra hne
  have hwaiting := (h.accounts c).waiting st
  rw [if_neg hne] at hwaiting
  exact List.count_eq_zero.mp hwaiting hc

theorem Books.list_eq (h : Books pending queues lists created mode phase)
    (hc : c ∈ mode.waiting queues st) : ∃ t ts, lists c = t :: ts ∧ t.station = st := by
  have hfits := (h.accounts c).fits
  rwa [h.queued hc] at hfits

theorem Books.calls {f : Fun St}
    (h : Books (pending + Pi.single f 1) queues lists created mode phase)
    (hf : f.solo = some c) : (phase c).call c = some f := by
  by_contra hne
  have hcount := (h.accounts c).calls f hf
  simp [hne] at hcount

theorem Books.leaves
    (h : Books (pending + Pi.single (.leave c) 1) queues lists created mode phase) :
    ∃ st, phase c = .queued st ∧ (queues st).head? = some c ∧ mode.serves st := by
  refine Phase.leaves_pos ?_
  rw [← (h.accounts c).leaves]
  simp

theorem single_other {f g : Fun St} (hf : f.solo = some c) (hg : g.solo ≠ some c) :
    (pending + Pi.single f 1 : Fun St → ℕ) g = pending g := by
  have hne : g ≠ f := by
    rintro rfl
    exact hg hf
  simp [hne]

-- A customer whose event is taken waits for nothing.
theorem Books.out {f : Fun St}
    (h : Books (pending + Pi.single f 1) queues lists created mode phase)
    (hf : f.solo = some c) :
    Books pending queues lists created mode (Function.update phase c .out) := by
  have hcall := h.calls hf
  obtain ⟨-, hout, hqueued, hleaves⟩ := Phase.call_eq queues mode hcall
  have hself := h.accounts c
  rw [← Function.update_eq_self c lists]
  refine h.change ?_ ?_ ?_ (le_refl _) (h.born hout)
  · intro d hd
    refine (h.accounts d).frame ?_ ?_ rfl (fun _ => rfl)
    · intro g hg
      exact (single_other hf (by simp [hg, hd])).symm
    · exact (single_other hf (by simp [Fun.solo])).symm
  · constructor
    · intro g hg
      have hcount := hself.calls g hg
      rw [hcall] at hcount
      by_cases hgf : g = f
      · subst hgf
        simpa [Phase.call] using hcount
      · simpa [Phase.call, hgf, Ne.symm hgf] using hcount
    · have hcount := hself.leaves
      rw [hleaves, single_other hf (by simp [Fun.solo])] at hcount
      exact hcount
    · intro st
      rw [hself.waiting st, if_neg (hqueued st), if_neg (by simp)]
    · trivial
  · intro st
    rw [← h.station_leaves st, single_other hf (by simp [Fun.solo])]

-- A customer that waits for nothing gets an event.
theorem Books.starts {f : Fun St} (h : Books pending queues lists created mode phase)
    (hout : phase c = .out) (hp : p.call c = some f) (hfits : p.Fits station_list)
    (hcreated : created ≤ created') (hc : c < created') :
    Books (pending + Pi.single f 1) queues (Function.update lists c station_list) created' mode
      (Function.update phase c p) := by
  obtain ⟨hf, -, hqueued, hleaves⟩ := Phase.call_eq queues mode hp
  have hself := h.accounts c
  rw [hout] at hself
  refine h.change ?_ ?_ ?_ hcreated hc
  · intro d hd
    refine (h.accounts d).frame ?_ ?_ rfl (fun _ => rfl)
    · intro g hg
      exact single_other hf (by simp [hg, hd])
    · exact single_other hf (by simp [Fun.solo])
  · constructor
    · intro g hg
      have hcount := hself.calls g hg
      by_cases hgf : g = f
      · subst hgf
        rw [if_neg (by simp [Phase.call])] at hcount
        simp [hp, hcount]
      · rw [if_neg (by simp [Phase.call])] at hcount
        simp [hp, hcount, hgf, Ne.symm hgf]
    · rw [hleaves, single_other hf (by simp [Fun.solo])]
      exact hself.leaves
    · intro st
      rw [hself.waiting st, if_neg (hqueued st), if_neg (by simp)]
    · exact hfits
  · intro st
    rw [single_other hf (by simp [Fun.solo])]
    exact h.station_leaves st

theorem Books.leave_out
    (h : Books (pending + Pi.single (.leave c) 1) queues lists created .settled phase)
    (hst : phase c = .queued st) (hhead : (queues st).head? = some c)
    (station_list : List (StationTuple K St)) :
    Books pending queues (Function.update lists c station_list) created (.departing st)
      (Function.update phase c .out) := by
  have hself := h.accounts c
  rw [hst] at hself
  obtain ⟨rest, hrest⟩ := List.head?_eq_some_iff.mp hhead
  have hcount : rest.count c = 0 := by
    have hwaiting := hself.waiting st
    simp only [Mode.waiting, hrest, reduceCtorEq, if_false, if_true, List.count_cons_self] at hwaiting
    omega
  refine h.change ?_ ?_ ?_ (le_refl _) (h.born (by simp [hst]))
  · intro d hd
    refine (h.accounts d).frame ?_ ?_ ?_ ?_
    · intro g hg
      have hne : g ≠ .leave c := by
        rintro rfl
        cases hg
      simp [hne]
    · simp [hd]
    · cases hp : phase d with
      | queued st' =>
        by_cases hst' : st = st'
        · subst hst'
          simp [Phase.leaves, hrest, Ne.symm hd]
        · simp [Phase.leaves, hst']
      | _ => rfl
    · intro st'
      by_cases hst' : st' = st
      · subst hst'
        simp [Mode.waiting, hrest, Ne.symm hd]
      · simp [Mode.waiting, Ne.symm hst']
  · constructor
    · intro g hg
      have hne : g ≠ .leave c := by
        rintro rfl
        cases hg
      simpa [Phase.call, hne] using hself.calls g hg
    · have hleaves := hself.leaves
      simpa [Phase.leaves, hhead] using hleaves
    · intro st'
      by_cases hst' : st' = st
      · subst hst'
        simpa [Mode.waiting, hrest] using hcount
      · have hwaiting := hself.waiting st'
        simpa [Mode.waiting, Ne.symm hst'] using hwaiting
    · trivial
  · simpa using h.station_leaves

-- The customer `c` goes to the end of the queue of `st`; an empty station has to serve it.
theorem waiting_queue (queues : St → List ℕ) (st : St) (c : ℕ) (st' : St) (d : ℕ) :
    ((if queues st = [] then Mode.unserved st else .settled).waiting
      (Function.update queues st (queues st ++ [c])) st').count d =
        (Mode.settled.waiting queues st').count d + if st' = st ∧ d = c then 1 else 0 := by
  by_cases hst' : st' = st
  · subst hst'
    by_cases hd : d = c
    · subst hd
      split <;> simp [Mode.waiting]
    · split <;> simp [Mode.waiting, hd, Ne.symm hd]
  · split <;> simp [Mode.waiting, hst']

theorem leaves_queue (queues : St → List ℕ) (st : St) (c : ℕ) (p : Phase St) (d : ℕ) :
    p.leaves (Function.update queues st (queues st ++ [c]))
      (if queues st = [] then .unserved st else .settled) d = p.leaves queues .settled d := by
  cases p with
  | queued st' =>
    by_cases hst' : st' = st
    · subst hst'
      by_cases hnil : queues st' = []
      · simp [Phase.leaves, hnil]
      · obtain ⟨x, xs, hcons⟩ := List.exists_cons_of_ne_nil hnil
        simp [Phase.leaves, hcons]
    · by_cases hnil : queues st = []
      · simp [Phase.leaves, hnil, hst', Ne.symm hst']
      · simp [Phase.leaves, hnil, hst']
  | _ => rfl

theorem Books.queue (h : Books pending queues lists created .settled phase)
    (hout : phase c = .out) (hc : c < created) (hfits : (Phase.queued st).Fits (lists c)) :
    Books pending (Function.update queues st (queues st ++ [c])) lists created
      (if queues st = [] then .unserved st else .settled) (Function.update phase c (.queued st)) := by
  have hself := h.accounts c
  rw [hout] at hself
  rw [← Function.update_eq_self c lists]
  refine h.change ?_ ?_ ?_ (le_refl _) hc
  · intro d hd
    refine (h.accounts d).frame (fun _ _ => rfl) rfl (leaves_queue queues st c _ d) ?_
    intro st'
    rw [waiting_queue, if_neg (fun hboth => hd hboth.2), Nat.add_zero]
  · constructor
    · intro g hg
      simpa [Phase.call] using hself.calls g hg
    · have hleaves := hself.leaves
      by_cases hnil : queues st = []
      · simpa [Phase.leaves, hnil] using hleaves
      · obtain ⟨x, xs, hcons⟩ := List.exists_cons_of_ne_nil hnil
        have hne : x ≠ c := by
          have hcount := hself.waiting st
          rintro rfl
          simp [Mode.waiting, hcons] at hcount
        simpa [Phase.leaves, hcons, hne] using hleaves
    · intro st'
      rw [waiting_queue, hself.waiting st']
      by_cases hst' : st' = st
      · simp [hst']
      · simp [hst', Ne.symm hst']
    · exact hfits
  · intro st'
    rw [h.station_leaves st']
    by_cases hst' : st' = st
    · subst hst'
      by_cases hnil : queues st' = []
      · simp [hnil]
      · simp [hnil]
    · by_cases hnil : queues st = []
      · simp [hst', hnil, Ne.symm hst']
      · simp [hst', hnil]

theorem Books.station_out
    (h : Books (pending + Pi.single (.stationLeave st) 1) queues lists created (.departing st)
      phase) :
    Books pending (Function.update queues st (queues st).tail) lists created (.unserved st)
      phase where
  accounts := by
    intro d
    have hself := h.accounts d
    have hwaiting := hself.waiting st
    simp only [Mode.waiting, if_true] at hwaiting
    refine hself.frame ?_ ?_ ?_ ?_
    · intro g hg
      have hne : g ≠ .stationLeave st := by
        rintro rfl
        cases hg
      simp [hne]
    · simp
    · cases hp : phase d with
      | queued st' =>
        by_cases hst' : st' = st
        · subst hst'
          simp [Phase.leaves]
        · simp [Phase.leaves, hst', Ne.symm hst']
      | _ => rfl
    · intro st'
      by_cases hst' : st' = st
      · subst hst'
        simp [Mode.waiting]
      · simp [Mode.waiting, hst', Ne.symm hst']
  station_leaves := by
    intro st'
    have hold := h.station_leaves st'
    by_cases hst' : st' = st
    · subst hst'
      by_cases hnil : queues st' = []
      · simp [hnil] at hold
      · simpa [hnil] using hold
    · simpa [hst', Ne.symm hst'] using hold
  unborn := h.unborn

theorem Books.serve_nobody (h : Books pending queues lists created (.unserved st) phase)
    (hnil : queues st = []) : Books pending queues lists created .settled phase where
  accounts := by
    intro d
    have hself := h.accounts d
    refine hself.frame (fun _ _ => rfl) rfl ?_ (fun _ => by simp [Mode.waiting])
    cases hp : phase d with
    | queued st' =>
      by_cases hst' : st = st'
      · subst hst'
        simp [Phase.leaves, hnil]
      · simp [Phase.leaves, hst']
    | _ => rfl
  station_leaves := by
    intro st'
    rw [h.station_leaves st']
    by_cases hst' : st = st'
    · subst hst'
      simp [hnil]
    · simp [hst']
  unborn := h.unborn

theorem Books.serve (h : Books pending queues lists created (.unserved st) phase)
    (hhead : (queues st).head? = some c) :
    Books (pending + Pi.single (.leave c) 1 + Pi.single (.stationLeave st) 1) queues lists created
      .settled phase where
  accounts := by
    intro d
    have hself := h.accounts d
    obtain ⟨rest, hrest⟩ := List.head?_eq_some_iff.mp hhead
    have hqueued : phase c = .queued st := h.queued (by simp [Mode.waiting, hrest])
    constructor
    · intro g hg
      have hleave : g ≠ .leave c := by
        rintro rfl
        cases hg
      have hstation : g ≠ .stationLeave st := by
        rintro rfl
        cases hg
      simpa [hleave, hstation] using hself.calls g hg
    · by_cases hd : d = c
      · subst hd
        have hleaves := hself.leaves
        rw [hqueued] at hleaves ⊢
        simp only [Phase.leaves, Mode.unserved_serves, ne_eq, not_true, and_false, if_false] at hleaves
        simp [Phase.leaves, hhead, hleaves]
      · have hleaves := hself.leaves
        simp only [Pi.add_apply, ne_eq, reduceCtorEq, not_false_eq_true, Pi.single_eq_of_ne,
          Fun.leave.injEq, hd, hleaves, Nat.add_zero]
        cases hp : phase d with
        | queued st' =>
          by_cases hst' : st = st'
          · subst hst'
            simp [Phase.leaves, hhead, Ne.symm hd]
          · simp [Phase.leaves, hst']
        | _ => rfl
    · simpa [Mode.waiting] using hself.waiting
    · exact hself.fits
  station_leaves := by
    intro st'
    have hold := h.station_leaves st'
    by_cases hst' : st = st'
    · subst hst'
      have hnil : queues st ≠ [] := by
        intro hnil
        simp [hnil] at hhead
      simp [hold, hnil]
    · simp [hold, hst', Ne.symm hst']
  unborn := h.unborn

end Ledger

end Supermarket
