import Mathlib.Algebra.Group.Pi.Basic
import Mathlib.Algebra.GroupWithZero.Nat
import HTWGArchive.Supermarket.EventList

namespace Supermarket

-- What a customer waits for, whatever the times are.
inductive Stage (St : Type) where
  | out
  | beginning
  | walking
  | waiting (station : St)
  | leaving
  deriving DecidableEq

section Placement

variable {K St : Type}

def Stage.event (c : ℕ) : Stage St → Option (Fun St)
  | .beginning => some (.begin c)
  | .walking => some (.arrive c)
  | .leaving => some (.leave c)
  | _ => none

def Fun.customer : Fun St → Option ℕ
  | .begin c => some c
  | .arrive c => some c
  | .leave c => some c
  | .stationLeave _ => none

theorem Stage.event_customer {p : Stage St} {c : ℕ} {f : Fun St} (h : p.event c = some f) :
    f.customer = some c ∧ p ≠ .out ∧ ∀ st, p ≠ .waiting st := by
  cases p with
  | beginning =>
    obtain rfl := Option.some.inj h
    exact ⟨rfl, by simp, by simp⟩
  | walking =>
    obtain rfl := Option.some.inj h
    exact ⟨rfl, by simp, by simp⟩
  | leaving =>
    obtain rfl := Option.some.inj h
    exact ⟨rfl, by simp, by simp⟩
  | out => cases h
  | waiting st => cases h

variable [DecidableEq St]

-- The first of a queue is in service or gone, but at a free station.
def waitingAt (queues : St → List ℕ) (free : Option St) (st : St) : List ℕ :=
  if free = some st then queues st else (queues st).tail

structure Placed (pending : Fun St → ℕ) (queues : St → List ℕ)
    (lists : ℕ → List (StationTuple K St)) (created : ℕ) (free : Option St)
    (stage : ℕ → Stage St) : Prop where
  calls : ∀ c f, f.customer = some c → pending f = if (stage c).event c = some f then 1 else 0
  waiting : ∀ c st, (waitingAt queues free st).count c = if stage c = .waiting st then 1 else 0
  stations : ∀ st, pending (.stationLeave st) = if queues st = [] ∨ free = some st then 0 else 1
  lists : ∀ c, stage c ≠ .out → lists c ≠ []
  unborn : ∀ c, created ≤ c → stage c = .out

namespace Placed

variable {pending pending' : Fun St → ℕ} {queues queues' : St → List ℕ}
  {lists : ℕ → List (StationTuple K St)} {created created' : ℕ} {free free' : Option St}
  {stage : ℕ → Stage St} {c : ℕ} {st : St} {p : Stage St} {f : Fun St}
  {station_list : List (StationTuple K St)}

theorem change (h : Placed pending queues lists created free stage)
    (hothers : ∀ d, d ≠ c → ∀ f : Fun St, f.customer = some d → pending' f = pending f)
    (hcounts : ∀ d, d ≠ c → ∀ st,
      (waitingAt queues' free' st).count d = (waitingAt queues free st).count d)
    (hcalls : ∀ f, f.customer = some c → pending' f = if p.event c = some f then 1 else 0)
    (hwaiting : ∀ st, (waitingAt queues' free' st).count c = if p = .waiting st then 1 else 0)
    (hstations : ∀ st, pending' (.stationLeave st) =
      if queues' st = [] ∨ free' = some st then 0 else 1)
    (hlist : p ≠ .out → station_list ≠ []) (hcreated : created ≤ created')
    (hc : c < created') :
    Placed pending' queues' (Function.update lists c station_list) created' free'
      (Function.update stage c p) where
  calls := by
    intro d f hf
    rcases eq_or_ne d c with rfl | hd
    · rw [Function.update_self]
      exact hcalls f hf
    · rw [Function.update_of_ne hd, hothers d hd f hf]
      exact h.calls d f hf
  waiting := by
    intro d st
    rcases eq_or_ne d c with rfl | hd
    · rw [Function.update_self]
      exact hwaiting st
    · rw [Function.update_of_ne hd, hcounts d hd]
      exact h.waiting d st
  stations := hstations
  lists := by
    intro d
    rcases eq_or_ne d c with rfl | hd
    · rw [Function.update_self, Function.update_self]
      exact hlist
    · rw [Function.update_of_ne hd, Function.update_of_ne hd]
      exact h.lists d
  unborn := by
    intro d hd
    rw [Function.update_of_ne (Nat.ne_of_gt (Nat.lt_of_lt_of_le hc hd))]
    exact h.unborn d (le_trans hcreated hd)

theorem born (h : Placed pending queues lists created free stage) (hc : stage c ≠ .out) :
    c < created := by
  rcases Nat.lt_or_ge c created with hlt | hge
  · exact hlt
  · exact absurd (h.unborn c hge) hc

theorem taken (h : Placed (pending + Pi.single f 1) queues lists created free stage)
    (hf : f.customer = some c) : (stage c).event c = some f := by
  have hcount := h.calls c f hf
  rw [Pi.add_apply, Pi.single_eq_same] at hcount
  split at hcount
  · assumption
  · omega

theorem other (hf : f.customer = some c) {d : ℕ} (hd : d ≠ c) {g : Fun St}
    (hg : g.customer = some d) : (pending + Pi.single f 1 : Fun St → ℕ) g = pending g := by
  have hne : g ≠ f := by
    rintro rfl
    exact hd (Option.some.inj (hg.symm.trans hf))
  simp [hne]

theorem station (hf : f.customer = some c) :
    (pending + Pi.single f 1 : Fun St → ℕ) (.stationLeave st) = pending (.stationLeave st) := by
  have hne : Fun.stationLeave st ≠ f := by
    rintro rfl
    cases hf
  simp [hne]

theorem take (h : Placed (pending + Pi.single f 1) queues lists created free stage)
    (hf : f.customer = some c) :
    Placed pending queues lists created free (Function.update stage c .out) := by
  have htaken := h.taken hf
  obtain ⟨-, hout, hnot⟩ := Stage.event_customer htaken
  rw [← Function.update_eq_self c lists]
  refine h.change ?_ (fun _ _ _ => rfl) ?_ ?_ ?_ (by simp) (le_refl _) (h.born hout)
  · intro d hd g hg
    exact (other hf hd hg).symm
  · intro g hg
    have hcount := h.calls c g hg
    rw [htaken, Pi.add_apply, Pi.single_apply] at hcount
    rw [if_neg (by simp [Stage.event])]
    rcases eq_or_ne g f with rfl | hne
    · simp at hcount
      exact hcount
    · simp [hne, Ne.symm hne] at hcount
      exact hcount
  · intro st
    rw [h.waiting c st, if_neg (hnot st), if_neg (by simp)]
  · intro st
    rw [← h.stations st, station hf]

theorem give (h : Placed pending queues lists created free stage) (hout : stage c = .out)
    (hp : p.event c = some f) (hlist : station_list ≠ []) (hcreated : created ≤ created')
    (hc : c < created') :
    Placed (pending + Pi.single f 1) queues (Function.update lists c station_list) created' free
      (Function.update stage c p) := by
  obtain ⟨hf, -, hnot⟩ := Stage.event_customer hp
  refine h.change ?_ (fun _ _ _ => rfl) ?_ ?_ ?_ (fun _ => hlist) hcreated hc
  · intro d hd g hg
    exact other hf hd hg
  · intro g hg
    have hcount := h.calls c g hg
    rw [hout, if_neg (by simp [Stage.event])] at hcount
    rw [hp, Pi.add_apply, Pi.single_apply, hcount, Nat.zero_add]
    simp [eq_comm]
  · intro st
    rw [h.waiting c st, hout, if_neg (by simp), if_neg (hnot st)]
  · intro st
    rw [station hf, h.stations st]

theorem setList (h : Placed pending queues lists created free stage) (hout : stage c = .out) :
    Placed pending queues (Function.update lists c station_list) created free stage where
  calls := h.calls
  waiting := h.waiting
  stations := h.stations
  lists := by
    intro d hd
    have hne : d ≠ c := by
      rintro rfl
      exact hd hout
    rw [Function.update_of_ne hne]
    exact h.lists d hd
  unborn := h.unborn

-- An empty station becomes free to serve.
theorem queue (h : Placed pending queues lists created none stage) (hout : stage c = .out)
    (hlist : lists c ≠ []) (hc : c < created) :
    Placed pending (Function.update queues st (queues st ++ [c])) lists created
      (if queues st = [] then some st else none) (Function.update stage c (.waiting st)) := by
  have hcount : ∀ d st', (waitingAt (Function.update queues st (queues st ++ [c]))
      (if queues st = [] then some st else none) st').count d =
        (waitingAt queues none st').count d + if d = c ∧ st' = st then 1 else 0 := by
    intro d st'
    rcases eq_or_ne st' st with rfl | hst
    · cases hqueue : queues st' with
      | nil =>
        simp only [waitingAt, hqueue, Function.update_self, if_true, List.nil_append,
          List.tail_nil, List.count_nil, Nat.zero_add, and_true, List.count_singleton, beq_iff_eq,
          reduceCtorEq, if_false, eq_comm (a := c)]
      | cons x xs =>
        simp only [waitingAt, hqueue, Function.update_self, List.cons_append,
          List.tail_cons, List.count_append, and_true, List.count_singleton, beq_iff_eq,
          reduceCtorEq, if_false, eq_comm (a := c)]
    · cases hqueue : queues st with
      | nil => simp [waitingAt, hst, Ne.symm hst]
      | cons x xs => simp [waitingAt, hst]
  rw [← Function.update_eq_self c lists]
  refine h.change (fun _ _ _ _ => rfl) ?_ ?_ ?_ ?_ (fun _ => hlist) (le_refl _) hc
  · intro d hd st'
    rw [hcount, if_neg (fun hboth => hd hboth.1), Nat.add_zero]
  · intro g hg
    rw [h.calls c g hg, hout]
    rfl
  · intro st'
    rw [hcount, h.waiting c st', hout]
    simp [eq_comm]
  · intro st'
    rw [h.stations st']
    rcases eq_or_ne st' st with rfl | hst
    · cases hqueue : queues st' with
      | nil => simp
      | cons x xs => simp
    · cases hqueue : queues st with
      | nil => simp [hst, Ne.symm hst]
      | cons x xs => simp [hst]

theorem stationOut
    (h : Placed (pending + Pi.single (.stationLeave st) 1) queues lists created none stage) :
    Placed pending (Function.update queues st (queues st).tail) lists created (some st) stage where
  calls := by
    intro c f hf
    rw [← h.calls c f hf]
    have hne : f ≠ .stationLeave st := by
      rintro rfl
      cases hf
    simp [hne]
  waiting := by
    intro c st'
    rw [← h.waiting c st']
    rcases eq_or_ne st' st with rfl | hst
    · simp [waitingAt]
    · simp [waitingAt, hst, Ne.symm hst]
  stations := by
    intro st'
    have hold := h.stations st'
    rcases eq_or_ne st' st with rfl | hst
    · simp at hold ⊢
      split at hold <;> omega
    · simpa [hst, Ne.symm hst] using hold
  lists := h.lists
  unborn := h.unborn

theorem serve_nobody (h : Placed pending queues lists created (some st) stage)
    (hnil : queues st = []) : Placed pending queues lists created none stage where
  calls := h.calls
  waiting := by
    intro c st'
    rw [← h.waiting c st']
    rcases eq_or_ne st' st with rfl | hst
    · simp [waitingAt, hnil]
    · simp [waitingAt, Ne.symm hst]
  stations := by
    intro st'
    rw [h.stations st']
    rcases eq_or_ne st' st with rfl | hst
    · simp [hnil]
    · simp [Ne.symm hst]
  lists := h.lists
  unborn := h.unborn

theorem first_waiting (h : Placed pending queues lists created (some st) stage) {rest : List ℕ}
    (hqueue : queues st = c :: rest) : stage c = .waiting st ∧ rest.count c = 0 := by
  have hcount := h.waiting c st
  simp only [waitingAt, if_true, hqueue, List.count_cons_self] at hcount
  split at hcount
  · exact ⟨by assumption, by omega⟩
  · omega

theorem serve (h : Placed pending queues lists created (some st) stage) {rest : List ℕ}
    (hqueue : queues st = c :: rest) :
    Placed (pending + Pi.single (.leave c) 1 + Pi.single (.stationLeave st) 1) queues lists created
      none (Function.update stage c .leaving) := by
  obtain ⟨hstage, hrest⟩ := h.first_waiting hqueue
  have hne : ∀ {d : ℕ} {g : Fun St}, g.customer = some d → g ≠ .stationLeave st := by
    rintro d g hg rfl
    cases hg
  rw [← Function.update_eq_self c lists]
  refine h.change ?_ ?_ ?_ ?_ ?_ (fun _ => h.lists c (by simp [hstage])) (le_refl _)
    (h.born (by simp [hstage]))
  · intro d hd g hg
    rw [Pi.add_apply, other (show (Fun.leave c : Fun St).customer = some c from rfl) hd hg,
      Pi.single_eq_of_ne (hne hg), Nat.add_zero]
  · intro d hd st'
    rcases eq_or_ne st' st with rfl | hst
    · simp [waitingAt, hqueue, Ne.symm hd]
    · simp [waitingAt, Ne.symm hst]
  · intro g hg
    have hold := h.calls c g hg
    rw [hstage, if_neg (by simp [Stage.event])] at hold
    rw [Pi.add_apply, Pi.add_apply, Pi.single_eq_of_ne (hne hg), Pi.single_apply, hold]
    simp [Stage.event, eq_comm]
  · intro st'
    rcases eq_or_ne st' st with rfl | hst
    · simpa [waitingAt, hqueue] using hrest
    · have hold := h.waiting c st'
      simpa [waitingAt, hstage, Ne.symm hst] using hold
  · intro st'
    have hold := h.stations st'
    rcases eq_or_ne st' st with rfl | hst
    · simpa [hqueue] using hold
    · simpa [hst, Ne.symm hst] using hold

end Placed

end Placement

end Supermarket
