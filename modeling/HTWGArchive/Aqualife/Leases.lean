import HTWGArchive.Aqualife.Broker
import HTWGArchive.Library.LabelledRun

namespace Lease

open Aqualife LabelledRun

def LEASE_DURATION : Int := 5000

-- A client with the time of its last registration, in milliseconds.
structure Stamped (T : Type) where
  id : String
  timestamp : Int
  client : T
  deriving DecidableEq, Repr

structure Collection (T : Type) where
  clients : List (Stamped T)
  deriving DecidableEq, Repr

namespace Collection

variable {T : Type}

-- What the collection is without its timestamps.
def plain (c : Collection T) : ClientCollection T :=
  ⟨c.clients.map (fun x => ⟨x.id, x.client⟩)⟩

def cleanDeadClients (c : Collection T) (leaseDuration actualTime : Int) : List String :=
  (c.clients.filter (fun x => x.timestamp - actualTime > leaseDuration)).map Stamped.id

-- `clients.get(-1)` throws; the broker calls this for clients of the collection only.
def updateTimestamp [DecidableEq T] (c : Collection T) (client : T) (timestamp : Int) :
    Collection T :=
  match c.clients.findIdx? (fun x => x.client = client) with
  | some i => ⟨c.clients.modify i (fun x => { x with timestamp := timestamp })⟩
  | none => c

def add (c : Collection T) (id : String) (timestamp : Int) (client : T) : Collection T :=
  ⟨c.clients ++ [⟨id, timestamp, client⟩]⟩

def remove (c : Collection T) (index : ℤ) : Collection T :=
  ⟨c.clients.eraseIdx index.toNat⟩

end Collection

-- What the broker handles, with the time of its clock.
inductive Event where
  | register (sender : InetSocketAddress) (now : Int)
  | clean (now : Int)
  deriving DecidableEq, Repr

def Event.time : Event → Int
  | register _ now => now
  | clean now => now

structure Broker where
  clientCollection : Collection InetSocketAddress
  hasToken : Bool
  nameService : String → Option InetSocketAddress

namespace Broker

def start : Broker :=
  ⟨⟨[]⟩, true, fun _ => none⟩

def plain (b : Broker) : Aqualife.Broker :=
  ⟨b.clientCollection.plain, b.hasToken, b.nameService⟩

def register (b : Broker) (sender : InetSocketAddress) (timestamp : Int) : Broker × List Send :=
  let sizeClients := b.clientCollection.plain.size
  let clientId := s!"tank{sizeClients}"
  let indexClient := b.clientCollection.plain.indexOf sender
  if indexClient ≠ -1 then
    ({ b with clientCollection := b.clientCollection.updateTimestamp sender timestamp },
      [(some sender,
        .registerResponse ((b.clientCollection.plain.getId indexClient).getD clientId))])
  else
    let clientCollection := b.clientCollection.add clientId timestamp sender
    match clientCollection.plain.getLeftNeighborOf sizeClients,
      clientCollection.plain.getRightNeighborOf sizeClients with
    | some leftNeighbour, some rightNeighbour =>
      ({ b with
         clientCollection := clientCollection
         nameService := Function.update b.nameService clientId (some sender) },
       [(some leftNeighbour, .neighbourUpdate sender .right),
        (some rightNeighbour, .neighbourUpdate sender .left),
        (some sender, .neighbourUpdate leftNeighbour .left),
        (some sender, .neighbourUpdate rightNeighbour .right),
        (some sender, .registerResponse clientId)] ++
         if b.hasToken then [(some sender, .token)] else [])
    | _, _ => (b, [])

def deregister (b : Broker) (id : String) : Broker × List Send :=
  let index := b.clientCollection.plain.indexOfId id
  match b.clientCollection.plain.getLeftNeighborOf index,
    b.clientCollection.plain.getLeftNeighborOf index with
  | some leftNeighbour, some rightNeighbour =>
    ({ b with
       clientCollection := b.clientCollection.remove index
       nameService := Function.update b.nameService id none },
     [(some leftNeighbour, .neighbourUpdate rightNeighbour .right),
      (some rightNeighbour, .neighbourUpdate leftNeighbour .left)])
  | _, _ => (b, [])

def deregisterAll (b : Broker) : List String → Broker × List Send
  | [] => (b, [])
  | id :: ids =>
    let (b, sends) := b.deregister id
    let (b, rest) := deregisterAll b ids
    (b, sends ++ rest)

def cleanDeadClients (b : Broker) (actualTime : Int) : Broker × List Send :=
  b.deregisterAll (b.clientCollection.cleanDeadClients LEASE_DURATION actualTime)

def addresses (b : Broker) : List InetSocketAddress :=
  b.clientCollection.clients.map Stamped.client

def handle (b : Broker) : Event → Broker × List Send
  | .register sender now => b.register sender now
  | .clean now => b.cleanDeadClients now

def after (es : List Event) : Broker :=
  es.foldl (fun b e => (b.handle e).1) start

end Broker

def lastRegistration (es : List Event) (a : InetSocketAddress) : Option Int :=
  es.foldl (fun last e =>
    match e with
    | .register sender now => if sender = a then some now else last
    | .clean _ => last) none

def Expired (es : List Event) (a : InetSocketAddress) (now : Int) : Prop :=
  ∃ t, lastRegistration es a = some t ∧ LEASE_DURATION < now - t

-- A clean-up removes the expired clients and no others.
def SweepsExpired (es : List Event) : Event → Prop
  | .register _ _ => True
  | .clean now => ∀ a ∈ (Broker.after es).addresses,
      a ∉ (Broker.after (es ++ [.clean now])).addresses ↔ Expired es a now

def AllRenewed (es : List Event) : Event → Prop
  | .register _ _ => True
  | .clean now => ∀ a, ¬Expired es a now

section Plain

variable {T : Type}

theorem Collection.members_plain (c : Collection T) :
    c.plain.members = c.clients.map Stamped.client := by
  rw [plain, ClientCollection.members, List.map_map]
  rfl

theorem Collection.plain_add (c : Collection T) (id : String) (timestamp : Int) (client : T) :
    (c.add id timestamp client).plain = c.plain.add id client := by
  simp [add, plain, ClientCollection.add]

theorem Collection.plain_remove (c : Collection T) (index : ℤ) :
    (c.remove index).plain = c.plain.remove index := by
  simp [remove, plain, ClientCollection.remove, List.eraseIdx_map]

theorem map_modify_timestamp {B : Type} (f : Stamped T → B) (xs : List (Stamped T)) (i : ℕ)
    (timestamp : Int) (hf : ∀ x : Stamped T, f { x with timestamp := timestamp } = f x) :
    (xs.modify i (fun x => { x with timestamp := timestamp })).map f = xs.map f := by
  apply List.ext_getElem (by simp)
  intro j hj hj'
  rw [List.getElem_map, List.getElem_map, List.getElem_modify]
  split
  · exact hf _
  · rfl

theorem Collection.plain_updateTimestamp [DecidableEq T] (c : Collection T) (client : T)
    (timestamp : Int) : (c.updateTimestamp client timestamp).plain = c.plain := by
  unfold updateTimestamp plain
  split
  · rw [map_modify_timestamp]
    exact fun _ => rfl
  · rfl

-- Without its timestamps the broker is the one without leases.
theorem Broker.register_plain (b : Broker) (sender : InetSocketAddress) (timestamp : Int) :
    (b.register sender timestamp).1.plain = (b.plain.register sender).1 ∧
      (b.register sender timestamp).2 = (b.plain.register sender).2 := by
  obtain ⟨hleft, hright⟩ := Aqualife.Broker.newcomer_neighbours (c := b.clientCollection.plain)
    s!"tank{b.clientCollection.plain.size}" sender
  unfold register Aqualife.Broker.register
  rcases eq_or_ne (b.clientCollection.plain.indexOf sender) (-1) with hnew | hknown
  · simp only [plain, Collection.plain_add, hnew, hleft, hright, ne_eq, not_true_eq_false, if_false]
    exact ⟨trivial, rfl⟩
  · simp [plain, hknown, Collection.plain_updateTimestamp]

theorem Broker.deregister_plain (b : Broker) (id : String) :
    (b.deregister id).1.plain = (b.plain.deregister id).1 ∧
      (b.deregister id).2 = (b.plain.deregister id).2 := by
  unfold deregister Aqualife.Broker.deregister
  simp only [plain]
  cases b.clientCollection.plain.getLeftNeighborOf (b.clientCollection.plain.indexOfId id) with
  | none => exact ⟨rfl, rfl⟩
  | some leftNeighbour => simp [Collection.plain_remove]

end Plain

section Registration

variable {b : Broker} {sender : InetSocketAddress} {now : Int}

theorem register_known (h : sender ∈ b.addresses) :
    (b.register sender now).1.clientCollection =
      b.clientCollection.updateTimestamp sender now := by
  obtain ⟨i, hi, hindex, -⟩ := ClientCollection.indexOf_of_mem (c := b.clientCollection.plain)
    (a := sender) (by rwa [Collection.members_plain])
  have hne : b.clientCollection.plain.indexOf sender ≠ -1 := by omega
  unfold Broker.register
  simp only [if_pos hne]

theorem register_new (h : sender ∉ b.addresses) :
    ∃ id, (b.register sender now).1.clientCollection = b.clientCollection.add id now sender := by
  have hindex := ClientCollection.indexOf_of_notMem (c := b.clientCollection.plain)
    (a := sender) (by rwa [Collection.members_plain])
  obtain ⟨hleft, hright⟩ := Aqualife.Broker.newcomer_neighbours (c := b.clientCollection.plain)
    s!"tank{b.clientCollection.plain.size}" sender
  refine ⟨s!"tank{b.clientCollection.plain.size}", ?_⟩
  unfold Broker.register
  simp only [Collection.plain_add, hindex, hleft, hright, ne_eq, not_true_eq_false, if_false]

-- Only the client itself gets a new timestamp.
theorem updateTimestamp_mem {c : Collection InetSocketAddress}
    (hnodup : (c.clients.map Stamped.client).Nodup) {x : Stamped InetSocketAddress}
    (hx : x ∈ (c.updateTimestamp sender now).clients) (h : sender ∈ c.clients.map Stamped.client) :
    x.client = sender ∧ x.timestamp = now ∨ x ∈ c.clients ∧ x.client ≠ sender := by
  unfold Collection.updateTimestamp at hx
  cases hfind : c.clients.findIdx? (fun x => x.client = sender) with
  | none =>
    obtain ⟨y, hy, hclient⟩ := List.mem_map.mp h
    have hnot := List.findIdx?_eq_none_iff.mp hfind y hy
    simp [hclient] at hnot
  | some i =>
    obtain ⟨hi, hclient, -⟩ := List.findIdx?_eq_some_iff_getElem.mp hfind
    rw [hfind] at hx
    obtain ⟨j, hj, rfl⟩ := List.getElem_of_mem hx
    have hj' : j < c.clients.length := by simpa using hj
    rw [List.getElem_modify]
    split
    · rename_i heq
      subst heq
      exact Or.inl ⟨of_decide_eq_true hclient, rfl⟩
    · rename_i hne
      refine Or.inr ⟨List.getElem_mem hj', ?_⟩
      intro hsame
      have hi' : i < (c.clients.map Stamped.client).length := by simpa using hi
      have hj'' : j < (c.clients.map Stamped.client).length := by simpa using hj'
      have heq : (c.clients.map Stamped.client)[i] = (c.clients.map Stamped.client)[j] := by
        rw [List.getElem_map, List.getElem_map, hsame, of_decide_eq_true hclient]
      exact hne (hnodup.getElem_inj_iff.mp heq)

end Registration

section History

variable {pre : List Event} {e : Event} {now : Int}

-- What the timestamps say, and that nobody has been removed.
structure Inv (pre : List Event) : Prop where
  nodup : (Broker.after pre).addresses.Nodup
  stamped : ∀ x ∈ (Broker.after pre).clientCollection.clients,
    lastRegistration pre x.client = some x.timestamp
  kept : ∀ a t, lastRegistration pre a = some t → a ∈ (Broker.after pre).addresses
  past : ∀ a t, lastRegistration pre a = some t → ∃ e ∈ pre, e.time = t

theorem after_snoc (pre : List Event) (e : Event) :
    Broker.after (pre ++ [e]) = ((Broker.after pre).handle e).1 := by
  rw [Broker.after, List.foldl_append]
  rfl

theorem lastRegistration_register (pre : List Event) (sender a : InetSocketAddress) (now : Int) :
    lastRegistration (pre ++ [.register sender now]) a =
      if sender = a then some now else lastRegistration pre a := by
  rw [lastRegistration, List.foldl_append]
  rfl

theorem lastRegistration_clean (pre : List Event) (a : InetSocketAddress) (now : Int) :
    lastRegistration (pre ++ [.clean now]) a = lastRegistration pre a := by
  rw [lastRegistration, List.foldl_append]
  rfl

-- The difference of a past timestamp and the clock is never above the duration of a lease.
theorem Inv.clean (h : Inv pre) (hclock : ∀ e ∈ pre, e.time ≤ now) :
    Broker.after (pre ++ [.clean now]) = Broker.after pre := by
  have hnone : (Broker.after pre).clientCollection.cleanDeadClients LEASE_DURATION now = [] := by
    rw [Collection.cleanDeadClients, List.map_eq_nil_iff, List.filter_eq_nil_iff]
    intro x hx
    obtain ⟨e, he, htime⟩ := h.past _ _ (h.stamped x hx)
    have hle := hclock e he
    have hsmall : ¬x.timestamp - now > LEASE_DURATION := by
      unfold LEASE_DURATION
      omega
    simpa using hsmall
  rw [after_snoc, Broker.handle, Broker.cleanDeadClients, hnone, Broker.deregisterAll]

theorem Inv.past_snoc (h : Inv pre) (e : Event) {a : InetSocketAddress} {t : Int}
    (ht : lastRegistration (pre ++ [e]) a = some t) : ∃ x ∈ pre ++ [e], x.time = t := by
  have hbefore : lastRegistration pre a = some t → ∃ x ∈ pre ++ [e], x.time = t := by
    intro ht
    obtain ⟨x, hx, htime⟩ := h.past a t ht
    exact ⟨x, List.mem_append_left _ hx, htime⟩
  cases e with
  | clean now =>
    rw [lastRegistration_clean] at ht
    exact hbefore ht
  | register sender now =>
    rw [lastRegistration_register] at ht
    split at ht
    · obtain rfl := Option.some.inj ht
      exact ⟨.register sender now, by simp, rfl⟩
    · exact hbefore ht

theorem Inv.snoc_clean (h : Inv pre) (hclock : ∀ e ∈ pre, e.time ≤ now) :
    Inv (pre ++ [.clean now]) where
  nodup := by
    rw [h.clean hclock]
    exact h.nodup
  stamped := by
    intro x hx
    rw [h.clean hclock] at hx
    rw [lastRegistration_clean]
    exact h.stamped x hx
  kept := by
    intro a t ht
    rw [lastRegistration_clean] at ht
    rw [h.clean hclock]
    exact h.kept a t ht
  past := fun _ _ => h.past_snoc _

theorem Inv.snoc_known (h : Inv pre) {sender : InetSocketAddress}
    (hknown : sender ∈ (Broker.after pre).addresses) : Inv (pre ++ [.register sender now]) := by
  have hafter : (Broker.after (pre ++ [.register sender now])).clientCollection =
      (Broker.after pre).clientCollection.updateTimestamp sender now := by
    rw [after_snoc]
    exact register_known hknown
  have haddresses : (Broker.after (pre ++ [.register sender now])).addresses =
      (Broker.after pre).addresses := by
    rw [Broker.addresses, hafter, ← Collection.members_plain, Collection.plain_updateTimestamp,
      Collection.members_plain]
    rfl
  refine ⟨haddresses ▸ h.nodup, ?_, ?_, fun _ _ => h.past_snoc _⟩
  · intro x hx
    rw [hafter] at hx
    rw [lastRegistration_register]
    rcases updateTimestamp_mem h.nodup hx hknown with ⟨hclient, htime⟩ | ⟨hold, hne⟩
    · rw [if_pos hclient.symm, htime]
    · rw [if_neg hne.symm, h.stamped x hold]
  · intro a t ht
    rw [lastRegistration_register] at ht
    rw [haddresses]
    split at ht
    · rename_i heq
      exact heq ▸ hknown
    · exact h.kept a t ht

theorem Inv.snoc_new (h : Inv pre) {sender : InetSocketAddress}
    (hnew : sender ∉ (Broker.after pre).addresses) : Inv (pre ++ [.register sender now]) := by
  obtain ⟨id, hadd⟩ : ∃ id, ((Broker.after pre).register sender now).1.clientCollection =
      (Broker.after pre).clientCollection.add id now sender := register_new hnew
  have hafter : (Broker.after (pre ++ [.register sender now])).clientCollection.clients =
      (Broker.after pre).clientCollection.clients ++ [⟨id, now, sender⟩] := by
    rw [after_snoc, Broker.handle, hadd]
    rfl
  have haddresses : (Broker.after (pre ++ [.register sender now])).addresses =
      (Broker.after pre).addresses ++ [sender] := by
    rw [Broker.addresses, hafter, List.map_append]
    rfl
  refine ⟨?_, ?_, ?_, fun _ _ => h.past_snoc _⟩
  · rw [haddresses, List.nodup_append]
    refine ⟨h.nodup, List.nodup_singleton sender, ?_⟩
    intro a ha b hb hsame
    rw [hsame, List.mem_singleton.mp hb] at ha
    exact hnew ha
  · intro x hx
    rw [hafter] at hx
    rw [lastRegistration_register]
    rcases List.mem_append.mp hx with hold | hx
    · have hne : sender ≠ x.client := by
        rintro rfl
        exact hnew (List.mem_map_of_mem hold)
      rw [if_neg hne, h.stamped x hold]
    · rw [List.mem_singleton.mp hx, if_pos rfl]
  · intro a t ht
    rw [lastRegistration_register] at ht
    rw [haddresses, List.mem_append]
    split at ht
    · rename_i heq
      exact Or.inr (List.mem_singleton.mpr heq.symm)
    · exact Or.inl (h.kept a t ht)

theorem Inv.snoc (h : Inv pre) (hclock : ∀ x ∈ pre, x.time ≤ e.time) : Inv (pre ++ [e]) := by
  cases e with
  | clean now => exact h.snoc_clean hclock
  | register sender now =>
    rcases Decidable.em (sender ∈ (Broker.after pre).addresses) with hknown | hnew
    · exact h.snoc_known hknown
    · exact h.snoc_new hnew

theorem Inv.nil : Inv [] where
  nodup := List.nodup_nil
  stamped := by simp [Broker.after, Broker.start]
  kept := by simp [lastRegistration]
  past := by simp [lastRegistration]

theorem inv_of_clock {es : List Event} (hclock : es.Pairwise (fun e f => e.time ≤ f.time)) :
    Inv es := by
  induction es using List.reverseRecOn with
  | nil => exact Inv.nil
  | append_singleton pre e ih =>
    obtain ⟨hpre, -, hlast⟩ := List.pairwise_append.mp hclock
    exact (ih hpre).snoc (fun x hx => hlast x hx e (List.mem_singleton_self e))

-- Nobody goes, so a clean-up is right when there is nobody to remove.
theorem Inv.sweeps_iff (h : Inv pre) (hclock : ∀ x ∈ pre, x.time ≤ e.time) :
    SweepsExpired pre e ↔ AllRenewed pre e := by
  cases e with
  | register sender now => exact Iff.rfl
  | clean now =>
    have hafter : Broker.after (pre ++ [.clean now]) = Broker.after pre := h.clean hclock
    simp only [SweepsExpired, AllRenewed, hafter]
    constructor
    · rintro hsweep a ⟨t, ht, hold⟩
      have ha := h.kept a t ht
      exact (hsweep a ha).mpr ⟨t, ht, hold⟩ ha
    · intro hrenewed a ha
      exact ⟨fun hnot => absurd ha hnot, fun hexpired => absurd hexpired (hrenewed a)⟩

end History

theorem sweeps_expired_iff (es : List Event)
    (hclock : es.Pairwise (fun e f => e.time ≤ f.time)) :
    Along SweepsExpired es ↔ Along AllRenewed es := by
  have hstep : ∀ i, ∀ h : i < es.length,
      SweepsExpired (es.take i) es[i] ↔ AllRenewed (es.take i) es[i] := by
    intro i h
    refine (inv_of_clock (hclock.sublist (List.take_sublist i es))).sweeps_iff ?_
    intro x hx
    obtain ⟨j, hj, rfl⟩ := List.getElem_of_mem hx
    have hji : j < i ∧ j < es.length := by simpa using hj
    rw [List.getElem_take]
    exact List.pairwise_iff_getElem.mp hclock j i hji.2 h hji.1
  exact forall_congr' (fun i => forall_congr' (hstep i))

theorem sweeps_expired_renewed :
    Along SweepsExpired [.register ⟨"10.0.0.1", 4711⟩ 0, .register ⟨"10.0.0.1", 4711⟩ 4000,
      .clean 6000] := by
  refine (sweeps_expired_iff _ (by simp [Event.time])).mpr ?_
  intro i h
  rcases i with _ | _ | _ | i
  · trivial
  · trivial
  · rintro a ⟨t, ht, hold⟩
    simp only [lastRegistration, List.take, List.foldl] at ht
    split at ht <;> simp [LEASE_DURATION] at ht hold
    omega
  · simp only [List.length_cons, List.length_nil] at h
    omega

theorem silent_client_stays :
    ¬Along SweepsExpired [.register ⟨"10.0.0.1", 4711⟩ 0, .clean 6000] := by
  intro h
  have hsweep := h 1 (by decide) ⟨"10.0.0.1", 4711⟩ (by decide)
  exact hsweep.mpr ⟨0, by decide, by decide⟩ (by decide)

end Lease
