import HTWGArchive.Aqualife.Broker
import HTWGArchive.Aqualife.TankModel
import HTWGArchive.Library.LabelledRun
import HTWGArchive.Library.Network

namespace Aqualife

abbrev Packet :=
  Network.Packet InetSocketAddress Payload

structure System where
  broker : Broker
  hosts : List InetSocketAddress
  tanks : InetSocketAddress → TankModel
  network : List Packet
  fresh : ℕ

inductive Event where
  | register (a : InetSocketAddress)
  | finish (a : InetSocketAddress)
  | newFish (a : InetSocketAddress) (x y : ℤ) (direction : Direction)
  | update (a : InetSocketAddress) (discreteSin : ℕ → ℤ)
  | initiateSnapshot (a : InetSocketAddress)
  | locateFishGlobally (a : InetSocketAddress) (fishId : FishId)
  | tokenTimer (a : InetSocketAddress)
  | deliver (src dst : InetSocketAddress) (objects : ℕ × ℕ)

def packetsFrom (src : InetSocketAddress) (sends : List Send) : List Packet :=
  sends.filterMap (fun s => s.1.map (fun dst => ⟨src, dst, s.2⟩))

def Payload.objects : Payload → ℕ
  | .handoffRequest _ => 1
  | .collectToken globalState => globalState.length
  | _ => 0

namespace System

def atTank (s : System) (a : InetSocketAddress) (r : TankModel × List Send) (created : ℕ) :
    System × List Packet :=
  ({ s with
     tanks := Function.update s.tanks a r.1
     network := s.network ++ packetsFrom a r.2
     fresh := s.fresh + created }, packetsFrom a r.2)

def atBroker (s : System) (r : Broker × List Send) : System × List Packet :=
  ({ s with broker := r.1, network := s.network ++ packetsFrom brokerAddress r.2 },
   packetsFrom brokerAddress r.2)

def deliver (s : System) (src dst : InetSocketAddress) (objects : ℕ × ℕ) :
    Option (System × List Packet) :=
  match Network.deliver src dst s.network with
  | none => none
  | some (payload, network) =>
    if dst = brokerAddress then
      some ({ s with network := network }.atBroker (s.broker.receive src payload))
    else if dst ∈ s.hosts then
      some ({ s with network := network }.atTank dst
        ((s.tanks dst).receive s.fresh src objects payload) payload.objects)
    else none

def act (s : System) (a : InetSocketAddress) (r : TankModel × List Send) (created : ℕ) :
    Option (System × List Packet) :=
  if a ∈ s.hosts then some (s.atTank a r created) else none

def step (s : System) : Event → Option (System × List Packet)
  | .register a => s.act a (s.tanks a, [(some brokerAddress, .registerRequest)]) 0
  | .finish a => s.act a (s.tanks a, [(some brokerAddress, .deregisterRequest (s.tanks a).id)]) 0
  | .newFish a x y direction => s.act a ((s.tanks a).newFish s.fresh x y direction, []) 1
  | .update a discreteSin => s.act a ((s.tanks a).update discreteSin) 0
  | .initiateSnapshot a => s.act a ((s.tanks a).initiateSnapshot true none) 0
  | .locateFishGlobally a fishId => s.act a ((s.tanks a).locateFishGlobally fishId) 0
  | .tokenTimer a =>
    if 0 < (s.tanks a).tokenTimer then s.act a (s.tanks a).giveBackToken 0 else none
  | .deliver src dst objects => s.deliver src dst objects

def start (hosts : List InetSocketAddress) : System where
  broker := Broker.start
  hosts := hosts
  tanks := fun _ => TankModel.start
  network := []
  fresh := 0

end System

structure Occurrence where
  before : System
  event : Event
  sent : List Packet
  after : System

def Step (s : System) (o : Occurrence) (s' : System) : Prop :=
  o.before = s ∧ o.after = s' ∧ s.step o.event = some (s', o.sent)

abbrev Run : System → List Occurrence → System → Prop :=
  LabelledRun.Run Step

-- The occurrences of the events, one after the other.
def occurrences : System → List Event → Option (List Occurrence × System)
  | s, [] => some ([], s)
  | s, e :: es =>
    match s.step e with
    | none => none
    | some (s', sent) => (occurrences s' es).map (fun r => (⟨s, e, sent, s'⟩ :: r.1, r.2))

theorem occurrences_run {s s' : System} {es : List Event} {os : List Occurrence}
    (h : occurrences s es = some (os, s')) : Run s os s' := by
  induction es generalizing s os with
  | nil =>
    rw [occurrences, Option.some_inj, Prod.mk.injEq] at h
    obtain ⟨rfl, rfl⟩ := h
    exact LabelledRun.Run.nil
  | cons e es ih =>
    rw [occurrences] at h
    cases hs : s.step e with
    | none => simp [hs] at h
    | some r =>
      obtain ⟨s₁, sent⟩ := r
      simp only [hs, Option.map_eq_some_iff, Prod.mk.injEq, Prod.exists] at h
      obtain ⟨rest, last, hrest, rfl, rfl⟩ := h
      exact LabelledRun.Run.cons ⟨rfl, rfl, hs⟩ (ih hrest)

-- What a tank does on its own account.
inductive Acts (s : System) : Event → InetSocketAddress → TankModel × List Send → ℕ → Prop where
  | register (a : InetSocketAddress) :
      Acts s (.register a) a (s.tanks a, [(some brokerAddress, .registerRequest)]) 0
  | finish (a : InetSocketAddress) :
      Acts s (.finish a) a
        (s.tanks a, [(some brokerAddress, .deregisterRequest (s.tanks a).id)]) 0
  | newFish (a : InetSocketAddress) (x y : ℤ) (direction : Direction) :
      Acts s (.newFish a x y direction) a ((s.tanks a).newFish s.fresh x y direction, []) 1
  | update (a : InetSocketAddress) (discreteSin : ℕ → ℤ) :
      Acts s (.update a discreteSin) a ((s.tanks a).update discreteSin) 0
  | initiateSnapshot (a : InetSocketAddress) :
      Acts s (.initiateSnapshot a) a ((s.tanks a).initiateSnapshot true none) 0
  | locateFishGlobally (a : InetSocketAddress) (fishId : FishId) :
      Acts s (.locateFishGlobally a fishId) a ((s.tanks a).locateFishGlobally fishId) 0
  | tokenTimer (a : InetSocketAddress) : 0 < (s.tanks a).tokenTimer →
      Acts s (.tokenTimer a) a (s.tanks a).giveBackToken 0

inductive Stepped (s : System) (e : Event) (s' : System) (sent : List Packet) : Prop where
  | tankActs (a : InetSocketAddress) (r : TankModel × List Send) (created : ℕ) : a ∈ s.hosts →
      Acts s e a r created → (s', sent) = s.atTank a r created → Stepped s e s' sent
  | brokerReceives (src : InetSocketAddress) (objects : ℕ × ℕ) (payload : Payload)
      (network : List Packet) : e = .deliver src brokerAddress objects →
      Network.deliver src brokerAddress s.network = some (payload, network) →
      (s', sent) = { s with network := network }.atBroker (s.broker.receive src payload) →
      Stepped s e s' sent
  | tankReceives (src dst : InetSocketAddress) (objects : ℕ × ℕ) (payload : Payload)
      (network : List Packet) : e = .deliver src dst objects → dst ≠ brokerAddress →
      dst ∈ s.hosts → Network.deliver src dst s.network = some (payload, network) →
      (s', sent) = { s with network := network }.atTank dst
        ((s.tanks dst).receive s.fresh src objects payload) payload.objects →
      Stepped s e s' sent

theorem act_cases {s s' : System} {a : InetSocketAddress} {r : TankModel × List Send} {created : ℕ}
    {sent : List Packet} (h : s.act a r created = some (s', sent)) :
    a ∈ s.hosts ∧ (s', sent) = s.atTank a r created := by
  rw [System.act] at h
  split at h
  · exact ⟨‹_›, (Option.some_inj.mp h).symm⟩
  · cases h

theorem step_cases {s s' : System} {e : Event} {sent : List Packet}
    (h : s.step e = some (s', sent)) : Stepped s e s' sent := by
  cases e with
  | register a =>
    obtain ⟨ha, heq⟩ := act_cases h
    exact Stepped.tankActs a _ 0 ha (Acts.register a) heq
  | finish a =>
    obtain ⟨ha, heq⟩ := act_cases h
    exact Stepped.tankActs a _ 0 ha (Acts.finish a) heq
  | newFish a x y direction =>
    obtain ⟨ha, heq⟩ := act_cases h
    exact Stepped.tankActs a _ 1 ha (Acts.newFish a x y direction) heq
  | update a discreteSin =>
    obtain ⟨ha, heq⟩ := act_cases h
    exact Stepped.tankActs a _ 0 ha (Acts.update a discreteSin) heq
  | initiateSnapshot a =>
    obtain ⟨ha, heq⟩ := act_cases h
    exact Stepped.tankActs a _ 0 ha (Acts.initiateSnapshot a) heq
  | locateFishGlobally a fishId =>
    obtain ⟨ha, heq⟩ := act_cases h
    exact Stepped.tankActs a _ 0 ha (Acts.locateFishGlobally a fishId) heq
  | tokenTimer a =>
    rw [System.step] at h
    split at h
    · obtain ⟨ha, heq⟩ := act_cases h
      exact Stepped.tankActs a _ 0 ha (Acts.tokenTimer a ‹_›) heq
    · cases h
  | deliver src dst objects =>
    rw [System.step, System.deliver] at h
    cases hdel : Network.deliver src dst s.network with
    | none =>
      rw [hdel] at h
      cases h
    | some r =>
      obtain ⟨payload, network⟩ := r
      simp only [hdel] at h
      split at h
      · rename_i hdst
        subst hdst
        exact Stepped.brokerReceives src objects payload network rfl hdel (Option.some_inj.mp h).symm
      · rename_i hdst
        split at h
        · exact Stepped.tankReceives src dst objects payload network rfl hdst ‹_› hdel
            (Option.some_inj.mp h).symm
        · cases h

theorem mem_packetsFrom {src : InetSocketAddress} {sends : List Send} {p : Packet} :
    p ∈ packetsFrom src sends ↔ p.src = src ∧ (some p.dst, p.payload) ∈ sends := by
  obtain ⟨psrc, pdst, payload⟩ := p
  simp only [packetsFrom, List.mem_filterMap, Option.map_eq_some_iff, Network.Packet.mk.injEq,
    Prod.exists]
  constructor
  · rintro ⟨dst, m, hmem, dst', rfl, rfl, rfl, rfl⟩
    exact ⟨rfl, hmem⟩
  · rintro ⟨rfl, hmem⟩
    exact ⟨some pdst, payload, hmem, pdst, rfl, rfl, rfl, rfl⟩

-- What the broker receives in a step.
def Occurrence.handled (o : Occurrence) : Option (InetSocketAddress × Payload) :=
  match o.event with
  | .deliver src dst _ =>
    if dst = brokerAddress then
      (Network.deliver src dst o.before.network).map (fun r => (src, r.1))
    else none
  | _ => none

theorem handled_of_receives {o : Occurrence} {src : InetSocketAddress} {objects : ℕ × ℕ}
    {payload : Payload} {network : List Packet} (he : o.event = .deliver src brokerAddress objects)
    (hdel : Network.deliver src brokerAddress o.before.network = some (payload, network)) :
    o.handled = some (src, payload) := by
  rw [Occurrence.handled, he]
  simp only [if_true, hdel, Option.map_some]

def Occurrence.newRegistration (o : Occurrence) : Bool :=
  match o.handled with
  | some (sender, .registerRequest) => sender ∉ o.before.broker.addresses
  | _ => false

section Acts

variable {s : System} {e : Event} {a : InetSocketAddress} {r : TankModel × List Send} {created : ℕ}

theorem Acts.neighbours (h : Acts s e a r created) :
    r.1.leftNeighbour = (s.tanks a).leftNeighbour ∧
      r.1.rightNeighbour = (s.tanks a).rightNeighbour := by
  cases h with
  | register => exact ⟨rfl, rfl⟩
  | finish => exact ⟨rfl, rfl⟩
  | newFish _ x y direction =>
    obtain ⟨_, _, _, hframe⟩ := (s.tanks a).newFish_frame s.fresh x y direction
    rw [hframe]
    exact ⟨rfl, rfl⟩
  | update _ discreteSin =>
    obtain ⟨_, _, hframe⟩ := (s.tanks a).update_frame discreteSin
    rw [hframe]
    exact ⟨rfl, rfl⟩
  | initiateSnapshot => exact ⟨rfl, rfl⟩
  | locateFishGlobally _ fishId => exact ⟨rfl, rfl⟩
  | tokenTimer _ _ => exact ⟨rfl, rfl⟩

theorem Acts.sends (h : Acts s e a r created) : ∀ m ∈ r.2, m.2.fromBroker = false := by
  intro m hm
  cases h with
  | register =>
    rw [List.mem_singleton.mp hm]
    rfl
  | finish =>
    rw [List.mem_singleton.mp hm]
    rfl
  | newFish _ x y direction => exact absurd hm List.not_mem_nil
  | update _ discreteSin =>
    rcases (s.tanks a).update_sends hm with ⟨o, _, hsend⟩ | ⟨_, rfl⟩
    · rw [((s.tanks a).updateFish_sends hsend).1]
      rfl
    · rfl
  | initiateSnapshot =>
    rw [(s.tanks a).initiateSnapshot_sends] at hm
    rcases List.mem_cons.mp hm with rfl | hm
    · rfl
    · rw [List.mem_singleton.mp hm]
      rfl
  | locateFishGlobally _ fishId =>
    rw [(s.tanks a).locateFishGlobally_sends hm]
    rfl
  | tokenTimer _ _ =>
    rw [List.mem_singleton.mp hm]
    rfl

end Acts

section Receives

variable (t : TankModel) (fresh : ℕ) (sender : InetSocketAddress) (objects : ℕ × ℕ)

theorem receive_neighbours {payload : Payload}
    (hother : ∀ neighbour direction, payload ≠ .neighbourUpdate neighbour direction) :
    (t.receive fresh sender objects payload).1.leftNeighbour = t.leftNeighbour ∧
      (t.receive fresh sender objects payload).1.rightNeighbour = t.rightNeighbour := by
  cases payload with
  | neighbourUpdate neighbour direction => exact absurd rfl (hother neighbour direction)
  | handoffRequest fish =>
    obtain ⟨_, _, _, hframe⟩ := t.receiveFish_frame fresh fish
    rw [TankModel.receive, hframe]
    exact ⟨rfl, rfl⟩
  | snapshotMarker =>
    obtain ⟨_, _, _, _, _, _, hframe⟩ := t.receiveMarker_frame ⟨objects.1, sender⟩
    rw [TankModel.receive, hframe]
    exact ⟨rfl, rfl⟩
  | collectToken globalState =>
    obtain ⟨_, _, _, _, hframe⟩ := t.receiveGlobalState_frame fresh globalState
    rw [TankModel.receive, hframe]
    exact ⟨rfl, rfl⟩
  | registerRequest => exact ⟨rfl, rfl⟩
  | registerResponse _ => exact ⟨rfl, rfl⟩
  | deregisterRequest _ => exact ⟨rfl, rfl⟩
  | token => exact ⟨rfl, rfl⟩
  | locationRequest _ => exact ⟨rfl, rfl⟩
  | locationUpdate _ => exact ⟨rfl, rfl⟩
  | nameResolutionRequest _ _ => exact ⟨rfl, rfl⟩
  | nameResolutionResponse _ _ => exact ⟨rfl, rfl⟩

theorem receive_sends {payload : Payload} {m : Send}
    (hm : m ∈ (t.receive fresh sender objects payload).2) : m.2.fromBroker = false := by
  cases payload with
  | handoffRequest fish =>
    rw [t.receiveFish_sends hm]
    rfl
  | snapshotMarker =>
    rcases t.receiveMarker_sends hm with ⟨hsend, _⟩ | ⟨_, rfl⟩
    · rw [hsend]
      rfl
    · rfl
  | nameResolutionResponse response requestId =>
    rw [List.mem_singleton.mp hm]
    rfl
  | neighbourUpdate _ _ => exact absurd hm List.not_mem_nil
  | collectToken _ => exact absurd hm List.not_mem_nil
  | registerRequest => exact absurd hm List.not_mem_nil
  | registerResponse _ => exact absurd hm List.not_mem_nil
  | deregisterRequest _ => exact absurd hm List.not_mem_nil
  | token => exact absurd hm List.not_mem_nil
  | locationRequest _ => exact absurd hm List.not_mem_nil
  | locationUpdate _ => exact absurd hm List.not_mem_nil
  | nameResolutionRequest _ _ => exact absurd hm List.not_mem_nil

end Receives

-- Answers come from the broker, everything else but the first tokens from tanks.
def WellSent (s : System) (p : Packet) : Prop :=
  p.src = brokerAddress ∧ (p.payload.fromBroker = true ∨ p.payload = .token) ∨
    p.src ∈ s.hosts ∧ p.payload.fromBroker = false

theorem Step.hosts_eq {s s' : System} {o : Occurrence} (h : Step s o s') : s'.hosts = s.hosts := by
  obtain ⟨_, _, hstep⟩ := h
  cases step_cases hstep with
  | tankActs a r created _ _ heq =>
    exact congrArg (fun x : System × List Packet => x.1.hosts) heq
  | brokerReceives src objects payload network _ _ heq =>
    exact congrArg (fun x : System × List Packet => x.1.hosts) heq
  | tankReceives src dst objects payload network _ _ _ _ heq =>
    exact congrArg (fun x : System × List Packet => x.1.hosts) heq

theorem Step.wellSent {s s' : System} {o : Occurrence} (h : Step s o s')
    (hsent : ∀ p ∈ s.network, WellSent s p) : ∀ p ∈ s'.network, WellSent s' p := by
  have hhosts := h.hosts_eq
  obtain ⟨_, _, hstep⟩ := h
  have hgoal : ∀ p ∈ s'.network, WellSent s p := by
    cases step_cases hstep with
    | tankActs a r created ha hacts heq =>
      obtain rfl : s' = (s.atTank a r created).1 := congrArg Prod.fst heq
      intro p hp
      rcases List.mem_append.mp hp with hp | hp
      · exact hsent p hp
      · obtain ⟨hsrc, hm⟩ := mem_packetsFrom.mp hp
        exact Or.inr ⟨hsrc ▸ ha, hacts.sends _ hm⟩
    | brokerReceives src objects payload network _ hdel heq =>
      obtain rfl : s' = ({ s with network := network }.atBroker (s.broker.receive src payload)).1 :=
        congrArg Prod.fst heq
      intro p hp
      rcases List.mem_append.mp hp with hp | hp
      · exact hsent p ((Network.deliver_sublist hdel).subset hp)
      · obtain ⟨hsrc, hm⟩ := mem_packetsFrom.mp hp
        exact Or.inl ⟨hsrc, Broker.receive_sends hm⟩
    | tankReceives src dst objects payload network _ _ hdst hdel heq =>
      obtain rfl := congrArg Prod.fst heq
      intro p hp
      rcases List.mem_append.mp hp with hp | hp
      · exact hsent p ((Network.deliver_sublist hdel).subset hp)
      · obtain ⟨hsrc, hm⟩ := mem_packetsFrom.mp hp
        exact Or.inr ⟨hsrc ▸ hdst, receive_sends _ _ _ _ hm⟩
  intro p hp
  rw [WellSent, hhosts]
  exact hgoal p hp

end Aqualife
