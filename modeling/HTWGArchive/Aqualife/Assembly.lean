import HTWGArchive.Aqualife.Neighbours

namespace Aqualife

-- What a tank sends to a neighbour.
def Payload.ring : Payload → Bool
  | .token => true
  | .handoffRequest _ => true
  | .snapshotMarker => true
  | .collectToken _ => true
  | _ => false

structure Orderly (s : System) (p : Packet) : Prop where
  update : ∀ neighbour direction, p.payload ≠ .neighbourUpdate neighbour direction
  leave : ∀ id, p.payload ≠ .deregisterRequest id
  answer : ∀ id, p.payload = .registerResponse id → (s.tanks p.dst).id = some id
  ring : p.payload.ring = true → p.dst ∈ s.hosts

-- Every tank is registered and has its place in the ring; nobody leaves.
structure Assembled (s : System) : Prop where
  distinct : s.hosts.Nodup
  broker : brokerAddress ∉ s.hosts
  registered : s.broker.addresses.Nodup
  members : ∀ a, a ∈ s.broker.addresses ↔ a ∈ s.hosts
  names : NamesAgree s.broker
  identified : ∀ c ∈ s.broker.clientCollection.clients, (s.tanks c.client).id = some c.id
  linked : RingLinked s
  sent : ∀ p ∈ s.network, WellSent s p
  orderly : ∀ p ∈ s.network, Orderly s p

def Stays (o : Occurrence) : Prop :=
  ∀ a, o.event ≠ .finish a

def Event.leaves : Event → Bool
  | .finish _ => true
  | _ => false

instance (o : Occurrence) : Decidable (Stays o) :=
  decidable_of_iff (o.event.leaves = false) <| by
    rw [Stays]
    cases o.event <;> simp [Event.leaves]

section Sends

variable {s : System} {e : Event} {a : InetSocketAddress} {r : TankModel × List Send} {created : ℕ}

theorem Acts.id (h : Acts s e a r created) : r.1.id = (s.tanks a).id := by
  cases h with
  | newFish _ x y direction =>
    obtain ⟨_, _, _, hframe⟩ := (s.tanks a).newFish_frame s.fresh x y direction
    rw [hframe]
  | update _ discreteSin =>
    obtain ⟨_, _, hframe⟩ := (s.tanks a).update_frame discreteSin
    rw [hframe]
    rfl
  | _ => rfl

theorem updateFish_receiver {t : TankModel} {discreteSin : ℤ} {fish : FishModel} {m : Send}
    (hm : m ∈ (t.updateFish discreteSin fish).2) : m.1 = t.left ∨ m.1 = t.right := by
  obtain ⟨_, _, _, _, hreceiver⟩ := t.updateFish_sends hm
  rw [hreceiver]
  split
  · exact Or.inr rfl
  · exact Or.inl rfl

theorem Acts.ring_sends (h : Acts s e a r created) {m : Send} (hm : m ∈ r.2)
    (hring : m.2.ring = true) : m.1 = (s.tanks a).left ∨ m.1 = (s.tanks a).right := by
  cases h with
  | register =>
    rw [List.mem_singleton.mp hm] at hring
    cases hring
  | finish =>
    rw [List.mem_singleton.mp hm] at hring
    cases hring
  | newFish => exact absurd hm List.not_mem_nil
  | update _ discreteSin =>
    rcases (s.tanks a).update_sends hm with ⟨o, _, hsend⟩ | ⟨_, rfl⟩
    · exact updateFish_receiver hsend
    · exact Or.inl rfl
  | initiateSnapshot =>
    rw [(s.tanks a).initiateSnapshot_sends] at hm
    rcases List.mem_cons.mp hm with rfl | hm
    · exact Or.inl rfl
    · rw [List.mem_singleton.mp hm]
      exact Or.inr rfl
  | locateFishGlobally _ fishId =>
    rw [(s.tanks a).locateFishGlobally_sends hm] at hring
    cases hring
  | tokenTimer _ _ =>
    rw [List.mem_singleton.mp hm]
    exact Or.inl rfl

theorem Acts.leaves (h : Acts s e a r created) (hstay : ∀ b, e ≠ .finish b) {m : Send}
    (hm : m ∈ r.2) (id : Option String) : m.2 ≠ .deregisterRequest id := by
  intro heq
  cases h with
  | register =>
    rw [List.mem_singleton.mp hm] at heq
    cases heq
  | finish => exact hstay a rfl
  | newFish => exact absurd hm List.not_mem_nil
  | update _ discreteSin =>
    rcases (s.tanks a).update_sends hm with ⟨o, _, hsend⟩ | ⟨_, rfl⟩
    · rw [((s.tanks a).updateFish_sends hsend).1] at heq
      cases heq
    · cases heq
  | initiateSnapshot =>
    rw [(s.tanks a).initiateSnapshot_sends] at hm
    rcases List.mem_cons.mp hm with rfl | hm
    · cases heq
    · rw [List.mem_singleton.mp hm] at heq
      cases heq
  | locateFishGlobally _ fishId =>
    rw [(s.tanks a).locateFishGlobally_sends hm] at heq
    cases heq
  | tokenTimer _ _ =>
    rw [List.mem_singleton.mp hm] at heq
    cases heq

variable (t : TankModel) (fresh : ℕ) (sender : InetSocketAddress) (objects : ℕ × ℕ)

theorem receive_id {payload : Payload} (hother : ∀ id, payload ≠ .registerResponse id) :
    (t.receive fresh sender objects payload).1.id = t.id := by
  cases payload with
  | registerResponse id => exact absurd rfl (hother id)
  | handoffRequest fish =>
    obtain ⟨_, _, _, hframe⟩ := t.receiveFish_frame fresh fish
    rw [TankModel.receive, hframe]
  | snapshotMarker =>
    obtain ⟨_, _, _, _, _, _, hframe⟩ := t.receiveMarker_frame ⟨objects.1, sender⟩
    rw [TankModel.receive, hframe]
  | collectToken globalState =>
    obtain ⟨_, _, _, _, hframe⟩ := t.receiveGlobalState_frame fresh globalState
    rw [TankModel.receive, hframe]
  | neighbourUpdate neighbour direction => cases direction <;> rfl
  | _ => rfl

theorem receive_ring_sends {payload : Payload} {m : Send}
    (hm : m ∈ (t.receive fresh sender objects payload).2) (hring : m.2.ring = true) :
    m.1 = t.left ∨ m.1 = t.right := by
  cases payload with
  | handoffRequest fish =>
    rw [t.receiveFish_sends hm] at hring
    cases hring
  | snapshotMarker =>
    rcases t.receiveMarker_sends hm with ⟨_, hreceiver⟩ | ⟨_, rfl⟩
    · exact hreceiver
    · exact Or.inl rfl
  | nameResolutionResponse response requestId =>
    rw [List.mem_singleton.mp hm] at hring
    cases hring
  | _ => exact absurd hm List.not_mem_nil

theorem receive_leaves {payload : Payload} {m : Send}
    (hm : m ∈ (t.receive fresh sender objects payload).2) (id : Option String) :
    m.2 ≠ .deregisterRequest id := by
  intro heq
  cases payload with
  | handoffRequest fish =>
    rw [t.receiveFish_sends hm] at heq
    cases heq
  | snapshotMarker =>
    rcases t.receiveMarker_sends hm with ⟨hsend, _⟩ | ⟨_, rfl⟩
    · rw [hsend] at heq
      cases heq
    · cases heq
  | nameResolutionResponse response requestId =>
    rw [List.mem_singleton.mp hm] at heq
    cases heq
  | _ => exact absurd hm List.not_mem_nil

end Sends

namespace Assembled

variable {s s' : System}

theorem left_eq (h : Assembled s) {a : InetSocketAddress} (ha : a ∈ s.hosts) :
    (s.tanks a).left = some (s.broker.addresses.prev a ((h.members a).mpr ha)) :=
  (h.linked.neighbours a _).1

theorem right_eq (h : Assembled s) {a : InetSocketAddress} (ha : a ∈ s.hosts) :
    (s.tanks a).right = some (s.broker.addresses.next a ((h.members a).mpr ha)) :=
  (h.linked.neighbours a _).2

theorem neighbour_mem (h : Assembled s) {a b : InetSocketAddress} (ha : a ∈ s.hosts)
    (hb : some b = (s.tanks a).left ∨ some b = (s.tanks a).right) : b ∈ s.hosts := by
  rw [h.left_eq ha, h.right_eq ha] at hb
  rcases hb with heq | heq
  · rw [Option.some_inj.mp heq, ← h.members]
    exact List.prev_mem _ _ _
  · rw [Option.some_inj.mp heq, ← h.members]
    exact List.next_mem _ _ _

-- The broker only answers.
theorem broker_receive (h : Assembled s) {src : InetSocketAddress} {payload : Payload}
    (hp : ⟨src, brokerAddress, payload⟩ ∈ s.network) :
    (s.broker.receive src payload).1 = s.broker ∧ ∀ m ∈ (s.broker.receive src payload).2,
      (∃ id, (s.tanks src).id = some id ∧ m = (some src, .registerResponse id)) ∨
        ∃ tankId requestId, payload = .nameResolutionRequest tankId requestId ∧
          m = (some src, .nameResolutionResponse (s.broker.nameService tankId) requestId) := by
  cases payload with
  | registerRequest =>
    have hsrc : src ∈ s.hosts := by
      rcases h.sent _ hp with ⟨_, hfrom | hfrom⟩ | ⟨hhost, _⟩
      · cases hfrom
      · cases hfrom
      · exact hhost
    obtain ⟨c, hc, rfl, heq⟩ := Broker.register_known ((h.members src).mpr hsrc)
    rw [Broker.receive, heq]
    refine ⟨rfl, fun m hm => Or.inl ⟨c.id, h.identified c hc, List.mem_singleton.mp hm⟩⟩
  | deregisterRequest id => exact absurd rfl ((h.orderly _ hp).leave id)
  | nameResolutionRequest tankId requestId =>
    exact ⟨rfl, fun m hm => Or.inr ⟨tankId, requestId, rfl, List.mem_singleton.mp hm⟩⟩
  | _ => exact ⟨rfl, fun m hm => absurd hm List.not_mem_nil⟩

structure Kept (s s' : System) : Prop where
  hosts : s'.hosts = s.hosts
  broker : s'.broker = s.broker
  id : ∀ a, (s'.tanks a).id = (s.tanks a).id
  leftNeighbour : ∀ a, (s'.tanks a).leftNeighbour = (s.tanks a).leftNeighbour
  rightNeighbour : ∀ a, (s'.tanks a).rightNeighbour = (s.tanks a).rightNeighbour

theorem Kept.update {s s' : System} (hhosts : s'.hosts = s.hosts) (hbroker : s'.broker = s.broker)
    {a : InetSocketAddress} {t : TankModel} (htanks : s'.tanks = Function.update s.tanks a t)
    (hid : t.id = (s.tanks a).id)
    (hneighbours : t.leftNeighbour = (s.tanks a).leftNeighbour ∧
      t.rightNeighbour = (s.tanks a).rightNeighbour) : Kept s s' := by
  have htank : ∀ b, s'.tanks b = if b = a then t else s.tanks b := by
    intro b
    rw [htanks, Function.update_apply]
  refine ⟨hhosts, hbroker, ?_, ?_, ?_⟩ <;> intro b <;> rw [htank] <;> split
  · rename_i heq
    rw [heq, hid]
  · rfl
  · rename_i heq
    rw [heq, hneighbours.1]
  · rfl
  · rename_i heq
    rw [heq, hneighbours.2]
  · rfl

theorem kept (h : Assembled s) {o : Occurrence} (hstep : Step s o s') : Kept s s' := by
  have hhosts := hstep.hosts_eq
  obtain ⟨rfl, _, hstep⟩ := hstep
  cases step_cases hstep with
  | tankActs a r created ha hacts heq =>
    obtain rfl := congrArg Prod.fst heq
    exact Kept.update hhosts rfl rfl hacts.id hacts.neighbours
  | brokerReceives src objects payload network he hdel heq =>
    obtain rfl := congrArg Prod.fst heq
    exact ⟨rfl, (h.broker_receive (Network.deliver_mem hdel)).1, fun _ => rfl, fun _ => rfl,
      fun _ => rfl⟩
  | tankReceives src dst objects payload network he hdst hhost hdel heq =>
    obtain rfl := congrArg Prod.fst heq
    have horderly := h.orderly _ (Network.deliver_mem hdel)
    refine Kept.update hhosts rfl rfl ?_ (receive_neighbours _ _ _ _ horderly.update)
    rcases Classical.em (∃ id, payload = .registerResponse id) with ⟨id, rfl⟩ | hother
    · exact (horderly.answer id rfl).symm
    · exact receive_id _ _ _ _ (fun id heq => hother ⟨id, heq⟩)

theorem Kept.left {s s' : System} (h : Kept s s') (a : InetSocketAddress) :
    (s'.tanks a).left = (s.tanks a).left := by
  rw [TankModel.left, TankModel.left, h.leftNeighbour]

theorem Kept.right {s s' : System} (h : Kept s s') (a : InetSocketAddress) :
    (s'.tanks a).right = (s.tanks a).right := by
  rw [TankModel.right, TankModel.right, h.rightNeighbour]

theorem Kept.linked {s s' : System} (h : Kept s s') (hlinked : RingLinked s) : RingLinked s' := by
  have hright : s'.rightOf = s.rightOf := by
    funext a
    cases a with
    | none => rfl
    | some a => exact h.right a
  refine ⟨?_, ?_, ?_⟩
  · simp only [h.broker, h.left, h.right]
    exact hlinked.neighbours
  · simp only [h.broker, h.left, h.right]
    exact hlinked.inverse
  · rw [hright, h.broker]
    exact hlinked.cycle

theorem Kept.orderly {s s' : System} (h : Kept s s') {p : Packet} (hp : Orderly s p) :
    Orderly s' p := by
  refine ⟨hp.update, hp.leave, ?_, ?_⟩
  · intro id hid
    rw [h.id]
    exact hp.answer id hid
  · rw [h.hosts]
    exact hp.ring

-- A tank's message is orderly when it stays and sends its ring messages to its neighbours.
theorem orderly_of_tank (h : Assembled s) {a dst : InetSocketAddress} {payload : Payload}
    (ha : a ∈ s.hosts) (hbroker : payload.fromBroker = false)
    (hleave : ∀ id, payload ≠ .deregisterRequest id)
    (hring : payload.ring = true → some dst = (s.tanks a).left ∨ some dst = (s.tanks a).right) :
    Orderly s ⟨a, dst, payload⟩ := by
  refine ⟨?_, hleave, ?_, fun hpayload => h.neighbour_mem ha (hring hpayload)⟩
  · rintro neighbour direction rfl
    cases hbroker
  · rintro id rfl
    cases hbroker

theorem next (h : Assembled s) {o : Occurrence} (hstep : Step s o s') (hstay : Stays o) :
    Assembled s' := by
  have hkept := h.kept hstep
  have hsent := hstep.wellSent h.sent
  have horderly : ∀ p ∈ s'.network, Orderly s p := by
    obtain ⟨rfl, _, hstep⟩ := hstep
    cases step_cases hstep with
    | tankActs a r created ha hacts heq =>
      obtain rfl := congrArg Prod.fst heq
      intro p hp
      rcases List.mem_append.mp hp with hp | hp
      · exact h.orderly p hp
      · obtain ⟨src, dst, payload⟩ := p
        obtain ⟨rfl, hm⟩ := mem_packetsFrom.mp hp
        exact h.orderly_of_tank ha (hacts.sends _ hm) (hacts.leaves hstay hm) (hacts.ring_sends hm)
    | brokerReceives src objects payload network he hdel heq =>
      obtain rfl := congrArg Prod.fst heq
      intro p hp
      rcases List.mem_append.mp hp with hp | hp
      · exact h.orderly p ((Network.deliver_sublist hdel).subset hp)
      · obtain ⟨src', dst, payload'⟩ := p
        obtain ⟨rfl, hm⟩ := mem_packetsFrom.mp hp
        rcases (h.broker_receive (Network.deliver_mem hdel)).2 _ hm with
          ⟨id, hid, hsend⟩ | ⟨tankId, requestId, _, hsend⟩
        · obtain ⟨hdst, rfl⟩ := Prod.mk.inj hsend
          obtain rfl := Option.some_inj.mp hdst
          refine ⟨by simp, by simp, ?_, fun hring => absurd hring Bool.false_ne_true⟩
          rintro id' heq
          cases heq
          exact hid
        · obtain ⟨_, rfl⟩ := Prod.mk.inj hsend
          exact ⟨by simp, by simp, by simp, fun hring => absurd hring Bool.false_ne_true⟩
    | tankReceives src dst objects payload network he hdst hhost hdel heq =>
      obtain rfl := congrArg Prod.fst heq
      intro p hp
      rcases List.mem_append.mp hp with hp | hp
      · exact h.orderly p ((Network.deliver_sublist hdel).subset hp)
      · obtain ⟨src', dst', payload'⟩ := p
        obtain ⟨rfl, hm⟩ := mem_packetsFrom.mp hp
        exact h.orderly_of_tank hhost (receive_sends _ _ _ _ hm) (receive_leaves _ _ _ _ hm)
          (receive_ring_sends _ _ _ _ hm)
  refine ⟨?_, ?_, ?_, ?_, ?_, ?_, hkept.linked h.linked, hsent, fun p hp => hkept.orderly (horderly p hp)⟩
  · rw [hkept.hosts]
    exact h.distinct
  · rw [hkept.hosts]
    exact h.broker
  · rw [hkept.broker]
    exact h.registered
  · rw [hkept.broker, hkept.hosts]
    exact h.members
  · rw [hkept.broker]
    exact h.names
  · intro c hc
    rw [hkept.id]
    rw [hkept.broker] at hc
    exact h.identified c hc

end Assembled

-- The first tank has the token.
def System.ringOf (name : InetSocketAddress → String) (hosts : List InetSocketAddress) : System where
  broker := ⟨⟨hosts.map (fun a => ⟨name a, a⟩)⟩, false, fun id => hosts.find? (fun a => name a = id)⟩
  hosts := hosts
  tanks := fun a =>
    if h : a ∈ hosts then
      { TankModel.start with
        id := some (name a)
        leftNeighbour := some ⟨0, hosts.prev a h⟩
        rightNeighbour := some ⟨0, hosts.next a h⟩
        hasToken := hosts.head? = some a
        tokenTimer := if hosts.head? = some a then 1 else 0 }
    else TankModel.start
  network := []
  fresh := 0

section RingOf

variable {name : InetSocketAddress → String} {hosts : List InetSocketAddress}

theorem ringOf_addresses : (System.ringOf name hosts).broker.addresses = hosts := by
  rw [Broker.addresses, ClientCollection.members, System.ringOf, List.map_map]
  exact List.map_id hosts

theorem ringOf_ids : (System.ringOf name hosts).broker.ids = hosts.map name := by
  rw [Broker.ids, ClientCollection.ids, System.ringOf, List.map_map]
  rfl

theorem ringOf_names (hnames : (hosts.map name).Nodup) : NamesAgree (System.ringOf name hosts).broker := by
  refine ⟨ringOf_ids ▸ hnames, ?_, ?_⟩
  · intro id
    rw [ringOf_ids, System.ringOf, List.find?_isSome, List.mem_map]
    simp
  · intro c hc
    obtain ⟨a, ha, rfl⟩ := List.mem_map.mp hc
    rw [System.ringOf, List.find?_eq_some_iff_append]
    obtain ⟨front, back, hsplit⟩ := List.append_of_mem ha
    refine ⟨decide_eq_true rfl, front, back, hsplit, ?_⟩
    intro b hb
    rw [hsplit, List.map_append, List.map_cons, List.nodup_append] at hnames
    have hne : name b ≠ name a := hnames.2.2 _ (List.mem_map_of_mem hb) _ List.mem_cons_self
    simpa using hne

theorem ringOf_assembled (hdistinct : hosts.Nodup) (hbroker : brokerAddress ∉ hosts)
    (hnames : (hosts.map name).Nodup) : Assembled (System.ringOf name hosts) := by
  have hsettled : RingSettled (System.ringOf name hosts) := by
    intro a ha
    have hhost : a ∈ hosts := by
      rwa [ringOf_addresses] at ha
    simp only [ringOf_addresses]
    simp [System.links, System.ringOf, hhost, settle, Network.channel, TankModel.links,
      TankModel.left, TankModel.right]
  refine ⟨hdistinct, hbroker, ?_, ?_, ringOf_names hnames, ?_, ?_, ?_, ?_⟩
  · rw [ringOf_addresses]
    exact hdistinct
  · intro a
    rw [ringOf_addresses]
    rfl
  · intro c hc
    obtain ⟨a, ha, rfl⟩ := List.mem_map.mp hc
    simp [System.ringOf, ha]
  · refine hsettled.linked ?_ ?_
    · rw [ringOf_addresses]
      exact hdistinct
    · exact fun p hp => absurd hp List.not_mem_nil
  · exact fun p hp => absurd hp List.not_mem_nil
  · exact fun p hp => absurd hp List.not_mem_nil

end RingOf

end Aqualife
