import HTWGArchive.Aqualife.Conservation

namespace Aqualife

-- The messages by which the tank `a` makes itself known as the host of a fish.
def locates (a : InetSocketAddress) (fishId : FishId) (p : Packet) : Bool :=
  match p.payload with
  | .nameResolutionRequest _ requestId => p.src = a && requestId = fishId
  | .nameResolutionResponse _ requestId => p.dst = a && requestId = fishId
  | .locationUpdate requestId => p.src = a && requestId = fishId
  | _ => false

def LocationPending (s : System) (a : InetSocketAddress) (fishId : FishId) : Prop :=
  ∃ p ∈ s.network, locates a fishId p = true

instance (s : System) (a : InetSocketAddress) (fishId : FishId) :
    Decidable (LocationPending s a fishId) :=
  inferInstanceAs (Decidable (∃ p ∈ s.network, locates a fishId p = true))

def Occurrence.relocation (o : Occurrence) : Option (InetSocketAddress × InetSocketAddress × FishId) :=
  match o.event with
  | .deliver src dst _ =>
    match Network.deliver src dst o.before.network with
    | some (.locationUpdate fishId, _) => some (src, dst, fishId)
    | _ => none
  | _ => none

-- The home of a fish reads no news of it that is out of date, unless the host's own is to come.
def InOrder (earlier : List Occurrence) (o : Occurrence) : Prop :=
  ∀ r ∈ o.relocation, (o.before.tanks r.2.1).id = some r.2.2.tank →
    ∀ a ∈ o.before.hosts, ∀ x ∈ (o.before.tanks a).fishies, x.fish.id = r.2.2 →
      x.ref ∉ handedOff earlier → a ≠ r.2.1 ∧ (a = r.1 ∨ LocationPending o.before a r.2.2)

instance (earlier : List Occurrence) (o : Occurrence) : Decidable (InOrder earlier o) :=
  inferInstanceAs (Decidable (∀ r ∈ o.relocation, (o.before.tanks r.2.1).id = some r.2.2.tank →
    ∀ a ∈ o.before.hosts, ∀ x ∈ (o.before.tanks a).fishies, x.fish.id = r.2.2 →
      x.ref ∉ handedOff earlier → a ≠ r.2.1 ∧ (a = r.1 ∨ LocationPending o.before a r.2.2)))

structure Addressed (b : Broker) (p : Packet) : Prop where
  request : ∀ tankId requestId, p.payload = .nameResolutionRequest tankId requestId →
    tankId = requestId.tank ∧ p.dst = brokerAddress
  response : ∀ answer requestId, p.payload = .nameResolutionResponse answer requestId →
    answer = b.nameService requestId.tank
  update : ∀ requestId, p.payload = .locationUpdate requestId →
    some p.dst = b.nameService requestId.tank

def Payload.locating : Payload → Bool
  | .nameResolutionRequest _ _ => true
  | .nameResolutionResponse _ _ => true
  | .locationUpdate _ => true
  | _ => false

theorem addressed_of_other {b : Broker} {p : Packet} (h : p.payload.locating = false) :
    Addressed b p := by
  refine ⟨?_, ?_, ?_⟩
  · intro tankId requestId heq
    rw [heq] at h
    cases h
  · intro answer requestId heq
    rw [heq] at h
    cases h
  · intro requestId heq
    rw [heq] at h
    cases h

theorem locating_of_locates {a src dst : InetSocketAddress} {fishId : FishId} {payload : Payload}
    (h : locates a fishId ⟨src, dst, payload⟩ = true) : payload.locating = true := by
  cases payload with
  | nameResolutionRequest => rfl
  | nameResolutionResponse => rfl
  | locationUpdate => rfl
  | _ => cases h

-- What the home of a fish knows of its host.
def Known (s : System) (a : InetSocketAddress) (fishId : FishId) : Prop :=
  ∀ home ∈ s.hosts, (s.tanks home).id = some fishId.tank →
    if home = a then ((s.tanks home).fishieAddress fishId).join = none
    else LocationPending s a fishId ∨ (s.tanks home).fishieAddress fishId = some (some a)

structure Located (os : List Occurrence) (s : System) : Prop where
  conserved : Conserved os s
  addressed : ∀ p ∈ s.network, Addressed s.broker p
  known : ∀ p ∈ s.places, p.ref ∉ handedOff os → Known s p.tank p.id

section Entries

variable {s : System} {e : Event} {a : InetSocketAddress} {r : TankModel × List Send} {created : ℕ}
  {fishId : FishId}

theorem Acts.entry (h : Acts s e a r created)
    (hother : fishId ≠ ⟨(s.tanks a).fishCounter + 1, (s.tanks a).id.getD "null"⟩) :
    r.1.fishieAddress fishId = (s.tanks a).fishieAddress fishId := by
  cases h with
  | newFish _ x y direction =>
    rw [TankModel.newFish]
    split
    · exact Function.update_of_ne hother _ _
    · rfl
  | update _ discreteSin =>
    obtain ⟨_, _, hframe⟩ := (s.tanks a).update_frame discreteSin
    rw [hframe]
    rfl
  | _ => rfl

theorem Acts.locating (h : Acts s e a r created) {m : Send} (hm : m ∈ r.2) :
    m.2.locating = false := by
  cases h with
  | register =>
    rw [List.mem_singleton.mp hm]
    rfl
  | finish =>
    rw [List.mem_singleton.mp hm]
    rfl
  | newFish => exact absurd hm List.not_mem_nil
  | update _ discreteSin =>
    rcases (s.tanks a).update_sends hm with ⟨o, _, hsend⟩ | ⟨_, rfl⟩
    · rw [((s.tanks a).updateFish_sends hsend).1]
      rfl
    · rfl
  | initiateSnapshot =>
    rw [(s.tanks a).initiateSnapshot_sends] at hm
    rcases List.mem_cons.mp hm with rfl | hm
    · rfl
    · rw [List.mem_singleton.mp hm]
      rfl
  | locateFishGlobally _ fishId =>
    rw [(s.tanks a).locateFishGlobally_sends hm]
    rfl
  | tokenTimer _ _ =>
    rw [List.mem_singleton.mp hm]
    rfl

theorem locateArrival_entry (t : TankModel) (fish : FishModel) (fishId : FishId) :
    (t.locateArrival fish).1.fishieAddress fishId =
      if t.id = some fish.getTankId ∧ fishId = fish.id then (t.fishieAddress fishId).map (fun _ => none)
      else t.fishieAddress fishId := by
  rw [TankModel.locateArrival]
  split
  · rename_i hhome
    rcases eq_or_ne fishId fish.id with rfl | hne
    · rw [if_pos ⟨hhome, rfl⟩]
      exact Function.update_self _ _ _
    · rw [if_neg (fun h => hne h.2)]
      exact Function.update_of_ne hne _ _
  · rename_i habroad
    rw [if_neg (fun h => habroad h.1)]

theorem receiveFish_entry (t : TankModel) (fresh : ℕ) (fish : FishModel) (fishId : FishId) :
    (t.receiveFish fresh fish).1.fishieAddress fishId =
      if t.id = some fish.getTankId ∧ fishId = fish.id then (t.fishieAddress fishId).map (fun _ => none)
      else t.fishieAddress fishId := by
  obtain ⟨_, _, hframe⟩ := t.recordArrival_frame ⟨fresh, fish.setToStart⟩
  have hentry := locateArrival_entry (t.recordArrival ⟨fresh, fish.setToStart⟩) fish.setToStart fishId
  rw [hframe] at hentry
  rw [TankModel.receiveFish, hframe]
  exact hentry

theorem receiveFish_request {t : TankModel} {fish : FishModel} (fresh : ℕ)
    (habroad : t.id ≠ some fish.getTankId) : (t.receiveFish fresh fish).2 =
      [(some brokerAddress, .nameResolutionRequest fish.getTankId fish.id)] := by
  obtain ⟨_, _, hframe⟩ := t.recordArrival_frame ⟨fresh, fish.setToStart⟩
  have hid : (t.recordArrival ⟨fresh, fish.setToStart⟩).id ≠ some fish.setToStart.getTankId := by
    rw [hframe]
    exact habroad
  simp only [TankModel.receiveFish, TankModel.locateArrival]
  rw [if_neg hid]
  rfl

theorem receive_entry (t : TankModel) (fresh : ℕ) (sender : InetSocketAddress) (objects : ℕ × ℕ)
    {payload : Payload} (hhandoff : ∀ fish, payload = .handoffRequest fish → fishId ≠ fish.id)
    (hupdate : ∀ requestId, payload = .locationUpdate requestId → fishId ≠ requestId) :
    (t.receive fresh sender objects payload).1.fishieAddress fishId = t.fishieAddress fishId := by
  cases payload with
  | handoffRequest fish =>
    rw [TankModel.receive, receiveFish_entry, if_neg (fun h => hhandoff fish rfl h.2)]
  | locationUpdate requestId => exact Function.update_of_ne (hupdate requestId rfl) _ _
  | snapshotMarker =>
    obtain ⟨_, _, _, _, _, _, hframe⟩ := t.receiveMarker_frame ⟨objects.1, sender⟩
    rw [TankModel.receive, hframe]
  | collectToken globalState =>
    obtain ⟨_, _, _, _, hframe⟩ := t.receiveGlobalState_frame fresh globalState
    rw [TankModel.receive, hframe]
  | neighbourUpdate neighbour direction => cases direction <;> rfl
  | _ => rfl

end Entries

section Names

variable {s : System}

theorem Assembled.nameService_mem (h : Assembled s) {id : String} {a : InetSocketAddress}
    (hstored : s.broker.nameService id = some a) : a ∈ s.hosts ∧ (s.tanks a).id = some id := by
  have hid : id ∈ s.broker.ids := by
    rw [← h.names.exactly, hstored]
    rfl
  obtain ⟨c, hc, rfl⟩ := List.mem_map.mp hid
  rw [h.names.stored c hc, Option.some_inj] at hstored
  rw [← hstored, ← h.members]
  exact ⟨List.mem_map_of_mem hc, h.identified c hc⟩

theorem Assembled.nameService_of_id (h : Assembled s) {id : String} {a : InetSocketAddress}
    (ha : a ∈ s.hosts) (hid : (s.tanks a).id = some id) : s.broker.nameService id = some a := by
  obtain ⟨id', hid', hstored⟩ := h.named ha
  rw [hid, Option.some_inj] at hid'
  rw [hid']
  exact hstored

theorem Conserved.unknown {os : List Occurrence} (h : Conserved os s) {a : InetSocketAddress}
    (ha : a ∈ s.hosts) :
    (⟨(s.tanks a).fishCounter + 1, (s.tanks a).id.getD "null"⟩ : FishId) ∉ createdFish os := by
  intro hmem
  obtain ⟨name, hname, _⟩ := h.assembled.named ha
  rw [hname] at hmem
  obtain ⟨b, hb, htank, hnum⟩ := h.numbered _ hmem
  obtain rfl := h.assembled.id_inj hb ha (htank.trans hname.symm)
  exact Nat.not_succ_le_self _ hnum

theorem Conserved.resident {os : List Occurrence} (h : Conserved os s) {p : Place}
    (hp : p ∈ s.places) (hnot : p.ref ∉ handedOff os) :
    p.id ∈ createdFish os ∧ p.id ∉ s.carried := by
  have hmem : p.id ∈ remaining (handedOff os) s.places :=
    List.mem_map_of_mem (List.mem_filter.mpr ⟨hp, decide_eq_true hnot⟩)
  refine ⟨h.accounted.balance.subset (List.mem_append_left _ hmem), fun hcarried => ?_⟩
  have hnodup := h.accounted.balance.nodup_iff.mpr h.once
  rw [List.nodup_append] at hnodup
  exact hnodup.2.2 _ hmem _ (List.mem_append_left _ hcarried) rfl

end Names

section Pending

variable {s s' : System} {a : InetSocketAddress} {fishId : FishId}

theorem Known.keep (h : Known s a fishId) (hkept : Assembled.Kept s s')
    (hentry : ∀ home ∈ s.hosts, (s.tanks home).id = some fishId.tank →
      (s'.tanks home).fishieAddress fishId = (s.tanks home).fishieAddress fishId)
    (hpending : LocationPending s a fishId → LocationPending s' a fishId) : Known s' a fishId := by
  intro home hhome hid
  rw [hkept.hosts] at hhome
  rw [hkept.id] at hid
  have hknown := h home hhome hid
  rw [hentry home hhome hid]
  split
  · rename_i heq
    rw [if_pos heq] at hknown
    exact hknown
  · rename_i hne
    rw [if_neg hne] at hknown
    exact hknown.imp_left hpending

theorem pending_deliver {src dst : InetSocketAddress} {payload : Payload} {network : List Packet}
    (h : LocationPending s a fishId)
    (hdel : Network.deliver src dst s.network = some (payload, network)) :
    locates a fishId ⟨src, dst, payload⟩ = true ∨ ∃ p ∈ network, locates a fishId p = true := by
  obtain ⟨p, hp, hlocates⟩ := h
  rcases List.mem_cons.mp ((Network.deliver_perm hdel).subset hp) with rfl | hrest
  · exact Or.inl hlocates
  · exact Or.inr ⟨p, hrest, hlocates⟩

end Pending

section Next

variable {os : List Occurrence} {s s' : System} {o : Occurrence}

theorem Step.launched (hstep : Step s o s') {a : InetSocketAddress} {x y : ℤ} {direction : Direction}
    (he : o.event = .newFish a x y direction) :
    s' = (s.atTank a ((s.tanks a).newFish s.fresh x y direction, []) 1).1 := by
  obtain ⟨_, _, hstep⟩ := hstep
  rw [he] at hstep
  obtain ⟨_, heq⟩ := act_cases hstep
  exact congrArg Prod.fst heq

theorem Step.delivered (hstep : Step s o s') {src dst : InetSocketAddress} {objects : ℕ × ℕ}
    {payload : Payload} {network : List Packet} (he : o.event = .deliver src dst objects)
    (hdst : dst ≠ brokerAddress) (hhost : dst ∈ s.hosts)
    (hdel : Network.deliver src dst s.network = some (payload, network)) :
    s' = ({ s with network := network }.atTank dst
      ((s.tanks dst).receive s.fresh src objects payload) payload.objects).1 := by
  obtain ⟨_, _, hstep⟩ := hstep
  rw [he, System.step, System.deliver, hdel] at hstep
  dsimp only at hstep
  rw [if_neg hdst, if_pos hhost] at hstep
  exact (congrArg Prod.fst (Option.some_inj.mp hstep)).symm

theorem tanks_atTank {network : List Packet} {a : InetSocketAddress} {r : TankModel × List Send}
    {created : ℕ} (hnext : s' = ({ s with network := network }.atTank a r created).1) :
    s'.tanks = Function.update s.tanks a r.1 ∧ s'.network = network ++ packetsFrom a r.2 := by
  rw [hnext]
  exact ⟨rfl, rfl⟩

theorem Known.launched (h : Assembled s) (hkept : Assembled.Kept s s') {a : InetSocketAddress}
    (ha : a ∈ s.hosts) {fishId : FishId} (hid : (s.tanks a).id = some fishId.tank)
    (hentry : (s'.tanks a).fishieAddress fishId = some none) : Known s' a fishId := by
  intro home hhome hname
  rw [hkept.hosts] at hhome
  rw [hkept.id] at hname
  rw [h.id_inj hhome ha (hname.trans hid.symm), if_pos rfl, hentry]
  rfl

theorem Known.arrived (h : Assembled s) (hkept : Assembled.Kept s s') {dst src : InetSocketAddress}
    {objects : ℕ × ℕ} {fish : FishModel} {network : List Packet} (hdst : dst ∈ s.hosts)
    (hnext : s' = ({ s with network := network }.atTank dst
      ((s.tanks dst).receive s.fresh src objects (.handoffRequest fish)) 1).1) :
    Known s' dst fish.id := by
  obtain ⟨htanks, hnetwork⟩ := tanks_atTank hnext
  intro home hhome hname
  rw [hkept.hosts] at hhome
  rw [hkept.id] at hname
  rcases eq_or_ne home dst with rfl | hne
  · rw [if_pos rfl, htanks, Function.update_self, TankModel.receive, receiveFish_entry,
      if_pos ⟨hname, rfl⟩]
    cases (s.tanks home).fishieAddress fish.id <;> rfl
  · rw [if_neg hne]
    have habroad : (s.tanks dst).id ≠ some fish.getTankId :=
      fun hid => hne (h.id_inj hhome hdst (hname.trans hid.symm))
    refine Or.inl ⟨⟨dst, brokerAddress, .nameResolutionRequest fish.getTankId fish.id⟩, ?_, ?_⟩
    · rw [hnetwork, TankModel.receive, receiveFish_request _ habroad]
      exact List.mem_append_right _ List.mem_cons_self
    · simp [locates]

theorem InOrder.host (horder : InOrder os o) (hbefore : o.before = s) {src dst : InetSocketAddress}
    {objects : ℕ × ℕ} {network : List Packet} {p : Place} (he : o.event = .deliver src dst objects)
    (hdel : Network.deliver src dst s.network = some (.locationUpdate p.id, network))
    (hname : (s.tanks dst).id = some p.id.tank) (hp : p ∈ s.places) (hnot : p.ref ∉ handedOff os) :
    p.tank ≠ dst ∧ (p.tank = src ∨ LocationPending s p.tank p.id) := by
  subst hbefore
  obtain ⟨a, ha, x, hx, rfl⟩ := mem_places.mp hp
  have hrelocation : (src, dst, x.fish.id) ∈ o.relocation := by
    rw [Occurrence.relocation, he]
    simp only [hdel]
    rfl
  exact horder _ hrelocation hname a ha x hx rfl hnot

namespace Located

theorem acted (h : Located os s) (hkept : Assembled.Kept s s') {a : InetSocketAddress}
    {e : Event} {r : TankModel × List Send} {created : ℕ} (ha : a ∈ s.hosts)
    (hacts : Acts s e a r created) (hnext : s' = (s.atTank a r created).1) {p : Place}
    (hp : p ∈ s.places) (hnot : p.ref ∉ handedOff os) : Known s' p.tank p.id := by
  obtain ⟨htanks, hnetwork⟩ := tanks_atTank hnext
  refine (h.known p hp hnot).keep hkept ?_ ?_
  · intro home _ _
    rw [htanks]
    rcases eq_or_ne home a with rfl | hne
    · rw [Function.update_self]
      apply hacts.entry
      intro heq
      exact h.conserved.unknown ha (heq ▸ (h.conserved.resident hp hnot).1)
    · rw [Function.update_of_ne hne]
  · rintro ⟨q, hq, hlocates⟩
    refine ⟨q, ?_, hlocates⟩
    rw [hnetwork]
    exact List.mem_append_left _ hq

theorem answered (h : Located os s) (hkept : Assembled.Kept s s') {src : InetSocketAddress}
    {payload : Payload} {network : List Packet}
    (hdel : Network.deliver src brokerAddress s.network = some (payload, network))
    (hnext : s' = ({ s with network := network }.atBroker (s.broker.receive src payload)).1)
    {p : Place} (hp : p ∈ s.places) (hnot : p.ref ∉ handedOff os) : Known s' p.tank p.id := by
  have hassembled := h.conserved.assembled
  have htanks : s'.tanks = s.tanks := by
    rw [hnext]
    rfl
  have hnetwork : s'.network = network ++ packetsFrom brokerAddress (s.broker.receive src payload).2 := by
    rw [hnext]
    rfl
  refine (h.known p hp hnot).keep hkept (fun _ _ _ => by rw [htanks]) ?_
  intro hpending
  rcases pending_deliver hpending hdel with hlocates | ⟨q, hq, hlocates⟩
  · have haddressed := h.addressed _ (Network.deliver_mem hdel)
    cases payload with
    | nameResolutionRequest tankId requestId =>
      simp only [locates, Bool.and_eq_true, decide_eq_true_eq] at hlocates
      obtain ⟨rfl, rfl⟩ := hlocates
      refine ⟨⟨brokerAddress, p.tank, .nameResolutionResponse (s.broker.nameService tankId) p.id⟩,
        ?_, by simp [locates]⟩
      rw [hnetwork]
      exact List.mem_append_right _ List.mem_cons_self
    | nameResolutionResponse answer requestId =>
      simp only [locates, Bool.and_eq_true, decide_eq_true_eq] at hlocates
      obtain ⟨a, ha, x, _, rfl⟩ := mem_places.mp hp
      exact absurd (hlocates.1 ▸ ha) hassembled.broker
    | locationUpdate requestId =>
      have hstored := haddressed.update requestId rfl
      exact absurd (hassembled.nameService_mem hstored.symm).1 hassembled.broker
    | _ => cases hlocates
  · refine ⟨q, ?_, hlocates⟩
    rw [hnetwork]
    exact List.mem_append_left _ hq

section Received

variable {src dst : InetSocketAddress} {objects : ℕ × ℕ} {payload : Payload}
  {network : List Packet} {p : Place}

-- The home of the fish has heard of its tank, or will hear of it.
theorem received_update (h : Located os s) (hkept : Assembled.Kept s s') {requestId : FishId}
    (hbefore : o.before = s) (he : o.event = .deliver src dst objects) (hhost : dst ∈ s.hosts)
    (hdel : Network.deliver src dst s.network = some (.locationUpdate requestId, network))
    (htanks : s'.tanks = Function.update s.tanks dst
      ((s.tanks dst).receive s.fresh src objects (.locationUpdate requestId)).1)
    (hrest : ∀ q ∈ network, q ∈ s'.network) (horder : InOrder os o) (hp : p ∈ s.places)
    (hnot : p.ref ∉ handedOff os) (hid : p.id = requestId) : Known s' p.tank p.id := by
  subst hid
  have hassembled := h.conserved.assembled
  have haddressed := h.addressed _ (Network.deliver_mem hdel)
  obtain ⟨_, hname⟩ := hassembled.nameService_mem (haddressed.update p.id rfl).symm
  obtain ⟨hne, hsrc⟩ := horder.host hbefore he hdel hname hp hnot
  intro home hhome hid
  rw [hkept.hosts] at hhome
  rw [hkept.id] at hid
  obtain rfl := hassembled.id_inj hhome hhost (hid.trans hname.symm)
  rw [if_neg (Ne.symm hne)]
  rcases eq_or_ne p.tank src with heq | hother
  · right
    rw [htanks, Function.update_self, heq]
    exact Function.update_self _ _ _
  · left
    rcases pending_deliver (hsrc.resolve_left hother) hdel with hlocates | ⟨q, hq, hlocates⟩
    · simp only [locates, Bool.and_eq_true, decide_eq_true_eq] at hlocates
      exact absurd hlocates.1.symm hother
    · exact ⟨q, hrest q hq, hlocates⟩

-- The tank that asked for the home of a fish tells it.
theorem received_response (h : Located os s) {answer : Option InetSocketAddress}
    {requestId : FishId}
    (hdel : Network.deliver src dst s.network =
      some (.nameResolutionResponse answer requestId, network))
    (hnetwork : s'.network = network ++ packetsFrom dst
      ((s.tanks dst).receive s.fresh src objects (.nameResolutionResponse answer requestId)).2)
    (hp : p ∈ s.places) (hnot : p.ref ∉ handedOff os) (hpending : LocationPending s p.tank p.id) :
    LocationPending s' p.tank p.id := by
  rcases pending_deliver hpending hdel with hlocates | ⟨q, hq, hlocates⟩
  · simp only [locates, Bool.and_eq_true, decide_eq_true_eq] at hlocates
    obtain ⟨rfl, rfl⟩ := hlocates
    obtain ⟨home, hhome, hid, _⟩ :=
      h.conserved.numbered _ (h.conserved.resident hp hnot).1
    have hanswer := (h.addressed _ (Network.deliver_mem hdel)).response answer p.id rfl
    rw [h.conserved.assembled.nameService_of_id hhome hid] at hanswer
    refine ⟨⟨p.tank, home, .locationUpdate p.id⟩, ?_, by simp [locates]⟩
    rw [hnetwork, hanswer]
    exact List.mem_append_right _ List.mem_cons_self
  · refine ⟨q, ?_, hlocates⟩
    rw [hnetwork]
    exact List.mem_append_left _ hq

theorem received (h : Located os s) (hkept : Assembled.Kept s s') (hbefore : o.before = s)
    (he : o.event = .deliver src dst objects) (hdst : dst ≠ brokerAddress) (hhost : dst ∈ s.hosts)
    (hdel : Network.deliver src dst s.network = some (payload, network))
    (hnext : s' = ({ s with network := network }.atTank dst
      ((s.tanks dst).receive s.fresh src objects payload) payload.objects).1)
    (horder : InOrder os o) (hp : p ∈ s.places) (hnot : p.ref ∉ handedOff os) :
    Known s' p.tank p.id := by
  have haddressed := h.addressed _ (Network.deliver_mem hdel)
  obtain ⟨htanks, hnetwork⟩ := tanks_atTank hnext
  have hrest : ∀ q ∈ network, q ∈ s'.network := by
    intro q hq
    rw [hnetwork]
    exact List.mem_append_left _ hq
  have hpass : payload.locating = false → LocationPending s p.tank p.id →
      LocationPending s' p.tank p.id := by
    intro hother hpending
    rcases pending_deliver hpending hdel with hlocates | ⟨q, hq, hlocates⟩
    · rw [locating_of_locates hlocates] at hother
      cases hother
    · exact ⟨q, hrest q hq, hlocates⟩
  have hsame : (∀ fish, payload = .handoffRequest fish → p.id ≠ fish.id) →
      (∀ requestId, payload = .locationUpdate requestId → p.id ≠ requestId) →
        ∀ home, (s'.tanks home).fishieAddress p.id = (s.tanks home).fishieAddress p.id := by
    intro hhandoff hupdate home
    rw [htanks]
    rcases eq_or_ne home dst with rfl | hne
    · rw [Function.update_self]
      exact receive_entry _ _ _ _ hhandoff hupdate
    · rw [Function.update_of_ne hne]
  cases payload with
  | handoffRequest fish =>
    refine (h.known p hp hnot).keep hkept (fun home _ _ => hsame ?_ (by simp) home) (hpass rfl)
    intro fish' heq hid
    obtain rfl := Payload.handoffRequest.inj heq
    refine (h.conserved.resident hp hnot).2 ?_
    rw [hid]
    exact List.mem_filterMap.mpr ⟨_, Network.deliver_mem hdel, rfl⟩
  | locationUpdate requestId =>
    rcases eq_or_ne p.id requestId with hid | hne
    · exact h.received_update hkept hbefore he hhost hdel htanks hrest horder hp hnot hid
    · refine (h.known p hp hnot).keep hkept (fun home _ _ => hsame (by simp) ?_ home) ?_
      · intro requestId' heq
        rw [← Payload.locationUpdate.inj heq]
        exact hne
      · intro hpending
        rcases pending_deliver hpending hdel with hlocates | ⟨q, hq, hlocates⟩
        · simp only [locates, Bool.and_eq_true, decide_eq_true_eq] at hlocates
          exact absurd hlocates.2.symm hne
        · exact ⟨q, hrest q hq, hlocates⟩
  | nameResolutionRequest tankId requestId =>
    exact absurd (haddressed.request tankId requestId rfl).2 hdst
  | nameResolutionResponse answer requestId =>
    exact (h.known p hp hnot).keep hkept (fun home _ _ => hsame (by simp) (by simp) home)
      (h.received_response hdel hnetwork hp hnot)
  | _ => exact (h.known p hp hnot).keep hkept (fun home _ _ => hsame (by simp) (by simp) home) (hpass rfl)

end Received

theorem receive_addressed (h : Located os s) {src dst : InetSocketAddress} {objects : ℕ × ℕ}
    {payload : Payload} (hp : ⟨src, dst, payload⟩ ∈ s.network) {receiver : InetSocketAddress}
    {answer : Payload}
    (hm : (some receiver, answer) ∈ ((s.tanks dst).receive s.fresh src objects payload).2) :
    Addressed s.broker ⟨dst, receiver, answer⟩ := by
  cases payload with
  | handoffRequest fish =>
    obtain ⟨hreceiver, rfl⟩ := Prod.mk.inj ((s.tanks dst).receiveFish_sends hm)
    obtain rfl := Option.some_inj.mp hreceiver
    refine ⟨?_, by simp, by simp⟩
    intro tankId requestId heq
    obtain ⟨rfl, rfl⟩ := Payload.nameResolutionRequest.inj heq
    exact ⟨rfl, rfl⟩
  | snapshotMarker =>
    refine addressed_of_other ?_
    rcases (s.tanks dst).receiveMarker_sends hm with ⟨hsend, _⟩ | ⟨_, hsend⟩
    · obtain rfl : answer = .snapshotMarker := hsend
      rfl
    · obtain ⟨_, rfl⟩ := Prod.mk.inj hsend
      rfl
  | nameResolutionResponse response requestId =>
    obtain ⟨hreceiver, rfl⟩ := Prod.mk.inj (List.mem_singleton.mp hm)
    refine ⟨by simp, by simp, ?_⟩
    intro requestId' heq
    rw [← Payload.locationUpdate.inj heq, hreceiver]
    exact (h.addressed _ hp).response response requestId rfl
  | _ => exact absurd hm List.not_mem_nil

theorem broker_addressed (h : Located os s) {src receiver : InetSocketAddress}
    {payload answer : Payload} (hp : ⟨src, brokerAddress, payload⟩ ∈ s.network)
    (hm : (some receiver, answer) ∈ (s.broker.receive src payload).2) :
    Addressed s.broker ⟨brokerAddress, receiver, answer⟩ := by
  rcases (h.conserved.assembled.broker_receive hp).2 _ hm with
    ⟨id, _, hsend⟩ | ⟨tankId, requestId, rfl, hsend⟩
  · obtain ⟨_, rfl⟩ := Prod.mk.inj hsend
    exact addressed_of_other rfl
  · obtain ⟨_, rfl⟩ := Prod.mk.inj hsend
    refine ⟨by simp, ?_, by simp⟩
    intro answer requestId' heq
    obtain ⟨rfl, rfl⟩ := Payload.nameResolutionResponse.inj heq
    rw [((h.addressed _ hp).request tankId requestId rfl).1]

theorem addressed_next (h : Located os s) (hstep : Step s o s') :
    ∀ p ∈ s'.network, Addressed s'.broker p := by
  rw [(h.conserved.assembled.kept hstep).broker]
  obtain ⟨rfl, _, hstep⟩ := hstep
  cases step_cases hstep with
  | tankActs a r created ha hacts heq =>
    obtain rfl := congrArg Prod.fst heq
    intro p hp
    rcases List.mem_append.mp hp with hp | hp
    · exact h.addressed p hp
    · exact addressed_of_other (hacts.locating (mem_packetsFrom.mp hp).2)
  | brokerReceives src objects payload network he hdel heq =>
    obtain rfl := congrArg Prod.fst heq
    intro p hp
    rcases List.mem_append.mp hp with hp | hp
    · exact h.addressed p ((Network.deliver_sublist hdel).subset hp)
    · obtain ⟨src', dst, answer⟩ := p
      obtain ⟨rfl, hm⟩ := mem_packetsFrom.mp hp
      exact h.broker_addressed (Network.deliver_mem hdel) hm
  | tankReceives src dst objects payload network he hdst hhost hdel heq =>
    obtain rfl := congrArg Prod.fst heq
    intro p hp
    rcases List.mem_append.mp hp with hp | hp
    · exact h.addressed p ((Network.deliver_sublist hdel).subset hp)
    · obtain ⟨src', dst', answer⟩ := p
      obtain ⟨rfl, hm⟩ := mem_packetsFrom.mp hp
      exact h.receive_addressed (Network.deliver_mem hdel) hm

theorem stays (h : Located os s) (hstep : Step s o s') (horder : InOrder os o) {p : Place}
    (hp : p ∈ s.places) (hnot : p.ref ∉ handedOff os) : Known s' p.tank p.id := by
  have hkept := h.conserved.assembled.kept hstep
  obtain ⟨rfl, rfl, hstep⟩ := hstep
  cases step_cases hstep with
  | tankActs a r created ha hacts heq =>
    exact h.acted hkept ha hacts (congrArg Prod.fst heq) hp hnot
  | brokerReceives src objects payload network he hdel heq =>
    exact h.answered hkept hdel (congrArg Prod.fst heq) hp hnot
  | tankReceives src dst objects payload network he hdst hhost hdel heq =>
    exact h.received hkept rfl he hdst hhost hdel (congrArg Prod.fst heq) horder hp hnot

theorem next (h : Located os s) (hstep : Step s o s') (hstay : Stays o) (horder : InOrder os o) :
    Located (os ++ [o]) s' := by
  have hassembled := h.conserved.assembled
  have hkept := hassembled.kept hstep
  refine ⟨h.conserved.next hstep hstay, h.addressed_next hstep, ?_⟩
  intro p hp hnot
  rw [handedOff_snoc, List.mem_append, not_or] at hnot
  cases hstep.origin hp with
  | stayed hold => exact h.stays hstep horder hold hnot.1
  | launched a x y direction fish he ha hroom hfish heq =>
    have hnext := hstep.launched he
    obtain ⟨name, hname, _⟩ := hassembled.named ha
    rw [TankModel.newFish, if_pos hroom] at hfish
    obtain rfl := (List.cons.inj (List.append_cancel_left hfish)).1
    rw [heq]
    refine Known.launched hassembled hkept ha ?_ ?_
    · simp only [FishObject.place, hname, Option.getD_some]
    · rw [hnext, TankModel.newFish, if_pos hroom]
      simp [System.atTank, FishObject.place]
  | moved a discreteSin fish he ha hfish heq =>
    rw [heq] at hnot ⊢
    have hknown := h.stays hstep horder (mem_places.mpr ⟨a, ha, fish, hfish, rfl⟩) hnot.1
    simp only [FishObject.place, updateFish_id]
    exact hknown
  | arrived src dst objects fish network he hdst hdel heq =>
    have hbroker : dst ≠ brokerAddress := fun heq => hassembled.broker (heq ▸ hdst)
    have hnext := hstep.delivered he hbroker hdst hdel
    have hknown : Known s' dst fish.id := Known.arrived hassembled hkept hdst hnext
    rw [heq]
    exact hknown

end Located

end Next

def HomesKnow (os : List Occurrence) (s : System) : Prop :=
  ∀ a ∈ s.hosts, ∀ x ∈ (s.tanks a).fishies, x.ref ∉ handedOff os →
    ∃ home ∈ s.hosts, (s.tanks home).id = some x.fish.id.tank ∧
      if home = a then ((s.tanks home).fishieAddress x.fish.id).join = none
      else (s.tanks home).fishieAddress x.fish.id = some (some a)

instance (os : List Occurrence) (s : System) : Decidable (HomesKnow os s) :=
  inferInstanceAs (Decidable (∀ a ∈ s.hosts, ∀ x ∈ (s.tanks a).fishies, x.ref ∉ handedOff os →
    ∃ home ∈ s.hosts, (s.tanks home).id = some x.fish.id.tank ∧
      if home = a then ((s.tanks home).fishieAddress x.fish.id).join = none
      else (s.tanks home).fishieAddress x.fish.id = some (some a)))

theorem homes_know {s₀ s : System} {os : List Occurrence} (hassembled : Assembled s₀)
    (hempty : s₀.places = [] ∧ s₀.carried = [])
    (hquiet : ∀ p ∈ s₀.network, p.payload.locating = false) (hrun : Run s₀ os s)
    (hstays : ∀ o ∈ os, Stays o) (horder : LabelledRun.Along InOrder os) (hsettled : s.network = []) :
    HomesKnow os s := by
  have hlocated : Located os s := by
    refine LabelledRun.Run.history_along (G := fun os o => Stays o ∧ InOrder os o) ?_ ?_ hrun ?_
    · refine ⟨Conserved.init hassembled hempty, fun p hp => addressed_of_other (hquiet p hp), ?_⟩
      intro p hp
      rw [hempty.1] at hp
      exact absurd hp List.not_mem_nil
    · intro os s o s' _ hlocated ⟨hstay, hin⟩ hstep
      exact hlocated.next hstep hstay hin
    · exact fun i hi => ⟨hstays _ (List.getElem_mem hi), horder i hi⟩
  intro a ha x hx hnot
  have hp : x.place a ∈ s.places := mem_places.mpr ⟨a, ha, x, hx, rfl⟩
  obtain ⟨home, hhome, hid, _⟩ :=
    hlocated.conserved.numbered _ (hlocated.conserved.resident hp hnot).1
  refine ⟨home, hhome, hid, ?_⟩
  have hknown := hlocated.known _ hp hnot home hhome hid
  split
  · rename_i heq
    exact (if_pos heq).mp hknown
  · rename_i hne
    rcases (if_neg hne).mp hknown with ⟨p, hp, _⟩ | hentry
    · rw [hsettled] at hp
      exact absurd hp List.not_mem_nil
    · exact hentry

-- A fish swims from the first tank to the second one.
def emigration : List Event :=
  .newFish (host 1) 498 0 .right :: swims (host 1) 2 ++ [.deliver (host 1) (host 2) (0, 0)]

def homeNews : List Event :=
  [.deliver (host 2) brokerAddress (0, 0), .deliver brokerAddress (host 2) (0, 0),
    .deliver (host 2) (host 1) (0, 0)]

theorem homes_know_emigrant :
    ∃ os s, Run (System.ringOf (fun a => toString a.port) [host 1, host 2]) os s ∧
      (s.tanks (host 2)).fishies ≠ [] ∧ HomesKnow os s := by
  have hevents : ∃ r ∈ occurrences (System.ringOf (fun a => toString a.port) [host 1, host 2])
      (emigration ++ homeNews), (r.2.tanks (host 2)).fishies ≠ [] ∧ r.2.network = [] ∧
        (∀ o ∈ r.1, Stays o) ∧ LabelledRun.Along InOrder r.1 := by
    decide +kernel
  obtain ⟨⟨os, s⟩, hos, hfish, hsettled, hstays, horder⟩ := hevents
  have hrun := occurrences_run hos
  exact ⟨os, s, hrun, hfish,
    homes_know (ringOf_assembled (by decide) (by decide) (by decide)) (by decide +kernel)
      (by decide +kernel) hrun hstays horder hsettled⟩

theorem late_news :
    ¬∀ (s₀ s : System) (os : List Occurrence), Assembled s₀ → s₀.places = [] ∧ s₀.carried = [] →
      (∀ p ∈ s₀.network, p.payload.locating = false) → Run s₀ os s → (∀ o ∈ os, Stays o) →
        s.network = [] → HomesKnow os s := by
  intro h
  have hevents : ∃ r ∈ occurrences (System.ringOf (fun a => toString a.port) [host 1, host 2])
      (emigration ++ .tokenTimer (host 1) :: .deliver (host 1) (host 2) (0, 0) ::
        swims (host 2) 600 ++ .deliver (host 2) (host 1) (0, 0) :: homeNews),
      (∀ o ∈ r.1, Stays o) ∧ r.2.network = [] ∧ ¬HomesKnow r.1 r.2 := by
    decide +kernel
  obtain ⟨⟨os, s⟩, hos, hstays, hsettled, hbad⟩ := hevents
  exact hbad (h _ s os (ringOf_assembled (by decide) (by decide) (by decide)) (by decide +kernel)
    (by decide +kernel) (occurrences_run hos) hstays hsettled)

end Aqualife
