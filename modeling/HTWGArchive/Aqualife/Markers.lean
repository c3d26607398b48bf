import HTWGArchive.Aqualife.Assembly

namespace Aqualife

def Packet.isMarker (p : Packet) : Bool :=
  p.payload = .snapshotMarker

def markersTo (network : List Packet) (b : InetSocketAddress) : ℕ :=
  network.countP (fun p => p.dst = b && Packet.isMarker p)

-- The marker a step delivers, by sender and receiver.
def Occurrence.marker (o : Occurrence) : Option (InetSocketAddress × InetSocketAddress) :=
  match o.event with
  | .deliver src dst _ =>
    match Network.deliver src dst o.before.network with
    | some (.snapshotMarker, _) => some (src, dst)
    | _ => none
  | _ => none

-- The tank that records its local state in a step.
def Occurrence.recorder (o : Occurrence) : Option InetSocketAddress :=
  match o.event with
  | .initiateSnapshot a => some a
  | _ => (o.marker.map Prod.snd).filter (fun b => (o.before.tanks b).recordState = .idle)

def recorders (os : List Occurrence) : List InetSocketAddress :=
  os.filterMap Occurrence.recorder

def heard (os : List Occurrence) (b : InetSocketAddress) : ℕ :=
  os.countP (fun o => o.marker.map Prod.snd = some b)

def markersSent (os : List Occurrence) : List Packet :=
  os.flatMap (fun o => o.sent.filter Packet.isMarker)

def markersOf (t : TankModel) (b : InetSocketAddress) : List Packet :=
  packetsFrom b [(t.left, .snapshotMarker), (t.right, .snapshotMarker)]

-- The state of a tank that has recorded and heard so many markers.
def Awaits : ℕ → State → Prop
  | 0, recordState => recordState = .both
  | 1, recordState => recordState = .left ∨ recordState = .right
  | 2, recordState => recordState = .idle
  | _, _ => False

-- The object that is the sender's address.
def Event.senderRef : Event → ℕ
  | .deliver _ _ objects => objects.1
  | _ => 0

-- A marker from the right wakes a tank only as the object that is its right neighbour.
def SameNeighbour (o : Occurrence) : Prop :=
  ∀ m ∈ o.marker, (o.before.tanks m.2).recordState = .idle → (o.before.tanks m.2).left ≠ some m.1 →
    (o.before.tanks m.2).rightNeighbour = some ⟨o.event.senderRef, m.1⟩

instance (o : Occurrence) : Decidable (SameNeighbour o) :=
  inferInstanceAs (Decidable (∀ m ∈ o.marker, (o.before.tanks m.2).recordState = .idle →
    (o.before.tanks m.2).left ≠ some m.1 →
      (o.before.tanks m.2).rightNeighbour = some ⟨o.event.senderRef, m.1⟩))

def Initiates (o : Occurrence) : Prop :=
  ∃ a, o.event = .initiateSnapshot a

def Event.initiates : Event → Bool
  | .initiateSnapshot _ => true
  | _ => false

instance (o : Occurrence) : Decidable (Initiates o) :=
  decidable_of_iff (o.event.initiates = true) <| by
    rw [Initiates]
    cases o.event <;> simp [Event.initiates]

section Handlers

variable {s : System} {e : Event} {a : InetSocketAddress} {r : TankModel × List Send} {created : ℕ}

theorem Acts.marker (h : Acts s e a r created) (hno : ∀ b, e ≠ .initiateSnapshot b) :
    r.1.recordState = (s.tanks a).recordState ∧ ∀ m ∈ r.2, m.2 ≠ .snapshotMarker := by
  cases h with
  | register => exact ⟨rfl, by simp⟩
  | finish => exact ⟨rfl, by simp⟩
  | newFish _ x y direction =>
    obtain ⟨_, _, _, hframe⟩ := (s.tanks a).newFish_frame s.fresh x y direction
    rw [hframe]
    exact ⟨rfl, fun m hm => absurd hm List.not_mem_nil⟩
  | update _ discreteSin =>
    obtain ⟨_, _, hframe⟩ := (s.tanks a).update_frame discreteSin
    refine ⟨by rw [hframe]; rfl, fun m hm heq => ?_⟩
    rcases (s.tanks a).update_sends hm with ⟨o, _, hsend⟩ | ⟨_, rfl⟩
    · rw [((s.tanks a).updateFish_sends hsend).1] at heq
      cases heq
    · cases heq
  | initiateSnapshot => exact absurd rfl (hno a)
  | locateFishGlobally _ fishId =>
    refine ⟨rfl, fun m hm heq => ?_⟩
    rw [(s.tanks a).locateFishGlobally_sends hm] at heq
    cases heq
  | tokenTimer _ _ => exact ⟨rfl, by simp [TankModel.giveBackToken]⟩

theorem receive_marker (t : TankModel) (fresh : ℕ) (sender : InetSocketAddress) (objects : ℕ × ℕ)
    {payload : Payload} (hother : payload ≠ .snapshotMarker) :
    (t.receive fresh sender objects payload).1.recordState = t.recordState ∧
      ∀ m ∈ (t.receive fresh sender objects payload).2, m.2 ≠ .snapshotMarker := by
  cases payload with
  | snapshotMarker => exact absurd rfl hother
  | handoffRequest fish =>
    obtain ⟨_, _, _, hframe⟩ := t.receiveFish_frame fresh fish
    refine ⟨by rw [TankModel.receive, hframe], fun m hm heq => ?_⟩
    rw [t.receiveFish_sends hm] at heq
    cases heq
  | collectToken globalState =>
    obtain ⟨_, _, _, _, hframe⟩ := t.receiveGlobalState_frame fresh globalState
    refine ⟨by rw [TankModel.receive, hframe], fun m hm => absurd hm List.not_mem_nil⟩
  | neighbourUpdate neighbour direction =>
    cases direction <;> exact ⟨rfl, fun m hm => absurd hm List.not_mem_nil⟩
  | nameResolutionResponse response requestId =>
    refine ⟨rfl, fun m hm heq => ?_⟩
    rw [List.mem_singleton.mp hm] at heq
    cases heq
  | _ => exact ⟨rfl, fun m hm => absurd hm List.not_mem_nil⟩

variable (t : TankModel)

theorem receiveMarker_records (hidle : t.recordState = .idle) (neighbour : AddressRef)
    (hsame : t.left ≠ some neighbour.address → t.rightNeighbour = some neighbour) :
    Awaits 1 (t.receiveMarker neighbour).1.recordState ∧
      (t.receiveMarker neighbour).2 = [(t.left, .snapshotMarker), (t.right, .snapshotMarker)] := by
  rw [TankModel.receiveMarker, if_pos hidle]
  refine ⟨?_, TankModel.initiateSnapshot_sends _⟩
  rcases Classical.em (t.left = some neighbour.address) with hleft | hleft
  · right
    exact if_pos hleft
  · left
    exact (if_neg hleft).trans (if_pos (hsame hleft))

theorem Awaits.busy {n : ℕ} {recordState : State} (h : Awaits n recordState) (hn : n < 2) :
    recordState ≠ .idle := by
  rintro rfl
  match n, hn with
  | 0, _ => cases h
  | 1, _ => rcases h with heq | heq <;> cases heq

theorem receiveMarker_stops {n : ℕ} (hawaits : Awaits n t.recordState) (hn : n < 2)
    (neighbour : AddressRef) :
    Awaits (n + 1) (t.receiveMarker neighbour).1.recordState ∧
      ∀ m ∈ (t.receiveMarker neighbour).2, m.2 ≠ .snapshotMarker := by
  have hbusy := hawaits.busy hn
  rw [TankModel.receiveMarker, if_neg hbusy]
  refine ⟨?_, ?_⟩
  · rw [TankModel.stopSnapshot]
    obtain rfl | rfl : n = 0 ∨ n = 1 := by omega
    · have hboth : t.recordState = .both := hawaits
      rw [if_pos hboth]
      dsimp only
      split
      · exact Or.inr rfl
      · exact Or.inl rfl
    · have hone : t.recordState ≠ .both := by
        intro hboth
        rw [Awaits, hboth] at hawaits
        rcases hawaits with hstate | hstate <;> cases hstate
      rw [if_neg hone, if_pos hbusy]
      cases t.isInitiator <;> rfl
  · intro m hm heq
    obtain ⟨_, rfl⟩ := t.stopSnapshot_sends hm
    cases heq

theorem initiateSnapshot_records :
    Awaits 0 (t.initiateSnapshot true none).1.recordState ∧
      (t.initiateSnapshot true none).2 = [(t.left, .snapshotMarker), (t.right, .snapshotMarker)] :=
  ⟨rfl, t.initiateSnapshot_sends⟩

end Handlers

section Counting

theorem markersTo_append (network network' : List Packet) (b : InetSocketAddress) :
    markersTo (network ++ network') b = markersTo network b + markersTo network' b :=
  List.countP_append

theorem no_markers {a : InetSocketAddress} {sends : List Send}
    (h : ∀ m ∈ sends, m.2 ≠ .snapshotMarker) :
    (packetsFrom a sends).filter Packet.isMarker = [] ∧
      ∀ b, markersTo (packetsFrom a sends) b = 0 := by
  have hnone : ∀ p ∈ packetsFrom a sends, Packet.isMarker p = false := by
    intro p hp
    exact decide_eq_false (h _ (mem_packetsFrom.mp hp).2)
  refine ⟨?_, fun b => ?_⟩
  · rw [List.filter_eq_nil_iff]
    intro p hp
    rw [hnone p hp]
    exact Bool.false_ne_true
  · rw [markersTo, List.countP_eq_zero]
    intro p hp
    rw [hnone p hp, Bool.and_false]
    exact Bool.false_ne_true

theorem markersTo_deliver {src dst : InetSocketAddress} {payload : Payload}
    {network network' : List Packet}
    (hdel : Network.deliver src dst network = some (payload, network')) (b : InetSocketAddress) :
    markersTo network b =
      markersTo network' b + if dst = b ∧ payload = .snapshotMarker then 1 else 0 := by
  rw [markersTo, Network.deliver_countP hdel]
  simp [markersTo, Packet.isMarker]

theorem markersOf_eq {t : TankModel} {b l r : InetSocketAddress} (hl : t.left = some l)
    (hr : t.right = some r) :
    markersOf t b = [⟨b, l, .snapshotMarker⟩, ⟨b, r, .snapshotMarker⟩] := by
  rw [markersOf, hl, hr]
  rfl

theorem markersTo_markersOf {t : TankModel} {b l r : InetSocketAddress} (hl : t.left = some l)
    (hr : t.right = some r) (c : InetSocketAddress) :
    markersTo (markersOf t b) c = (if l = c then 1 else 0) + if r = c then 1 else 0 := by
  rw [markersOf_eq hl hr, markersTo, List.countP_cons, List.countP_cons, List.countP_nil]
  simp only [Packet.isMarker, decide_true, Bool.and_true, decide_eq_true_eq]
  omega

end Counting

theorem recorders_snoc (os : List Occurrence) (o : Occurrence) :
    recorders (os ++ [o]) = recorders os ++ o.recorder.toList := by
  rw [recorders, List.filterMap_append, ← recorders]
  cases h : o.recorder <;> simp [h]

theorem heard_snoc (os : List Occurrence) (o : Occurrence) (b : InetSocketAddress) :
    heard (os ++ [o]) b = heard os b + heard [o] b :=
  List.countP_append

theorem heard_singleton (o : Occurrence) (b : InetSocketAddress) :
    heard [o] b = if o.marker.map Prod.snd = some b then 1 else 0 := by
  simp only [heard, List.countP_cons, List.countP_nil, Nat.zero_add, decide_eq_true_eq]

theorem markersSent_snoc (os : List Occurrence) (o : Occurrence) :
    markersSent (os ++ [o]) = markersSent os ++ o.sent.filter Packet.isMarker := by
  simp [markersSent]

-- The flood of one snapshot: every marker sent to a tank is on its way or has been heard.
structure Flooding (os : List Occurrence) (s : System) : Prop where
  assembled : Assembled s
  once : (recorders os).Nodup
  hosts : ∀ b ∈ recorders os, b ∈ s.hosts
  flow : ∀ b ∈ s.hosts, ∀ l r, (s.tanks b).left = some l → (s.tanks b).right = some r →
    (recorders os).count l + (recorders os).count r = markersTo s.network b + heard os b
  asleep : ∀ b ∈ s.hosts, b ∉ recorders os → heard os b = 0 ∧ (s.tanks b).recordState = .idle
  awake : ∀ b ∈ recorders os, Awaits (heard os b) (s.tanks b).recordState
  sent : markersSent os = (recorders os).flatMap (fun b => markersOf (s.tanks b) b)

theorem Assembled.Kept.markersOf {s s' : System} (h : Assembled.Kept s s') (b : InetSocketAddress) :
    markersOf (s'.tanks b) b = markersOf (s.tanks b) b := by
  rw [Aqualife.markersOf, Aqualife.markersOf, h.left, h.right]

theorem Assembled.left_iff {s : System} (h : Assembled s) {a b : InetSocketAddress} (ha : a ∈ s.hosts)
    (hb : b ∈ s.hosts) : (s.tanks a).right = some b ↔ (s.tanks b).left = some a :=
  h.linked.inverse a ((h.members a).mpr ha) b ((h.members b).mpr hb)

namespace Flooding

variable {os : List Occurrence} {s s' : System} {o : Occurrence}

theorem init (hassembled : Assembled s) (hidle : ∀ b ∈ s.hosts, (s.tanks b).recordState = .idle)
    (hnone : ∀ b, markersTo s.network b = 0) : Flooding [] s := by
  refine ⟨hassembled, List.nodup_nil, ?_, ?_, ?_, ?_, rfl⟩
  · exact fun b hb => absurd hb List.not_mem_nil
  · intro b _ l r _ _
    rw [hnone]
    rfl
  · exact fun b hb _ => ⟨rfl, hidle b hb⟩
  · exact fun b hb => absurd hb List.not_mem_nil

theorem quiet (h : Flooding os s) (hassembled : Assembled s') (hkept : Assembled.Kept s s')
    (hmarker : o.marker = none) (hrecorder : o.recorder = none)
    (hstate : ∀ b, (s'.tanks b).recordState = (s.tanks b).recordState)
    (hnetwork : ∀ b, markersTo s'.network b = markersTo s.network b)
    (hsent : o.sent.filter Packet.isMarker = []) : Flooding (os ++ [o]) s' := by
  have hr : recorders (os ++ [o]) = recorders os := by
    rw [recorders_snoc, hrecorder]
    exact List.append_nil _
  have hh : ∀ b, heard (os ++ [o]) b = heard os b := by
    intro b
    rw [heard_snoc, heard_singleton, hmarker]
    rfl
  refine ⟨hassembled, ?_, ?_, ?_, ?_, ?_, ?_⟩
  · rw [hr]
    exact h.once
  · rw [hr, hkept.hosts]
    exact h.hosts
  · intro b hb l r hl hright
    rw [hkept.hosts] at hb
    rw [hkept.left] at hl
    rw [hkept.right] at hright
    rw [hr, hh, hnetwork]
    exact h.flow b hb l r hl hright
  · intro b hb hnot
    rw [hkept.hosts] at hb
    rw [hr] at hnot
    rw [hh, hstate]
    exact h.asleep b hb hnot
  · intro b hb
    rw [hr] at hb
    rw [hh, hstate]
    exact h.awake b hb
  · rw [markersSent_snoc, hsent, List.append_nil, hr, h.sent]
    simp only [hkept.markersOf]

theorem records (h : Flooding os s) (hassembled : Assembled s') (hkept : Assembled.Kept s s')
    {a : InetSocketAddress} {t : TankModel} (network : List Packet) (ha : a ∈ s.hosts)
    (hnew : a ∉ recorders os) (hrecorder : o.recorder = some a)
    (hdelivered : ∀ b, markersTo s.network b = markersTo network b + heard [o] b)
    (hothers : ∀ b, b ≠ a → heard [o] b = 0) (htanks : s'.tanks = Function.update s.tanks a t)
    (hawaits : Awaits (heard [o] a) t.recordState)
    (hnetwork : s'.network = network ++ markersOf (s.tanks a) a)
    (hsent : o.sent = markersOf (s.tanks a) a) : Flooding (os ++ [o]) s' := by
  have hr : recorders (os ++ [o]) = recorders os ++ [a] := by
    rw [recorders_snoc, hrecorder]
    rfl
  have hstate : ∀ b, b ≠ a → (s'.tanks b).recordState = (s.tanks b).recordState := by
    intro b hb
    rw [htanks, Function.update_of_ne hb]
  have hl := h.assembled.left_eq ha
  have hright := h.assembled.right_eq ha
  refine ⟨hassembled, ?_, ?_, ?_, ?_, ?_, ?_⟩
  · rw [hr, ← List.concat_eq_append]
    exact List.Nodup.concat hnew h.once
  · rw [hr, hkept.hosts, List.forall_mem_append, List.forall_mem_singleton]
    exact ⟨h.hosts, ha⟩
  · intro b hb l r hbl hbr
    rw [hkept.hosts] at hb
    rw [hkept.left] at hbl
    rw [hkept.right] at hbr
    have hflow := h.flow b hb l r hbl hbr
    rw [hdelivered] at hflow
    have hleft : a = r ↔ (s.tanks a).left = some b := by
      rw [← h.assembled.left_iff hb ha, hbr, Option.some_inj, eq_comm]
    have hfromright : a = l ↔ (s.tanks a).right = some b := by
      rw [h.assembled.left_iff ha hb, hbl, Option.some_inj, eq_comm]
    rw [hl, Option.some_inj] at hleft
    rw [hright, Option.some_inj] at hfromright
    rw [hr, heard_snoc, hnetwork, markersTo_append, markersTo_markersOf hl hright, List.count_append,
      List.count_append, List.count_singleton, List.count_singleton]
    simp only [beq_iff_eq, hleft, hfromright]
    omega
  · intro b hb hnot
    rw [hkept.hosts] at hb
    rw [hr, List.mem_append, not_or, List.mem_singleton] at hnot
    rw [heard_snoc, hothers b hnot.2, hstate b hnot.2]
    exact h.asleep b hb hnot.1
  · intro b hb
    rw [hr] at hb
    rcases List.mem_append.mp hb with hold | hmem
    · have hne : b ≠ a := fun heq => hnew (heq ▸ hold)
      rw [heard_snoc, hothers b hne, hstate b hne]
      exact h.awake b hold
    · obtain rfl := List.mem_singleton.mp hmem
      rw [heard_snoc, (h.asleep b ha hnew).1, Nat.zero_add, htanks, Function.update_self]
      exact hawaits
  · have hall : o.sent.filter Packet.isMarker = markersOf (s.tanks a) a := by
      rw [hsent, markersOf_eq hl hright]
      rfl
    rw [markersSent_snoc, hall, hr, List.flatMap_append, List.flatMap_singleton, h.sent]
    simp only [hkept.markersOf]

theorem stops (h : Flooding os s) (hassembled : Assembled s') (hkept : Assembled.Kept s s')
    {a : InetSocketAddress} {t : TankModel} (ha : a ∈ recorders os)
    (hrecorder : o.recorder = none) (hheard : ∀ b, heard [o] b = if a = b then 1 else 0)
    (hdelivered : ∀ b, markersTo s.network b = markersTo s'.network b + heard [o] b)
    (htanks : s'.tanks = Function.update s.tanks a t)
    (hawaits : Awaits (heard os a + 1) t.recordState)
    (hsent : o.sent.filter Packet.isMarker = []) : Flooding (os ++ [o]) s' := by
  have hr : recorders (os ++ [o]) = recorders os := by
    rw [recorders_snoc, hrecorder]
    exact List.append_nil _
  have hstate : ∀ b, b ≠ a → (s'.tanks b).recordState = (s.tanks b).recordState := by
    intro b hb
    rw [htanks, Function.update_of_ne hb]
  refine ⟨hassembled, ?_, ?_, ?_, ?_, ?_, ?_⟩
  · rw [hr]
    exact h.once
  · rw [hr, hkept.hosts]
    exact h.hosts
  · intro b hb l r hl hright
    rw [hkept.hosts] at hb
    rw [hkept.left] at hl
    rw [hkept.right] at hright
    have hflow := h.flow b hb l r hl hright
    rw [hdelivered] at hflow
    rw [hr, heard_snoc]
    omega
  · intro b hb hnot
    rw [hkept.hosts] at hb
    rw [hr] at hnot
    have hne : b ≠ a := fun heq => hnot (heq ▸ ha)
    rw [heard_snoc, hheard, if_neg (Ne.symm hne), hstate b hne]
    exact h.asleep b hb hnot
  · intro b hb
    rw [hr] at hb
    rcases eq_or_ne b a with rfl | hne
    · rw [heard_snoc, hheard, if_pos rfl, htanks, Function.update_self]
      exact hawaits
    · rw [heard_snoc, hheard, if_neg (Ne.symm hne), hstate b hne]
      exact h.awake b hb
  · rw [markersSent_snoc, hsent, List.append_nil, hr, h.sent]
    simp only [hkept.markersOf]

theorem initiates (h : Flooding os s) (hstep : Step s o s') (hstay : Stays o)
    {a : InetSocketAddress} (he : o.event = .initiateSnapshot a) (hnew : a ∉ recorders os) :
    Flooding (os ++ [o]) s' := by
  have hassembled := h.assembled.next hstep hstay
  have hkept := h.assembled.kept hstep
  have hmarker : o.marker = none := by
    rw [Occurrence.marker, he]
  have hheard : ∀ b, heard [o] b = 0 := by
    intro b
    rw [heard_singleton, hmarker]
    rfl
  have hrecorder : o.recorder = some a := by
    rw [Occurrence.recorder, he]
  obtain ⟨rfl, rfl, hstep⟩ := hstep
  rw [he] at hstep
  obtain ⟨ha, heq⟩ := act_cases hstep
  obtain ⟨hnext, hsent⟩ := Prod.mk.inj heq
  refine h.records hassembled hkept o.before.network ha hnew hrecorder
    (fun b => by rw [hheard, Nat.add_zero]) (fun b _ => hheard b) (by rw [hnext]) ?_
    (by rw [hnext]; rfl) hsent
  rw [hheard]
  exact (initiateSnapshot_records _).1

theorem marker_of_deliver {src dst : InetSocketAddress} {objects : ℕ × ℕ} {payload : Payload}
    {network : List Packet} (he : o.event = .deliver src dst objects)
    (hdel : Network.deliver src dst o.before.network = some (payload, network)) :
    o.marker = if payload = .snapshotMarker then some (src, dst) else none := by
  rw [Occurrence.marker, he]
  simp only [hdel]
  cases payload <;> rfl

theorem recorder_of_deliver {src dst : InetSocketAddress} {objects : ℕ × ℕ}
    (he : o.event = .deliver src dst objects) :
    o.recorder =
      (o.marker.map Prod.snd).filter (fun b => (o.before.tanks b).recordState = .idle) := by
  rw [Occurrence.recorder, he]

theorem hears (h : Flooding os o.before) (hassembled : Assembled s')
    (hkept : Assembled.Kept o.before s') (hsame : SameNeighbour o) {src dst : InetSocketAddress}
    {objects : ℕ × ℕ} {network : List Packet} (he : o.event = .deliver src dst objects)
    (hhost : dst ∈ o.before.hosts)
    (hdel : Network.deliver src dst o.before.network = some (.snapshotMarker, network))
    (heq : (s', o.sent) = { o.before with network := network }.atTank dst
      ((o.before.tanks dst).receive o.before.fresh src objects .snapshotMarker)
      Payload.snapshotMarker.objects) : Flooding (os ++ [o]) s' := by
  obtain ⟨hnext, hsent⟩ := Prod.mk.inj heq
  have hmarker := marker_of_deliver he hdel
  have hrecorder := recorder_of_deliver he
  rw [if_pos rfl] at hmarker
  rw [hmarker] at hrecorder
  have hheard : ∀ b, heard [o] b = if dst = b then 1 else 0 := by
    intro b
    rw [heard_singleton, hmarker]
    simp
  have hdelivered : ∀ b, markersTo o.before.network b = markersTo network b + heard [o] b := by
    intro b
    rw [markersTo_deliver hdel, hheard]
    simp
  rcases Classical.em (dst ∈ recorders os) with hold | hnew
  · have hcount := h.flow dst hhost _ _ (h.assembled.left_eq hhost) (h.assembled.right_eq hhost)
    have hleft := List.nodup_iff_count_le_one.mp h.once
      (o.before.broker.addresses.prev dst ((h.assembled.members dst).mpr hhost))
    have hright := List.nodup_iff_count_le_one.mp h.once
      (o.before.broker.addresses.next dst ((h.assembled.members dst).mpr hhost))
    rw [hdelivered, hheard, if_pos rfl] at hcount
    obtain ⟨hawaits, hsends⟩ := receiveMarker_stops (o.before.tanks dst) (h.awake dst hold)
      (by omega) ⟨objects.1, src⟩
    obtain ⟨hnone, hcount'⟩ := no_markers (a := dst) hsends
    refine h.stops hassembled hkept hold ?_ hheard ?_ (by rw [hnext]; rfl) hawaits ?_
    · rw [hrecorder]
      simpa using (h.awake dst hold).busy (by omega)
    · intro b
      rw [hdelivered, hnext, markersTo_append]
      simp only [TankModel.receive, hcount', Nat.add_zero]
    · rw [hsent]
      exact hnone
  · obtain ⟨hzero, hidle⟩ := h.asleep dst hhost hnew
    have href : (o.before.tanks dst).left ≠ some src →
        (o.before.tanks dst).rightNeighbour = some ⟨objects.1, src⟩ := by
      intro hleft
      have hobject := hsame (src, dst) hmarker hidle hleft
      rw [he] at hobject
      exact hobject
    obtain ⟨hawaits, hsends⟩ :=
      receiveMarker_records (o.before.tanks dst) hidle ⟨objects.1, src⟩ href
    have hmarkers : packetsFrom dst
        ((o.before.tanks dst).receive o.before.fresh src objects .snapshotMarker).2 =
          markersOf (o.before.tanks dst) dst := by
      rw [TankModel.receive, hsends]
      rfl
    refine h.records hassembled hkept network hhost hnew ?_ hdelivered ?_ (by rw [hnext]) ?_ ?_ ?_
    · rw [hrecorder]
      simp [hidle]
    · intro b hne
      rw [hheard, if_neg (Ne.symm hne)]
    · rw [hheard, if_pos rfl]
      exact hawaits
    · rw [hnext]
      exact congrArg (network ++ ·) hmarkers
    · exact hsent.trans hmarkers

theorem silent_of_acts {a : InetSocketAddress} {r : TankModel × List Send} {created : ℕ}
    (hacts : Acts o.before o.event a r created)
    (hother : ∀ b, o.event ≠ .initiateSnapshot b) : o.marker = none ∧ o.recorder = none := by
  have hdelivery : ∀ src dst objects, o.event ≠ .deliver src dst objects := by
    intro src dst objects he
    rw [he] at hacts
    cases hacts
  have hmarker : o.marker = none := by
    rw [Occurrence.marker]
    split
    · exact absurd ‹_› (hdelivery _ _ _)
    · rfl
  refine ⟨hmarker, ?_⟩
  rw [Occurrence.recorder]
  split
  · exact absurd ‹_› (hother _)
  · rw [hmarker]
    rfl

-- A tank that sends no markers and goes on recording as before changes nothing.
theorem quiet_tank (h : Flooding os o.before) (hassembled : Assembled s')
    (hkept : Assembled.Kept o.before s') (hmarker : o.marker = none) (hrecorder : o.recorder = none)
    {a : InetSocketAddress} {network : List Packet} {r : TankModel × List Send} {created : ℕ}
    (heq : (s', o.sent) = { o.before with network := network }.atTank a r created)
    (hstate : r.1.recordState = (o.before.tanks a).recordState)
    (hsends : ∀ m ∈ r.2, m.2 ≠ .snapshotMarker)
    (hnetwork : ∀ b, markersTo o.before.network b = markersTo network b) :
    Flooding (os ++ [o]) s' := by
  obtain ⟨hnone, hcount⟩ := no_markers (a := a) hsends
  obtain ⟨hnext, hsent⟩ := Prod.mk.inj heq
  refine h.quiet hassembled hkept hmarker hrecorder ?_ ?_ ?_
  · intro b
    rw [hnext]
    rcases eq_or_ne b a with rfl | hne
    · simp only [Function.update_self, hstate]
    · simp only [Function.update_of_ne hne]
  · intro b
    rw [hnext, markersTo_append, hcount, Nat.add_zero, hnetwork]
  · rw [hsent]
    exact hnone

theorem next (h : Flooding os s) (hstep : Step s o s') (hstay : Stays o) (hno : ¬Initiates o)
    (hsame : SameNeighbour o) : Flooding (os ++ [o]) s' := by
  have hassembled := h.assembled.next hstep hstay
  have hkept := h.assembled.kept hstep
  obtain ⟨rfl, rfl, hstep⟩ := hstep
  cases step_cases hstep with
  | tankActs a r created ha hacts heq =>
    have hother : ∀ b, o.event ≠ .initiateSnapshot b := fun b heq => hno ⟨b, heq⟩
    obtain ⟨hstate, hsends⟩ := hacts.marker hother
    obtain ⟨hmarker, hrecorder⟩ := silent_of_acts hacts hother
    exact h.quiet_tank hassembled hkept hmarker hrecorder heq hstate hsends (fun _ => rfl)
  | brokerReceives src objects payload network he hdel heq =>
    obtain ⟨hnext, hsent⟩ := Prod.mk.inj heq
    have hother : payload ≠ .snapshotMarker := by
      rintro rfl
      exact h.assembled.broker ((h.assembled.orderly _ (Network.deliver_mem hdel)).ring rfl)
    have hsends : ∀ m ∈ (o.before.broker.receive src payload).2, m.2 ≠ .snapshotMarker := by
      intro m hm heq
      rcases Broker.receive_sends hm with hfrom | hfrom
      · rw [heq] at hfrom
        cases hfrom
      · rw [heq] at hfrom
        cases hfrom
    obtain ⟨hnone, hcount⟩ := no_markers (a := brokerAddress) hsends
    have hmarker : o.marker = none := by
      rw [marker_of_deliver he hdel, if_neg hother]
    have hrecorder : o.recorder = none := by
      rw [recorder_of_deliver he, hmarker]
      rfl
    refine h.quiet hassembled hkept hmarker hrecorder ?_ ?_ ?_
    · intro b
      rw [hnext]
    · intro b
      rw [hnext, markersTo_append, hcount, Nat.add_zero, markersTo_deliver hdel,
        if_neg (fun h => hother h.2), Nat.add_zero]
    · rw [hsent]
      exact hnone
  | tankReceives src dst objects payload network he hdst hhost hdel heq =>
    have hmarker := marker_of_deliver he hdel
    have hrecorder := recorder_of_deliver he
    rcases Classical.em (payload = .snapshotMarker) with rfl | hother
    · exact h.hears hassembled hkept hsame he hhost hdel heq
    · rw [if_neg hother] at hmarker
      obtain ⟨hstate, hsends⟩ := receive_marker (o.before.tanks dst) o.before.fresh src objects hother
      refine h.quiet_tank hassembled hkept hmarker ?_ heq hstate hsends ?_
      · rw [hrecorder, hmarker]
        rfl
      · intro b
        rw [markersTo_deliver hdel, if_neg (fun h => hother h.2), Nat.add_zero]

theorem spreads (h : Flooding os s) (hnone : ∀ b, markersTo s.network b = 0) {b : InetSocketAddress}
    (hb : b ∈ recorders os) : ∃ c ∈ recorders os, (s.tanks b).right = some c := by
  have hhost := h.hosts b hb
  have hright := h.assembled.right_eq hhost
  generalize hc : s.broker.addresses.next b ((h.assembled.members b).mpr hhost) = c at hright
  have hcmem : c ∈ s.hosts := h.assembled.neighbour_mem hhost (Or.inr hright.symm)
  have hback := (h.assembled.left_iff hhost hcmem).mp hright
  have hflow := h.flow c hcmem b _ hback (h.assembled.right_eq hcmem)
  have hone := List.count_pos_iff.mpr hb
  rw [hnone] at hflow
  refine ⟨c, ?_, hright⟩
  by_contra hnot
  have hsilent := (h.asleep c hcmem hnot).1
  omega

theorem all_recorded (h : Flooding os s) (hnone : ∀ b, markersTo s.network b = 0)
    (hsome : recorders os ≠ []) : ∀ b ∈ s.hosts, b ∈ recorders os := by
  obtain ⟨a, ha⟩ := List.exists_mem_of_ne_nil _ hsome
  intro b hb
  have hmembers := h.assembled.members
  obtain ⟨k, hk⟩ := h.assembled.linked.cycle a ((hmembers a).mpr (h.hosts a ha)) b ((hmembers b).mpr hb)
  have hreach : ∀ k, ∃ c ∈ recorders os, s.rightOf^[k] (some a) = some c := by
    intro k
    induction k with
    | zero => exact ⟨a, ha, rfl⟩
    | succ k ih =>
      obtain ⟨c, hc, heq⟩ := ih
      obtain ⟨d, hd, hright⟩ := h.spreads hnone hc
      rw [Function.iterate_succ_apply', heq]
      exact ⟨d, hd, hright⟩
  obtain ⟨c, hc, heq⟩ := hreach k
  rw [hk, Option.some_inj] at heq
  rw [heq]
  exact hc

theorem all_idle (h : Flooding os s) (hnone : ∀ b, markersTo s.network b = 0)
    (hsome : recorders os ≠ []) {b : InetSocketAddress} (hb : b ∈ s.hosts) :
    (s.tanks b).recordState = .idle := by
  have hall := h.all_recorded hnone hsome
  have hleft := h.assembled.left_eq hb
  have hright := h.assembled.right_eq hb
  have hflow := h.flow b hb _ _ hleft hright
  have hl := hall _ (h.assembled.neighbour_mem hb (Or.inl hleft.symm))
  have hr := hall _ (h.assembled.neighbour_mem hb (Or.inr hright.symm))
  rw [List.count_eq_one_of_mem h.once hl, List.count_eq_one_of_mem h.once hr, hnone, Nat.zero_add] at hflow
  have hawake := h.awake b (hall b hb)
  rw [← hflow] at hawake
  exact hawake

end Flooding

theorem Assembled.left_ne_right {s : System} (h : Assembled s) (hring : 3 ≤ s.hosts.length)
    {a : InetSocketAddress} (ha : a ∈ s.hosts) : (s.tanks a).left ≠ (s.tanks a).right := by
  have hlength : s.broker.addresses.length = s.hosts.length :=
    ((List.perm_ext_iff_of_nodup h.registered h.distinct).mpr h.members).length_eq
  rw [h.left_eq ha, h.right_eq ha, Ne, Option.some_inj]
  exact Ring.prev_ne_next h.registered (by omega) _

section Sent

variable {s : System} {L : List InetSocketAddress} {b : InetSocketAddress}

theorem count_markersOf (h : Assembled s) (hring : 3 ≤ s.hosts.length) (hL : ∀ x ∈ L, x ∈ s.hosts)
    (b c : InetSocketAddress) :
    (L.flatMap (fun x => markersOf (s.tanks x) x)).count ⟨b, c, .snapshotMarker⟩ =
      if (s.tanks b).left = some c ∨ (s.tanks b).right = some c then L.count b else 0 := by
  induction L with
  | nil => simp
  | cons x L ih =>
    rw [List.forall_mem_cons] at hL
    have hleft := h.left_eq hL.1
    have hright := h.right_eq hL.1
    have hne := h.left_ne_right hring hL.1
    rw [List.flatMap_cons, List.count_append, ih hL.2, markersOf_eq hleft hright, List.count_cons,
      List.count_cons, List.count_nil, List.count_cons]
    rw [hleft, hright, Ne, Option.some_inj] at hne
    rcases eq_or_ne x b with rfl | hother
    · rw [hleft, hright]
      simp only [beq_iff_eq, Network.Packet.mk.injEq, and_true, true_and, Option.some_inj]
      split_ifs <;> first | omega | simp_all
    · simp [hother]

theorem countP_markersOf (h : Assembled s) (hL : ∀ x ∈ L, x ∈ s.hosts) (b : InetSocketAddress) :
    (L.flatMap (fun x => markersOf (s.tanks x) x)).countP (fun p => p.src = b) = 2 * L.count b := by
  induction L with
  | nil => rfl
  | cons x L ih =>
    rw [List.forall_mem_cons] at hL
    rw [List.flatMap_cons, List.countP_append, ih hL.2,
      markersOf_eq (h.left_eq hL.1) (h.right_eq hL.1), List.countP_cons, List.countP_cons,
      List.countP_nil, List.count_cons]
    rcases eq_or_ne x b with rfl | hother
    · simp
      omega
    · simp [hother]

end Sent

structure Disciplined (os : List Occurrence) (s : System) : Prop where
  once : ∀ b, (recorders os).count b ≤ 1
  markers : ∀ b ∈ s.hosts, ∀ c, (markersSent os).count ⟨b, c, .snapshotMarker⟩ =
    if (s.tanks b).left = some c ∨ (s.tanks b).right = some c then (recorders os).count b else 0
  two : ∀ b ∈ s.hosts, (markersSent os).countP (fun p => p.src = b) = 2 * (recorders os).count b
  settled : (∀ b, markersTo s.network b = 0) →
    ∀ b ∈ s.hosts, (recorders os).count b = 1 ∧ (s.tanks b).recordState = .idle

theorem Flooding.disciplined {os : List Occurrence} {s : System} (h : Flooding os s)
    (hring : 3 ≤ s.hosts.length) (hsome : recorders os ≠ []) : Disciplined os s := by
  refine ⟨List.nodup_iff_count_le_one.mp h.once, ?_, ?_, ?_⟩
  · intro b _ c
    rw [h.sent]
    exact count_markersOf h.assembled hring h.hosts b c
  · intro b _
    rw [h.sent]
    exact countP_markersOf h.assembled h.hosts b
  · intro hnone b hb
    exact ⟨List.count_eq_one_of_mem h.once (h.all_recorded hnone hsome b hb),
      h.all_idle hnone hsome hb⟩

theorem marker_discipline {s₀ s : System} {call : Occurrence} {os : List Occurrence}
    (hassembled : Assembled s₀) (hring : 3 ≤ s₀.hosts.length)
    (hidle : ∀ b ∈ s₀.hosts, (s₀.tanks b).recordState = .idle)
    (hnone : ∀ p ∈ s₀.network, Packet.isMarker p = false) (hcall : Initiates call)
    (hrun : Run s₀ (call :: os) s) (honce : ∀ o ∈ os, ¬Initiates o) (hstays : ∀ o ∈ os, Stays o)
    (hsame : ∀ o ∈ os, SameNeighbour o) : Disciplined (call :: os) s := by
  obtain ⟨a, hcall⟩ := hcall
  obtain ⟨s₁, hfirst, hrest⟩ := hrun.uncons
  have hbegun : Flooding [call] s₁ := by
    refine (Flooding.init hassembled hidle ?_).initiates hfirst ?_ hcall List.not_mem_nil
    · intro b
      rw [markersTo, List.countP_eq_zero]
      intro p hp
      simp [hnone p hp]
    · intro b heq
      rw [hcall] at heq
      cases heq
  have hflooding : Flooding (call :: os) s ∧ s.hosts = s₀.hosts := by
    refine LabelledRun.Run.history (I := fun os s => Flooding (call :: os) s ∧ s.hosts = s₀.hosts)
      (G := fun o => ¬Initiates o ∧ Stays o ∧ SameNeighbour o) ⟨hbegun, hfirst.hosts_eq⟩ ?_ hrest
      (fun o ho => ⟨honce o ho, hstays o ho, hsame o ho⟩)
    rintro os s o s' _ ⟨hflooding, hhosts⟩ ⟨hno, hstay, hsame⟩ hstep
    exact ⟨hflooding.next hstep hstay hno hsame, hstep.hosts_eq.trans hhosts⟩
  have hrecorder : call.recorder = some a := by
    rw [Occurrence.recorder, hcall]
  refine hflooding.1.disciplined (by rw [hflooding.2]; exact hring) ?_
  rw [recorders, List.filterMap_cons_some hrecorder]
  exact List.cons_ne_nil _ _

def floodDeliveries (object : ℕ) : List Event :=
  [.initiateSnapshot (host 1), .deliver (host 1) (host 2) (0, 0),
    .deliver (host 1) (host 3) (object, 0), .deliver (host 2) (host 1) (0, 0),
    .deliver (host 3) (host 1) (0, 0), .deliver (host 2) (host 3) (0, 0),
    .deliver (host 3) (host 2) (0, 0)]

theorem marker_discipline_three :
    ∃ os s, Run (System.ringOf (fun a => toString a.port) [host 1, host 2, host 3]) os s ∧
      (∀ p ∈ s.network, Packet.isMarker p = false) ∧ Disciplined os s := by
  have hevents : ∃ r ∈ occurrences
      (System.ringOf (fun a => toString a.port) [host 1, host 2, host 3]) (floodDeliveries 0),
      (∃ call ∈ r.1.head?, Initiates call) ∧ (∀ p ∈ r.2.network, Packet.isMarker p = false) ∧
        (∀ o ∈ r.1.tail, ¬Initiates o) ∧ (∀ o ∈ r.1.tail, Stays o) ∧
          ∀ o ∈ r.1.tail, SameNeighbour o := by
    decide +kernel
  obtain ⟨⟨os, s⟩, hos, ⟨call, hhead, hcall⟩, hdone, honce, hstays, hsame⟩ := hevents
  have hrun := occurrences_run hos
  cases os with
  | nil => cases hhead
  | cons first os =>
    obtain rfl := Option.some_inj.mp hhead
    exact ⟨first :: os, s, hrun, hdone,
      marker_discipline (ringOf_assembled (by decide) (by decide) (by decide)) (by decide)
        (by decide +kernel) (by decide +kernel) hcall hrun honce hstays hsame⟩

theorem recorded_twice :
    ¬∀ (s₀ s : System) (call : Occurrence) (os : List Occurrence), Assembled s₀ →
      3 ≤ s₀.hosts.length → (∀ b ∈ s₀.hosts, (s₀.tanks b).recordState = .idle) →
        (∀ p ∈ s₀.network, Packet.isMarker p = false) → Initiates call → Run s₀ (call :: os) s →
          (∀ o ∈ os, ¬Initiates o) → (∀ o ∈ os, Stays o) → Disciplined (call :: os) s := by
  intro h
  have hevents : ∃ r ∈ occurrences
      (System.ringOf (fun a => toString a.port) [host 1, host 2, host 3]) (floodDeliveries 1),
      (∃ call ∈ r.1.head?, Initiates call) ∧ (∀ o ∈ r.1.tail, ¬Initiates o) ∧
        (∀ o ∈ r.1.tail, Stays o) ∧ ¬(recorders r.1).count (host 3) ≤ 1 := by
    decide +kernel
  obtain ⟨⟨os, s⟩, hos, ⟨call, hhead, hcall⟩, honce, hstays, htwice⟩ := hevents
  have hrun := occurrences_run hos
  cases os with
  | nil => cases hhead
  | cons first os =>
    obtain rfl := Option.some_inj.mp hhead
    exact htwice ((h _ s first os (ringOf_assembled (by decide) (by decide) (by decide)) (by decide)
      (by decide +kernel) (by decide +kernel) hcall hrun honce hstays).once (host 3))

end Aqualife
