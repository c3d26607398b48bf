import HTWGArchive.Aqualife.Registry
import HTWGArchive.Library.Ring

namespace Aqualife

abbrev Links :=
  Option InetSocketAddress × Option InetSocketAddress

def follow (links : Links) : Payload → Links
  | .neighbourUpdate neighbour .left => (some neighbour, links.2)
  | .neighbourUpdate neighbour .right => (links.1, some neighbour)
  | _ => links

def settle (links : Links) (messages : List Payload) : Links :=
  messages.foldl follow links

def TankModel.links (t : TankModel) : Links :=
  (t.left, t.right)

-- The neighbours a tank has once everything the broker sent it has been delivered.
def System.links (s : System) (a : InetSocketAddress) : Links :=
  settle (s.tanks a).links (Network.channel s.network brokerAddress a)

def RingSettled (s : System) : Prop :=
  ∀ a, ∀ h : a ∈ s.broker.addresses,
    s.links a = (some (s.broker.addresses.prev a h), some (s.broker.addresses.next a h))

def System.rightOf (s : System) (a : Option InetSocketAddress) : Option InetSocketAddress :=
  a.bind (fun a => (s.tanks a).right)

structure RingLinked (s : System) : Prop where
  neighbours : ∀ a, ∀ h : a ∈ s.broker.addresses,
    (s.tanks a).left = some (s.broker.addresses.prev a h) ∧
      (s.tanks a).right = some (s.broker.addresses.next a h)
  inverse : ∀ a ∈ s.broker.addresses, ∀ b ∈ s.broker.addresses,
    (s.tanks a).right = some b ↔ (s.tanks b).left = some a
  cycle : ∀ a ∈ s.broker.addresses, ∀ b ∈ s.broker.addresses, ∃ k, s.rightOf^[k] (some a) = some b

def Settled (s : System) : Prop :=
  ∀ p ∈ s.network, ∀ neighbour direction, p.payload ≠ .neighbourUpdate neighbour direction

def SmallLeave (o : Occurrence) : Prop :=
  ∀ sender id, o.handled = some (sender, .deregisterRequest (some id)) →
    id ∈ o.before.broker.ids → o.before.broker.addresses.length ≤ 2

instance (o : Occurrence) : Decidable (SmallLeave o) :=
  decidable_of_iff (∀ h ∈ o.handled, ∀ id ∈ o.before.broker.ids, h.2 = .deregisterRequest (some id) →
      o.before.broker.addresses.length ≤ 2) <| by
    constructor
    · intro h sender id hhandled hid
      exact h _ hhandled id hid rfl
    · rintro h ⟨sender, payload⟩ hhandled id hid rfl
      exact h sender id hhandled hid

structure Joined (s : System) : Prop where
  broker : brokerAddress ∉ s.hosts
  sent : ∀ p ∈ s.network, WellSent s p
  members : s.broker.addresses.Nodup
  hosts : ∀ a ∈ s.broker.addresses, a ∈ s.hosts

theorem settle_append (links : Links) (messages messages' : List Payload) :
    settle links (messages ++ messages') = settle (settle links messages) messages' :=
  List.foldl_append

theorem settle_of_quiet {links : Links} {messages : List Payload}
    (h : ∀ m ∈ messages, ∀ neighbour direction, m ≠ .neighbourUpdate neighbour direction) :
    settle links messages = links := by
  induction messages generalizing links with
  | nil => rfl
  | cons m messages ih =>
    have hm := h m List.mem_cons_self
    have hsame : follow links m = links := by
      cases m with
      | neighbourUpdate neighbour direction => exact absurd rfl (hm neighbour direction)
      | _ => rfl
    rw [settle, List.foldl_cons, hsame]
    exact ih (fun m' hm' => h m' (List.mem_cons_of_mem m hm'))

theorem follow_of_tank {links : Links} {payload : Payload} (h : payload.fromBroker = false) :
    follow links payload = links := by
  cases payload with
  | neighbourUpdate _ _ => cases h
  | _ => rfl

theorem channel_packetsFrom_other {src c : InetSocketAddress} (hne : c ≠ src) (sends : List Send)
    (b : InetSocketAddress) : Network.channel (packetsFrom src sends) c b = [] := by
  rw [Network.channel, List.map_eq_nil_iff, List.filter_eq_nil_iff]
  intro p hp
  have hsrc := (mem_packetsFrom.mp hp).1
  have hneq : p.src ≠ c := fun heq => hne (heq.symm.trans hsrc)
  simp [Network.onChannel, hneq]

theorem channel_packetsFrom (src b : InetSocketAddress) (sends : List Send) :
    Network.channel (packetsFrom src sends) src b =
      (sends.filter (fun m => m.1 = some b)).map Prod.snd := by
  induction sends with
  | nil => rfl
  | cons m sends ih =>
    obtain ⟨receiver, payload⟩ := m
    cases receiver with
    | none =>
      have hcons : packetsFrom src ((none, payload) :: sends) = packetsFrom src sends := rfl
      rw [hcons, ih]
      rfl
    | some dst =>
      have hcons : packetsFrom src ((some dst, payload) :: sends) =
          [⟨src, dst, payload⟩] ++ packetsFrom src sends := rfl
      rw [hcons, Network.channel_append, ih]
      rcases eq_or_ne dst b with rfl | hne
      · simp [Network.channel, Network.onChannel]
      · have hsome : some dst ≠ some b := fun heq => hne (Option.some_inj.mp heq)
        simp [Network.channel, Network.onChannel, hne]

theorem links_congr {t t' : TankModel}
    (h : t'.leftNeighbour = t.leftNeighbour ∧ t'.rightNeighbour = t.rightNeighbour) :
    t'.links = t.links := by
  rw [TankModel.links, TankModel.links, TankModel.left, TankModel.left, TankModel.right,
    TankModel.right, h.1, h.2]

theorem links_receive (t : TankModel) (fresh : ℕ) (sender : InetSocketAddress) (objects : ℕ × ℕ)
    (payload : Payload) :
    (t.receive fresh sender objects payload).1.links = follow t.links payload := by
  rcases Classical.em (∃ neighbour direction, payload = .neighbourUpdate neighbour direction) with
    ⟨neighbour, direction, rfl⟩ | hother
  · cases direction <;> rfl
  · have hne : ∀ neighbour direction, payload ≠ .neighbourUpdate neighbour direction :=
      fun neighbour direction heq => hother ⟨neighbour, direction, heq⟩
    have hsame : settle t.links [payload] = t.links :=
      settle_of_quiet (by simpa using hne)
    rw [links_congr (receive_neighbours t fresh sender objects hne)]
    exact hsame.symm

def addressed (a : InetSocketAddress) (sends : List Send) : List Payload :=
  (sends.filter (fun m => m.1 = some a)).map Prod.snd

theorem links_atTank {s : System} {network : List Packet} {c : InetSocketAddress}
    {r : TankModel × List Send} {created : ℕ} (hc : c ≠ brokerAddress) (a : InetSocketAddress) :
    ({ s with network := network }.atTank c r created).1.links a =
      settle (Function.update s.tanks c r.1 a).links (Network.channel network brokerAddress a) := by
  simp only [System.links, System.atTank, Network.channel_append,
    channel_packetsFrom_other hc.symm, List.append_nil]

theorem Step.links_cases {s s' : System} {o : Occurrence} (h : Step s o s') (hj : Joined s) :
    (s'.broker = s.broker ∧ o.handled = none ∧ ∀ a, s'.links a = s.links a) ∨
      ∃ sender payload, o.handled = some (sender, payload) ∧
        s'.broker = (s.broker.receive sender payload).1 ∧
        WellSent s ⟨sender, brokerAddress, payload⟩ ∧
        ∀ a ≠ brokerAddress, s'.links a =
          settle (s.links a) (addressed a (s.broker.receive sender payload).2) := by
  obtain ⟨rfl, _, hstep⟩ := h
  cases step_cases hstep with
  | tankActs c r created hc hacts heq =>
    left
    have hne : c ≠ brokerAddress := fun heq => hj.broker (heq ▸ hc)
    obtain rfl : s' = (o.before.atTank c r created).1 := congrArg Prod.fst heq
    refine ⟨rfl, ?_, ?_⟩
    · generalize he : o.event = e at hacts
      rw [Occurrence.handled, he]
      cases hacts <;> rfl
    · intro a
      refine (links_atTank hne a).trans ?_
      rcases eq_or_ne a c with rfl | ha
      · rw [Function.update_self, links_congr hacts.neighbours]
        rfl
      · rw [Function.update_of_ne ha]
        rfl
  | brokerReceives src objects payload network he hdel heq =>
    right
    obtain rfl := congrArg Prod.fst heq
    refine ⟨src, payload, handled_of_receives he hdel, rfl, hj.sent _ (Network.deliver_mem hdel), ?_⟩
    intro a ha
    have hkept : Network.channel network brokerAddress a =
        Network.channel o.before.network brokerAddress a := by
      apply Network.channel_deliver_other hdel
      intro heq
      exact ha (Prod.mk.inj heq).2
    simp only [System.links, System.atBroker, Network.channel_append, channel_packetsFrom,
      settle_append, hkept, addressed]
  | tankReceives src dst objects payload network he hdst hhost hdel heq =>
    left
    obtain rfl := congrArg Prod.fst heq
    refine ⟨rfl, ?_, ?_⟩
    · rw [Occurrence.handled, he]
      exact if_neg hdst
    · intro a
      rw [links_atTank hdst, System.links]
      rcases eq_or_ne a dst with rfl | ha
      · rw [Function.update_self, links_receive]
        rcases eq_or_ne src brokerAddress with rfl | hsrc
        · rw [Network.channel_deliver hdel]
          rfl
        · have hkept : Network.channel network brokerAddress a =
              Network.channel o.before.network brokerAddress a := by
            apply Network.channel_deliver_other hdel
            intro heq
            exact hsrc (Prod.mk.inj heq).1.symm
          have hquiet : follow (o.before.tanks a).links payload = (o.before.tanks a).links := by
            rcases hj.sent _ (Network.deliver_mem hdel) with ⟨hfrom, _⟩ | ⟨_, hother⟩
            · exact absurd hfrom hsrc
            · exact follow_of_tank hother
          rw [hkept, hquiet]
      · rw [Function.update_of_ne ha, Network.channel_deliver_other hdel]
        intro heq
        exact ha (Prod.mk.inj heq).2

theorem settle_addressed_quiet {links : Links} {a : InetSocketAddress} {sends : List Send}
    (h : ∀ m ∈ sends, ∀ neighbour direction, m.2 ≠ .neighbourUpdate neighbour direction) :
    settle links (addressed a sends) = links := by
  apply settle_of_quiet
  intro payload hmem
  obtain ⟨m, hm, rfl⟩ := List.mem_map.mp hmem
  exact h m (List.mem_of_mem_filter hm)

theorem welcome_quiet (b : Broker) (sender : InetSocketAddress) :
    ∀ m ∈ b.welcome sender, ∀ neighbour direction, m.2 ≠ .neighbourUpdate neighbour direction := by
  intro m hm neighbour direction heq
  rcases List.mem_cons.mp hm with rfl | hm
  · cases heq
  · split at hm
    · rw [List.mem_singleton.mp hm] at heq
      cases heq
    · cases hm

theorem settle_register (b : Broker) (links : Links) (first last sender a : InetSocketAddress) :
    settle links (addressed a (Broker.neighbourUpdates first last sender ++ b.welcome sender)) =
      if a = sender then (some last, some first)
      else (if first = a then some sender else links.1, if last = a then some sender else links.2) := by
  rw [addressed, List.filter_append, List.map_append, settle_append]
  have hwelcome : ∀ links, settle links (addressed a (b.welcome sender)) = links :=
    fun _ => settle_addressed_quiet (welcome_quiet b sender)
  rw [addressed] at hwelcome
  rw [hwelcome]
  rcases eq_or_ne last a with hlast | hlast <;> rcases eq_or_ne first a with hfirst | hfirst <;>
    rcases eq_or_ne a sender with rfl | hne
  all_goals simp [Broker.neighbourUpdates, settle, follow, *, Ne.symm]

theorem settle_deregister (links : Links) (neighbour a : InetSocketAddress) :
    settle links (addressed a [(some neighbour, .neighbourUpdate neighbour .right),
      (some neighbour, .neighbourUpdate neighbour .left)]) =
      if a = neighbour then (some neighbour, some neighbour) else links := by
  rcases eq_or_ne a neighbour with rfl | hne
  · simp [addressed, settle, follow]
  · simp [addressed, settle, hne, hne.symm]

theorem headD_eq_iff {l : List InetSocketAddress} {a b : InetSocketAddress} (hne : b ≠ a) :
    l.headD a = b ↔ l.head? = some b := by
  cases l with
  | nil => simp [hne.symm]
  | cons x l => simp

theorem getLastD_eq_iff {l : List InetSocketAddress} {a b : InetSocketAddress} (hne : b ≠ a) :
    l.getLastD a = b ↔ l.getLast? = some b := by
  cases l using List.reverseRecOn with
  | nil => simp [hne.symm]
  | append_singleton l x => simp

theorem getLastD_mem {T : Type} {l : List T} {c : T} (h : l ≠ []) : l.getLastD c ∈ l := by
  cases l using List.reverseRecOn with
  | nil => exact absurd rfl h
  | append_singleton l x => simp

namespace RingSettled

variable {s s' : System} {sender : InetSocketAddress}

theorem register (h : RingSettled s) (hnodup : s.broker.addresses.Nodup)
    (hnew : sender ∉ s.broker.addresses) (hbroker : s'.broker = (s.broker.register sender).1)
    (hlinks : ∀ a ∈ s'.broker.addresses,
      s'.links a = settle (s.links a) (addressed a (s.broker.register sender).2)) :
    RingSettled s' := by
  have haddresses : s'.broker.addresses = s.broker.addresses ++ [sender] := by
    rw [hbroker, Broker.register_new hnew]
    simp [Broker.addresses, ClientCollection.members, ClientCollection.add]
  have hnodup' : (s.broker.addresses ++ [sender]).Nodup := by
    rw [← List.concat_eq_append]
    exact List.Nodup.concat hnew hnodup
  intro a ha
  rw [hlinks a ha, Broker.register_new hnew, settle_register]
  simp only [haddresses] at ha ⊢
  rcases List.mem_append.mp ha with hold | hmem
  · have hne : a ≠ sender := fun heq => hnew (heq ▸ hold)
    have hbefore := h a hold
    rw [if_neg hne, Ring.prev_concat hnodup' hold, Ring.next_concat hnodup' hold, hbefore]
    simp only [headD_eq_iff hne, getLastD_eq_iff hne, apply_ite some]
  · obtain rfl := List.mem_singleton.mp hmem
    rw [if_pos rfl, Ring.prev_concat_self hnodup', Ring.next_concat_self hnodup']

-- With two clients the one that stays is alone; with more its links point at itself.
theorem deregister (hnodup : s.broker.addresses.Nodup) {id : String} (hid : id ∈ s.broker.ids) (hbroker : s'.broker = (s.broker.deregister id).1)
    (hlinks : ∀ a ∈ s'.broker.addresses,
      s'.links a = settle (s.links a) (addressed a (s.broker.deregister id).2)) :
    RingSettled s' ↔ s.broker.addresses.length ≤ 2 := by
  obtain ⟨front, c, back, hclients, _, heq⟩ := Broker.deregister_known hid
  have hbefore : s.broker.addresses = (front ++ c :: back).map Client.client := by
    rw [Broker.addresses, ClientCollection.members, hclients]
  have haddresses : s'.broker.addresses = (front ++ back).map Client.client := by
    rw [hbroker, heq]
    rfl
  have hnodup' : s'.broker.addresses.Nodup := by
    rw [haddresses]
    rw [hbefore] at hnodup
    exact hnodup.sublist
      (((List.Sublist.refl front).append (List.sublist_cons_self c back)).map Client.client)
  have hlength : s.broker.addresses.length = s'.broker.addresses.length + 1 := by
    rw [hbefore, haddresses]
    simp only [List.length_map, List.length_append, List.length_cons]
    omega
  generalize hd : ((back ++ front).getLastD c).client = neighbour at heq
  have hchanged : ∀ a ∈ s'.broker.addresses,
      s'.links a = if a = neighbour then (some neighbour, some neighbour) else s.links a := by
    intro a ha
    rw [hlinks a ha, heq, settle_deregister]
  have hneighbour : s'.broker.addresses ≠ [] → neighbour ∈ s'.broker.addresses := by
    rw [haddresses, ← hd]
    intro hne
    apply List.mem_map_of_mem
    rw [List.mem_append, Or.comm, ← List.mem_append]
    apply getLastD_mem
    intro hnil
    obtain ⟨rfl, rfl⟩ := List.append_eq_nil_iff.mp hnil
    exact hne rfl
  constructor
  · intro hsettled
    rw [hlength]
    by_contra hlong
    have hmem := hneighbour (List.ne_nil_of_length_pos (by omega))
    have hlink := hsettled neighbour hmem
    rw [hchanged neighbour hmem, if_pos rfl] at hlink
    exact Ring.prev_ne_self hnodup' (by omega) hmem
      (Option.some_inj.mp (congrArg Prod.fst hlink)).symm
  · intro hshort a ha
    have hmem := hneighbour (List.ne_nil_of_mem ha)
    obtain ⟨b, hb⟩ := List.length_eq_one_iff.mp
      (Nat.le_antisymm (by omega) (List.length_pos_of_mem ha))
    rw [hchanged a ha]
    simp only [hb] at ha hmem ⊢
    obtain rfl := List.mem_singleton.mp ha
    rw [if_pos (List.mem_singleton.mp hmem).symm, List.mem_singleton.mp hmem]
    simp

end RingSettled

theorem joined_start {hosts : List InetSocketAddress} (h : brokerAddress ∉ hosts) :
    Joined (System.start hosts) :=
  ⟨h, by simp [System.start], List.nodup_nil, fun _ ha => absurd ha List.not_mem_nil⟩

theorem Step.joined {s s' : System} {o : Occurrence} (h : Step s o s') (hj : Joined s) :
    Joined s' := by
  have hhosts := h.hosts_eq
  have hmembers : s'.broker.addresses.Nodup ∧ ∀ a ∈ s'.broker.addresses, a ∈ s.hosts := by
    rcases h.links_cases hj with ⟨hsame, _⟩ | ⟨sender, payload, _, hbroker, hwell, _⟩
    · rw [hsame]
      exact ⟨hj.members, hj.hosts⟩
    · rw [hbroker]
      rcases s.broker.receive_cases sender payload with ⟨rfl, hnew⟩ | ⟨id, rfl, hid⟩ | ⟨hsame, _⟩
      · have hsender : sender ∈ s.hosts := by
          rcases hwell with ⟨_, hfrom | hfrom⟩ | ⟨hhost, _⟩
          · cases hfrom
          · cases hfrom
          · exact hhost
        rw [Broker.receive, Broker.register_addresses hnew, List.forall_mem_append,
          List.forall_mem_singleton, ← List.concat_eq_append]
        exact ⟨List.Nodup.concat hnew hj.members, hj.hosts, hsender⟩
      · have hsub := Broker.deregister_addresses hid
        exact ⟨hj.members.sublist hsub, fun a ha => hj.hosts a (hsub.subset ha)⟩
      · rw [hsame]
        exact ⟨hj.members, hj.hosts⟩
  refine ⟨hhosts ▸ hj.broker, h.wellSent hj.sent, hmembers.1, ?_⟩
  rw [hhosts]
  exact hmembers.2

theorem Step.ringSettled {s s' : System} {o : Occurrence} (h : Step s o s') (hj : Joined s)
    (hring : RingSettled s) : RingSettled s' ↔ SmallLeave o := by
  have hj' := h.joined hj
  have hbefore : o.before = s := h.1
  have hne : ∀ a ∈ s'.broker.addresses, a ≠ brokerAddress :=
    fun a ha heq => hj'.broker (heq ▸ hj'.hosts a ha)
  rcases h.links_cases hj with ⟨hsame, hnone, hlinks⟩ |
      ⟨sender, payload, hhandled, hbroker, _, hlinks⟩
  · have hsettled : RingSettled s' := by
      intro a ha
      rw [hlinks]
      simp only [hsame] at ha ⊢
      exact hring a ha
    refine ⟨fun _ sender id hhandled => ?_, fun _ => hsettled⟩
    rw [hnone] at hhandled
    cases hhandled
  · rcases s.broker.receive_cases sender payload with ⟨rfl, hnew⟩ | ⟨id, rfl, hid⟩ |
        ⟨hsame, hother, hquiet⟩
    · have hsettled := hring.register hj.members hnew hbroker (fun a ha => hlinks a (hne a ha))
      refine ⟨fun _ sender' id hhandled' => ?_, fun _ => hsettled⟩
      rw [hhandled] at hhandled'
      cases hhandled'
    · rw [RingSettled.deregister hj.members hid hbroker (fun a ha => hlinks a (hne a ha))]
      constructor
      · intro hshort sender' id' _ _
        rw [hbefore]
        exact hshort
      · intro hsmall
        have hshort := hsmall sender id hhandled (hbefore ▸ hid)
        rwa [hbefore] at hshort
    · have hsettled : RingSettled s' := by
        intro a ha
        rw [hlinks a (hne a ha), settle_addressed_quiet hquiet]
        rw [hsame] at hbroker
        simp only [hbroker] at ha ⊢
        exact hring a ha
      refine ⟨fun _ sender' id hhandled' hid => ?_, fun _ => hsettled⟩
      rw [hhandled, Option.some_inj, Prod.mk.injEq] at hhandled'
      exact absurd (hbefore ▸ hid) (hother id hhandled'.2)

theorem RingSettled.linked {s : System} (h : RingSettled s) (hmembers : s.broker.addresses.Nodup)
    (hsettled : Settled s) : RingLinked s := by
  have hlinks : ∀ a, ∀ ha : a ∈ s.broker.addresses,
      (s.tanks a).left = some (s.broker.addresses.prev a ha) ∧
        (s.tanks a).right = some (s.broker.addresses.next a ha) := by
    intro a ha
    have hquiet : s.links a = (s.tanks a).links := by
      apply settle_of_quiet
      intro payload hmem
      exact hsettled _ (Network.of_mem_channel hmem)
    have hlink := h a ha
    rw [hquiet] at hlink
    exact Prod.mk.inj hlink
  refine ⟨hlinks, ?_, ?_⟩
  · intro a ha b hb
    rw [(hlinks a ha).2, (hlinks b hb).1, Option.some_inj, Option.some_inj]
    constructor
    · rintro rfl
      exact List.prev_next _ hmembers a ha
    · rintro rfl
      exact List.next_prev _ hmembers b hb
  · intro a ha b hb
    exact Ring.exists_iterate_next hmembers (fun c hc => (hlinks c hc).2) ha hb

theorem neighbours_consistent_iff (hosts : List InetSocketAddress) (os : List Occurrence) (s : System)
    (hbroker : brokerAddress ∉ hosts) (hrun : Run (System.start hosts) os s) :
    ((∀ o ∈ os, RingSettled o.after) ↔ ∀ o ∈ os, SmallLeave o) ∧
      ((∀ o ∈ os, SmallLeave o) → ∀ o ∈ os, Settled o.after → RingLinked o.after) := by
  have hiff : (∀ o ∈ os, RingSettled o.after) ↔ ∀ o ∈ os, SmallLeave o := by
    refine hrun.forall_label_iff (I := RingSettled) (J := Joined)
      ⟨joined_start hbroker, fun _ ha => absurd ha List.not_mem_nil⟩ ?_ ?_ ?_
    · exact fun s o s' hj hstep => hstep.joined hj
    · exact fun s o s' hj hring hstep => hstep.ringSettled hj hring
    · rintro s o s' ⟨_, rfl, _⟩
      exact Iff.rfl
  refine ⟨hiff, ?_⟩
  intro hsmall o ho hsettled
  have hjoined : ∀ o ∈ os, Joined o.after := by
    refine hrun.forall_label (I := Joined) (G := fun _ => True) (joined_start hbroker) ?_
      (fun _ _ => trivial)
    rintro s o s' hj _ hstep
    refine ⟨hstep.joined hj, ?_⟩
    rw [hstep.2.1]
    exact hstep.joined hj
  exact (hiff.mpr hsmall o ho).linked (hjoined o ho).members hsettled

theorem neighbours_consistent_two_join :
    ∃ os s, Run (System.start [host 1, host 2]) os s ∧ os.length = 14 ∧
      ∀ o ∈ os, Settled o.after → RingLinked o.after := by
  have hevents : ∃ r ∈ occurrences (System.start [host 1, host 2]) twoJoin,
      r.1.length = 14 ∧ ∀ o ∈ r.1, SmallLeave o := by
    decide +kernel
  obtain ⟨⟨os, s⟩, hos, hlen, hsmall⟩ := hevents
  have hrun := occurrences_run hos
  exact ⟨os, s, hrun, hlen,
    (neighbours_consistent_iff [host 1, host 2] os s (by decide) hrun).2 hsmall⟩

def firstOfThreeLeaves : List Event :=
  twoJoin ++ joins (host 3) 4 ++ [.finish (host 1), .deliver (host 1) brokerAddress (0, 0)] ++
    deliveries 3 brokerAddress (host 1) ++ deliveries 1 brokerAddress (host 2) ++
    deliveries 2 brokerAddress (host 3)

theorem leaver_breaks_ring :
    ¬∀ (hosts : List InetSocketAddress) (os : List Occurrence) (s : System),
      brokerAddress ∉ hosts → Run (System.start hosts) os s →
      ∀ o ∈ os, Settled o.after → RingLinked o.after := by
  intro h
  have hevents : ∃ r ∈ occurrences (System.start [host 1, host 2, host 3]) firstOfThreeLeaves,
      ∃ o ∈ r.1, o.after.network = [] ∧ o.after.broker.addresses = [host 2, host 3] ∧
        (o.after.tanks (host 3)).right = some (host 3) := by
    decide +kernel
  obtain ⟨⟨os, s⟩, hos, o, ho, hnetwork, haddresses, hright⟩ := hevents
  have hsettled : Settled o.after := by
    intro p hp
    rw [hnetwork] at hp
    cases hp
  have hlinked := h _ os s (by decide) (occurrences_run hos) o ho hsettled
  have hmem : host 3 ∈ o.after.broker.addresses := by
    rw [haddresses]
    decide
  have hnext := (hlinked.neighbours (host 3) hmem).2
  simp only [haddresses, hright] at hnext
  have hother : [host 2, host 3].next (host 3) (by decide) ≠ host 3 := by
    decide
  exact hother (Option.some_inj.mp hnext).symm

end Aqualife
