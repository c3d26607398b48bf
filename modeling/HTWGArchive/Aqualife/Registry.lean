import HTWGArchive.Aqualife.System

namespace Aqualife

structure NamesAgree (b : Broker) : Prop where
  distinct : b.ids.Nodup
  exactly : ∀ id, (b.nameService id).isSome ↔ id ∈ b.ids
  stored : ∀ c ∈ b.clientCollection.clients, b.nameService c.id = some c.client

def FreshId (o : Occurrence) : Prop :=
  o.newRegistration = true → o.before.broker.nextId ∉ o.before.broker.ids

instance (o : Occurrence) : Decidable (FreshId o) :=
  inferInstanceAs (Decidable (_ → _))

theorem start_namesAgree : NamesAgree Broker.start :=
  ⟨List.nodup_nil, fun id => by simp [Broker.start, Broker.ids, ClientCollection.ids],
    fun c hc => absurd hc List.not_mem_nil⟩

namespace NamesAgree

variable {b : Broker}

theorem register (h : NamesAgree b) {sender : InetSocketAddress} (hnew : sender ∉ b.addresses) :
    NamesAgree (b.register sender).1 ↔ b.nextId ∉ b.ids := by
  rw [Broker.register_new hnew]
  have hids : ∀ ns, (Broker.mk (b.clientCollection.add b.nextId sender) b.hasToken ns).ids =
      b.ids ++ [b.nextId] := by
    intro ns
    rw [Broker.ids, Broker.ids, ClientCollection.ids, ClientCollection.ids, ClientCollection.add,
      List.map_append]
    rfl
  constructor
  · intro hagree
    have hnodup := hagree.distinct
    rw [hids, List.nodup_append] at hnodup
    exact fun hmem => hnodup.2.2 _ hmem _ List.mem_cons_self rfl
  · intro hfresh
    refine ⟨?_, ?_, ?_⟩
    · rw [hids, ← List.concat_eq_append]
      exact List.Nodup.concat hfresh h.distinct
    · intro id
      rw [hids, List.mem_append, List.mem_singleton]
      rcases eq_or_ne id b.nextId with rfl | hne
      · simp
      · simp only [Function.update_of_ne hne, hne, or_false]
        exact h.exactly id
    · intro c hc
      rcases List.mem_append.mp hc with hc | hc
      · have hne : c.id ≠ b.nextId := fun heq => hfresh (heq ▸ List.mem_map_of_mem hc)
        simp only [Function.update_of_ne hne]
        exact h.stored c hc
      · obtain rfl := List.mem_singleton.mp hc
        exact Function.update_self _ _ _

theorem deregister (h : NamesAgree b) (id : String) : NamesAgree (b.deregister id).1 := by
  rcases Decidable.em (id ∈ b.ids) with hmem | hunknown
  · obtain ⟨front, c, back, hclients, rfl, heq⟩ := Broker.deregister_known hmem
    rw [heq]
    have hids : b.ids = front.map Client.id ++ c.id :: back.map Client.id := by
      rw [Broker.ids, ClientCollection.ids, hclients, List.map_append, List.map_cons]
    have hnodup := h.distinct
    rw [hids, List.nodup_middle, List.nodup_cons, ← List.map_append] at hnodup
    refine ⟨hnodup.2, ?_, ?_⟩
    · intro id
      have hkeys : id ∈ b.ids ↔ id = c.id ∨ id ∈ (front ++ back).map Client.id := by
        rw [hids, List.map_append]
        simp only [List.mem_append, List.mem_cons]
        tauto
      change (Function.update b.nameService c.id none id).isSome ↔ id ∈ (front ++ back).map Client.id
      rcases eq_or_ne id c.id with rfl | hne
      · simp only [Function.update_self, Option.isSome_none, Bool.false_eq_true, false_iff]
        exact hnodup.1
      · rw [Function.update_of_ne hne, h.exactly id, hkeys]
        simp [hne]
    · intro x hx
      have hne : x.id ≠ c.id := fun heq => hnodup.1 (heq ▸ List.mem_map_of_mem hx)
      have hmem : x ∈ b.clientCollection.clients := by
        rw [hclients]
        rcases List.mem_append.mp hx with hx | hx
        · exact List.mem_append_left _ hx
        · exact List.mem_append_right _ (List.mem_cons_of_mem c hx)
      simp only [Function.update_of_ne hne]
      exact h.stored x hmem
  · rw [Broker.deregister_unknown hunknown]
    exact h

theorem receive (h : NamesAgree b) (sender : InetSocketAddress) (payload : Payload)
    (hfresh : payload = .registerRequest → sender ∉ b.addresses → b.nextId ∉ b.ids) :
    NamesAgree (b.receive sender payload).1 := by
  cases payload with
  | registerRequest =>
    rcases Decidable.em (sender ∈ b.addresses) with hknown | hnew
    · obtain ⟨c, _, _, heq⟩ := Broker.register_known hknown
      rw [Broker.receive, heq]
      exact h
    · exact (h.register hnew).mpr (hfresh rfl hnew)
  | deregisterRequest id =>
    cases id with
    | none => exact h
    | some id => exact h.deregister id
  | nameResolutionRequest tankId requestId => exact h
  | registerResponse _ => exact h
  | neighbourUpdate _ _ => exact h
  | token => exact h
  | handoffRequest _ => exact h
  | snapshotMarker => exact h
  | collectToken _ => exact h
  | locationRequest _ => exact h
  | locationUpdate _ => exact h
  | nameResolutionResponse _ _ => exact h

end NamesAgree

theorem newRegistration_iff {o : Occurrence} :
    o.newRegistration = true ↔
      ∃ sender, o.handled = some (sender, .registerRequest) ∧ sender ∉ o.before.broker.addresses := by
  rw [Occurrence.newRegistration]
  split
  · rename_i sender heq
    rw [heq]
    simp
  · rename_i hne
    simp only [Bool.false_eq_true, false_iff, not_exists, not_and]
    intro sender heq
    exact absurd heq (hne sender)

theorem Step.broker_cases {s s' : System} {o : Occurrence} (h : Step s o s') :
    s'.broker = s.broker ∧ o.handled = none ∨
      ∃ sender payload, o.handled = some (sender, payload) ∧
        s'.broker = (s.broker.receive sender payload).1 := by
  obtain ⟨rfl, _, hstep⟩ := h
  cases step_cases hstep with
  | tankActs a r created _ hacts heq =>
    left
    refine ⟨congrArg (fun x : System × List Packet => x.1.broker) heq, ?_⟩
    generalize he : o.event = e at hacts
    rw [Occurrence.handled, he]
    cases hacts <;> rfl
  | brokerReceives src objects payload network he hdel heq =>
    right
    exact ⟨src, payload, handled_of_receives he hdel,
      congrArg (fun x : System × List Packet => x.1.broker) heq⟩
  | tankReceives src dst objects payload network he hdst _ _ heq =>
    left
    refine ⟨congrArg (fun x : System × List Packet => x.1.broker) heq, ?_⟩
    rw [Occurrence.handled, he]
    exact if_neg hdst

theorem Step.namesAgree {s s' : System} {o : Occurrence} (h : Step s o s')
    (hagree : NamesAgree s.broker) : NamesAgree s'.broker ↔ FreshId o := by
  have hbefore : o.before = s := h.1
  rcases h.broker_cases with ⟨hsame, hnone⟩ | ⟨sender, payload, hhandled, hbroker⟩
  · rw [hsame]
    refine ⟨fun _ hnew => ?_, fun _ => hagree⟩
    obtain ⟨_, hsome, _⟩ := newRegistration_iff.mp hnew
    rw [hnone] at hsome
    cases hsome
  · rw [hbroker]
    constructor
    · intro hnext hnew
      obtain ⟨sender', hhandled', hunknown⟩ := newRegistration_iff.mp hnew
      obtain ⟨rfl, rfl⟩ := Prod.mk.inj (Option.some_inj.mp (hhandled.symm.trans hhandled'))
      rw [hbefore] at hunknown ⊢
      exact (hagree.register hunknown).mp hnext
    · intro hfresh
      apply hagree.receive
      rintro rfl hunknown
      rw [← hbefore] at hunknown ⊢
      exact hfresh (newRegistration_iff.mpr ⟨sender, hhandled, hunknown⟩)

theorem ids_unique_iff (hosts : List InetSocketAddress) (os : List Occurrence) (s : System)
    (hrun : Run (System.start hosts) os s) :
    (∀ o ∈ os, NamesAgree o.after.broker) ↔ ∀ o ∈ os, FreshId o := by
  refine hrun.forall_label_iff (I := fun s => NamesAgree s.broker) (J := fun _ => True)
    ⟨trivial, start_namesAgree⟩ (fun _ _ _ _ _ => trivial) ?_ ?_
  · exact fun s o s' _ hagree hstep => hstep.namesAgree hagree
  · rintro s o s' ⟨_, rfl, _⟩
    exact Iff.rfl

def host (port : ℕ) : InetSocketAddress :=
  ⟨"localhost", port⟩

def deliveries (n : ℕ) (src dst : InetSocketAddress) : List Event :=
  List.replicate n (.deliver src dst (0, 0))

-- The broker answers the first tank with six messages, every later one with four.
def joins (a : InetSocketAddress) (answers : ℕ) : List Event :=
  .register a :: .deliver a brokerAddress (0, 0) :: deliveries answers brokerAddress a

def twoJoin : List Event :=
  joins (host 1) 6 ++ joins (host 2) 4

theorem ids_unique_two_join :
    ∃ os s, Run (System.start [host 1, host 2]) os s ∧ os.length = 14 ∧
      ∀ o ∈ os, NamesAgree o.after.broker := by
  have hevents : ∃ r ∈ occurrences (System.start [host 1, host 2]) twoJoin,
      r.1.length = 14 ∧ ∀ o ∈ r.1, FreshId o := by
    decide +kernel
  obtain ⟨⟨os, s⟩, hos, hlen, hfresh⟩ := hevents
  have hrun := occurrences_run hos
  exact ⟨os, s, hrun, hlen, (ids_unique_iff [host 1, host 2] os s hrun).mpr hfresh⟩

def firstLeaves : List Event :=
  twoJoin ++
    [.finish (host 1), .deliver (host 1) brokerAddress (0, 0), .register (host 3),
      .deliver (host 3) brokerAddress (0, 0)]

theorem id_given_twice :
    ¬∀ (hosts : List InetSocketAddress) (os : List Occurrence) (s : System),
      Run (System.start hosts) os s → ∀ o ∈ os, NamesAgree o.after.broker := by
  intro h
  have hevents : ∃ r ∈ occurrences (System.start [host 1, host 2, host 3]) firstLeaves,
      ∃ o ∈ r.1, ¬o.after.broker.ids.Nodup := by
    decide +kernel
  obtain ⟨⟨os, s⟩, hos, o, ho, hbad⟩ := hevents
  exact hbad (h _ os s (occurrences_run hos) o ho).distinct

end Aqualife
