import HTWGArchive.Aqualife.ClientCollection
import Mathlib.Logic.Function.Basic

namespace Aqualife

structure Broker where
  clientCollection : ClientCollection InetSocketAddress
  hasToken : Bool
  nameService : String → Option InetSocketAddress

namespace Broker

def start : Broker :=
  ⟨⟨[]⟩, true, fun _ => none⟩

def register (b : Broker) (sender : InetSocketAddress) : Broker × List Send :=
  let sizeClients := b.clientCollection.size
  let clientId := s!"tank{sizeClients}"
  let indexClient := b.clientCollection.indexOf sender
  if indexClient ≠ -1 then
    (b, [(some sender,
      .registerResponse ((b.clientCollection.getId indexClient).getD clientId))])
  else
    let clientCollection := b.clientCollection.add clientId sender
    match clientCollection.getLeftNeighborOf sizeClients,
      clientCollection.getRightNeighborOf sizeClients with
    | some leftNeighbour, some rightNeighbour =>
      ({ b with
         clientCollection := clientCollection
         nameService := Function.update b.nameService clientId (some sender) },
       [(some leftNeighbour, .neighbourUpdate sender .right),
        (some rightNeighbour, .neighbourUpdate sender .left),
        (some sender, .neighbourUpdate leftNeighbour .left),
        (some sender, .neighbourUpdate rightNeighbour .right),
        (some sender, .registerResponse clientId)] ++
         if b.hasToken then [(some sender, .token)] else [])
    | _, _ => (b, [])

-- An id that is not registered has the index -1, where `ArrayList.get` throws.
def deregister (b : Broker) (id : String) : Broker × List Send :=
  let index := b.clientCollection.indexOfId id
  match b.clientCollection.getLeftNeighborOf index, b.clientCollection.getLeftNeighborOf index with
  | some leftNeighbour, some rightNeighbour =>
    ({ b with
       clientCollection := b.clientCollection.remove index
       nameService := Function.update b.nameService id none },
     [(some leftNeighbour, .neighbourUpdate rightNeighbour .right),
      (some rightNeighbour, .neighbourUpdate leftNeighbour .left)])
  | _, _ => (b, [])

def resoluteName (b : Broker) (tankId : String) (requestId : FishId) (sender : InetSocketAddress) :
    Broker × List Send :=
  (b, [(some sender, .nameResolutionResponse (b.nameService tankId) requestId)])

def receive (b : Broker) (sender : InetSocketAddress) : Payload → Broker × List Send
  | .registerRequest => b.register sender
  | .deregisterRequest (some id) => b.deregister id
  | .nameResolutionRequest tankId requestId => b.resoluteName tankId requestId sender
  | _ => (b, [])

def addresses (b : Broker) : List InetSocketAddress :=
  b.clientCollection.members

def ids (b : Broker) : List String :=
  b.clientCollection.ids

def nextId (b : Broker) : String :=
  s!"tank{b.clientCollection.size}"

theorem register_known {b : Broker} {sender : InetSocketAddress} (h : sender ∈ b.addresses) :
    ∃ c ∈ b.clientCollection.clients, c.client = sender ∧
      b.register sender = (b, [(some sender, .registerResponse c.id)]) := by
  obtain ⟨i, hi, hindex, hclient⟩ := ClientCollection.indexOf_of_mem h
  refine ⟨_, List.getElem_mem hi, hclient, ?_⟩
  have hne : (i : ℤ) ≠ -1 := by omega
  have hid : b.clientCollection.getId i = some (b.clientCollection.clients[i]).id := by
    rw [ClientCollection.getId, ClientCollection.get_natCast, List.getElem?_eq_getElem hi]
    rfl
  simp only [register, hindex, if_pos hne, hid, Option.getD_some]

-- The client after the last one and the client before the first one are neighbours.
def neighbourUpdates (first last sender : InetSocketAddress) : List Send :=
  [(some last, .neighbourUpdate sender .right), (some first, .neighbourUpdate sender .left),
    (some sender, .neighbourUpdate last .left), (some sender, .neighbourUpdate first .right)]

def welcome (b : Broker) (sender : InetSocketAddress) : List Send :=
  (some sender, .registerResponse b.nextId) :: if b.hasToken then [(some sender, .token)] else []

theorem newcomer_neighbours {c : ClientCollection InetSocketAddress} (id : String)
    (sender : InetSocketAddress) :
    (c.add id sender).getLeftNeighborOf c.size = some (c.members.getLastD sender) ∧
      (c.add id sender).getRightNeighborOf c.size = some (c.members.headD sender) := by
  obtain ⟨clients⟩ := c
  have hlen : (clients ++ [(⟨id, sender⟩ : Client InetSocketAddress)]).length = clients.length + 1 := by
    simp
  refine ⟨?_, ?_⟩
  · rw [ClientCollection.size, ClientCollection.getLeftNeighborOf_eq (by simp [ClientCollection.add])]
    simp only [ClientCollection.add, ClientCollection.members, hlen, List.map_append, List.map_cons,
      List.map_nil]
    cases clients using List.reverseRecOn with
    | nil => rfl
    | append_singleton front x =>
      have hindex : ((front ++ [x]).length + ((front ++ [x]).length + 1) - 1) %
          ((front ++ [x]).length + 1) = front.length := by
        have hsplit : (front ++ [x]).length + ((front ++ [x]).length + 1) - 1 =
            front.length + ((front ++ [x]).length + 1) := by
          rw [List.length_append, List.length_singleton]
          omega
        rw [hsplit, Nat.add_mod_right, Nat.mod_eq_of_lt]
        simp only [List.length_append, List.length_singleton]
        omega
      rw [hindex]
      simp
  · rw [ClientCollection.size, ClientCollection.getRightNeighborOf_eq]
    simp only [ClientCollection.add, ClientCollection.members, hlen, List.map_append, List.map_cons,
      List.map_nil, Nat.mod_self]
    cases clients with
    | nil => rfl
    | cons x rest => rfl

theorem register_new {b : Broker} {sender : InetSocketAddress} (h : sender ∉ b.addresses) :
    b.register sender =
      ({ b with
         clientCollection := b.clientCollection.add b.nextId sender
         nameService := Function.update b.nameService b.nextId (some sender) },
       neighbourUpdates (b.addresses.headD sender) (b.addresses.getLastD sender) sender ++
         b.welcome sender) := by
  obtain ⟨hleft, hright⟩ := newcomer_neighbours (c := b.clientCollection) b.nextId sender
  have hindex := ClientCollection.indexOf_of_notMem h
  simp only [register, hindex, ne_eq, not_true_eq_false, if_false]
  rw [← nextId, hleft, hright]
  rfl

theorem deregister_unknown {b : Broker} {id : String} (h : id ∉ b.ids) :
    b.deregister id = (b, []) := by
  have hindex := ClientCollection.indexOfId_of_notMem h
  simp [deregister, hindex, ClientCollection.getLeftNeighborOf, ClientCollection.get]

theorem leaver_neighbour (front back : List (Client InetSocketAddress))
    (c : Client InetSocketAddress) :
    (ClientCollection.mk (front ++ c :: back)).getLeftNeighborOf (front.length : ℤ) =
      some ((back ++ front).getLastD c).client := by
  rw [ClientCollection.getLeftNeighborOf]
  cases front using List.reverseRecOn with
  | nil =>
    have hsize : (ClientCollection.mk (c :: back)).size - 1 = ((back.length : ℕ) : ℤ) := by
      simp [ClientCollection.size]
    rw [List.length_nil, if_pos Nat.cast_zero, List.nil_append, hsize, ClientCollection.get_natCast,
      List.append_nil]
    have hlast : (c :: back)[back.length]? = some (back.getLastD c) := by
      cases back using List.reverseRecOn with
      | nil => rfl
      | append_singleton back x => simp
    simp only [hlast, Option.map_some]
  | append_singleton front x =>
    have hne : ((front ++ [x]).length : ℤ) ≠ 0 := by
      rw [List.length_append, List.length_singleton]
      omega
    have hindex : ((front ++ [x]).length : ℤ) - 1 = (front.length : ℤ) := by
      rw [List.length_append, List.length_singleton]
      omega
    have hlast : (front ++ [x] ++ c :: back)[front.length]? = some x := by
      rw [List.append_assoc, List.getElem?_append_right (le_refl _), Nat.sub_self]
      rfl
    rw [if_neg hne, hindex, ClientCollection.get_natCast, hlast]
    simp [← List.append_assoc]

theorem deregister_known {b : Broker} {id : String} (h : id ∈ b.ids) :
    ∃ front c back, b.clientCollection.clients = front ++ c :: back ∧ c.id = id ∧
      b.deregister id =
        ({ b with
           clientCollection := ⟨front ++ back⟩
           nameService := Function.update b.nameService id none },
         [(some ((back ++ front).getLastD c).client,
            .neighbourUpdate ((back ++ front).getLastD c).client .right),
          (some ((back ++ front).getLastD c).client,
            .neighbourUpdate ((back ++ front).getLastD c).client .left)]) := by
  obtain ⟨i, hi, hindex, hid⟩ := ClientCollection.indexOfId_of_mem h
  obtain ⟨⟨clients⟩, hasToken, nameService⟩ := b
  have hsplit : clients = clients.take i ++ clients[i] :: clients.drop (i + 1) := by simp
  have hlen : (clients.take i).length = i := by
    rw [List.length_take]
    exact Nat.min_eq_left (Nat.le_of_lt hi)
  have hleft := leaver_neighbour (clients.take i) (clients.drop (i + 1)) clients[i]
  rw [hlen, ← hsplit] at hleft
  refine ⟨clients.take i, clients[i], clients.drop (i + 1), hsplit, hid, ?_⟩
  simp only [deregister, hindex, hleft, ClientCollection.remove, Int.toNat_natCast,
    List.eraseIdx_eq_take_drop_succ]

theorem register_addresses {b : Broker} {sender : InetSocketAddress} (h : sender ∉ b.addresses) :
    (b.register sender).1.addresses = b.addresses ++ [sender] := by
  rw [register_new h]
  simp [addresses, ClientCollection.members, ClientCollection.add]

theorem deregister_addresses {b : Broker} {id : String} (h : id ∈ b.ids) :
    (b.deregister id).1.addresses.Sublist b.addresses := by
  obtain ⟨front, c, back, hclients, _, heq⟩ := deregister_known h
  rw [heq, addresses, addresses, ClientCollection.members, ClientCollection.members, hclients]
  exact ((List.Sublist.refl front).append (List.sublist_cons_self c back)).map Client.client

-- A message that is neither a first registration nor a deregistration leaves the ring alone.
theorem receive_cases (b : Broker) (sender : InetSocketAddress) (payload : Payload) :
    (payload = .registerRequest ∧ sender ∉ b.addresses) ∨
      (∃ id, payload = .deregisterRequest (some id) ∧ id ∈ b.ids) ∨
      (b.receive sender payload).1 = b ∧
        (∀ id, payload = .deregisterRequest (some id) → id ∉ b.ids) ∧
        ∀ m ∈ (b.receive sender payload).2, ∀ neighbour direction,
          m.2 ≠ .neighbourUpdate neighbour direction := by
  cases payload with
  | registerRequest =>
    rcases Decidable.em (sender ∈ b.addresses) with hknown | hnew
    · obtain ⟨c, _, _, heq⟩ := register_known hknown
      right; right
      rw [receive, heq]
      simp
    · exact Or.inl ⟨rfl, hnew⟩
  | deregisterRequest id =>
    cases id with
    | none =>
      right; right
      simp [receive]
    | some id =>
      rcases Decidable.em (id ∈ b.ids) with hknown | hunknown
      · exact Or.inr (Or.inl ⟨id, rfl, hknown⟩)
      · right; right
        rw [receive, deregister_unknown hunknown]
        simp [hunknown]
  | nameResolutionRequest tankId requestId =>
    right; right
    simp [receive, resoluteName]
  | _ =>
    right; right
    simp [receive]

theorem receive_sends {b : Broker} {sender : InetSocketAddress} {payload : Payload} {m : Send}
    (hm : m ∈ (b.receive sender payload).2) : m.2.fromBroker = true ∨ m.2 = .token := by
  cases payload with
  | registerRequest =>
    rcases Decidable.em (sender ∈ b.addresses) with hknown | hnew
    · obtain ⟨c, _, _, heq⟩ := register_known hknown
      rw [receive, heq, List.mem_singleton] at hm
      rw [hm]
      exact Or.inl rfl
    · rw [receive, register_new hnew] at hm
      simp only [neighbourUpdates, welcome, List.cons_append, List.nil_append, List.mem_cons] at hm
      rcases hm with rfl | rfl | rfl | rfl | rfl | hm
      · exact Or.inl rfl
      · exact Or.inl rfl
      · exact Or.inl rfl
      · exact Or.inl rfl
      · exact Or.inl rfl
      · split at hm
        · rw [List.mem_singleton.mp hm]
          exact Or.inr rfl
        · exact absurd hm List.not_mem_nil
  | deregisterRequest id =>
    cases id with
    | none => exact absurd hm List.not_mem_nil
    | some id =>
      rcases Decidable.em (id ∈ b.ids) with hknown | hunknown
      · obtain ⟨front, c, back, _, _, heq⟩ := deregister_known hknown
        rw [receive, heq] at hm
        simp only [List.mem_cons, List.not_mem_nil, or_false] at hm
        rcases hm with rfl | rfl
        · exact Or.inl rfl
        · exact Or.inl rfl
      · rw [receive, deregister_unknown hunknown] at hm
        exact absurd hm List.not_mem_nil
  | nameResolutionRequest tankId requestId =>
    rw [receive, resoluteName, List.mem_singleton] at hm
    rw [hm]
    exact Or.inl rfl
  | registerResponse _ => exact absurd hm List.not_mem_nil
  | neighbourUpdate _ _ => exact absurd hm List.not_mem_nil
  | token => exact absurd hm List.not_mem_nil
  | handoffRequest _ => exact absurd hm List.not_mem_nil
  | snapshotMarker => exact absurd hm List.not_mem_nil
  | collectToken _ => exact absurd hm List.not_mem_nil
  | locationRequest _ => exact absurd hm List.not_mem_nil
  | locationUpdate _ => exact absurd hm List.not_mem_nil
  | nameResolutionResponse _ _ => exact absurd hm List.not_mem_nil

end Broker

end Aqualife
