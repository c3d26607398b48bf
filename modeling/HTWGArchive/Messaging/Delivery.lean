import HTWGArchive.Messaging.SecureEndpoint

namespace Messaging

variable {A Key Secret P S : Type} [DecidableEq A]

def System.channel (s : System A Key Secret S) (a b : A) : List (Content Key S) :=
  Network.channel s.network a b

def System.knows (s : System A Key Secret S) (b a : A) : Prop :=
  (s.endpoints b).communicationPartners a ≠ none

def System.learned (s : System A Key Secret S) (b a : A) (key : Key) : System A Key Secret S :=
  { s with
    endpoints := Function.update s.endpoints b
      { s.endpoints b with
        communicationPartners :=
          Function.update (s.endpoints b).communicationPartners a (some key) } }

theorem learned_partners (s : System A Key Secret S) (b a : A) (key : Key) (d e : A) :
    ((s.learned b a key).endpoints d).communicationPartners e =
      if d = b ∧ e = a then some key else (s.endpoints d).communicationPartners e := by
  rcases eq_or_ne d b with rfl | hd
  · rcases eq_or_ne e a with rfl | he
    · simp [System.learned]
    · simp [System.learned, he]
  · simp [System.learned, hd]

theorem knows_learned {s : System A Key Secret S} {b a : A} {key : Key} {d e : A} :
    (s.learned b a key).knows d e ↔ d = b ∧ e = a ∨ s.knows d e := by
  rw [System.knows, learned_partners]
  split
  · simp [*]
  · simp [System.knows, *]

theorem channel_reply (a b : A) (m : Content Key S) (d e : A) :
    Network.channel [(⟨a, b, m⟩ : Packet A Key S)] d e = if d = a ∧ e = b then [m] else [] := by
  rcases eq_or_ne d a with rfl | hd
  · rcases eq_or_ne e b with rfl | he
    · simp [Network.channel, Network.onChannel]
    · simp [Network.channel, Network.onChannel, he, he.symm]
  · simp [Network.channel, Network.onChannel, hd, hd.symm]

section Handle

variable {c : Ciphers Key Secret P S} {s : System A Key Secret S} {a b : A}
  {network : List (Packet A Key S)}

theorem handle_nothing : s.handle c b none = ⟨[], none, s⟩ := by
  simp [System.handle, SecureEndpoint.handleMessage, packets]

theorem handle_known {key : Key} (h : s.knows b a) :
    { s with network := network }.handle c b (some ⟨.keyExchangeMessage key, a⟩) =
      ⟨[], none, { s with network := network }⟩ := by
  have hsome : ((s.endpoints b).communicationPartners a).isNone = false := by
    rwa [Option.isNone_eq_false_iff, Option.isSome_iff_ne_none]
  simp [System.handle, SecureEndpoint.handleMessage, hsome, packets]

theorem handle_unknown {key : Key} (h : (s.endpoints b).communicationPartners a = none) :
    { s with network := network }.handle c b (some ⟨.keyExchangeMessage key, a⟩) =
      ⟨[⟨b, a, .keyExchangeMessage (s.endpoints b).publicKey⟩], none,
        { s.learned b a key with
          network := network ++ [⟨b, a, .keyExchangeMessage (s.endpoints b).publicKey⟩] }⟩ := by
  simp [System.handle, SecureEndpoint.handleMessage, h, packets, System.learned]

theorem handle_sealed {key : Key} {object : S}
    (hmode : (s.endpoints b).encryptionMode = .asymmetrical)
    (h : (s.endpoints b).communicationPartners a = some key) :
    { s with network := network }.handle c b (some ⟨.sealedObject object, a⟩) =
      ⟨[], (c.decryptAsymmetrical key object).map (fun payload => ⟨payload, a⟩),
        { s with network := network }⟩ := by
  simp [System.handle, SecureEndpoint.handleMessage, SecureEndpoint.decryptAsymmetrical, h, hmode,
    packets]

end Handle

structure Announced (c : Ciphers Key Secret P S) (keys : A → KeyPair Key Secret)
    (s : System A Key Secret S) : Prop where
  own : ∀ a, (s.endpoints a).encryptionMode = .asymmetrical ∧
    (s.endpoints a).publicKey = (keys a).publicKey ∧
    (s.endpoints a).privateKey = (keys a).privateKey
  stored : ∀ a b key, (s.endpoints b).communicationPartners a = some key → key = (keys a).publicKey
  carried : ∀ a b key, .keyExchangeMessage key ∈ s.channel a b → key = (keys a).publicKey
  encrypted : ∀ a b object, .sealedObject object ∈ s.channel a b →
    ∃ payload, object = c.encryptAsymmetrical (keys a).privateKey payload
  answered : ∀ a b, s.knows a b → s.knows b a ∨ s.channel a b ≠ []
  first : ∀ a b object, (s.channel a b).head? = some (.sealedObject object) → s.knows b a

variable {c : Ciphers Key Secret P S} {keys : A → KeyPair Key Secret} {s : System A Key Secret S}

theorem announced_start : Announced c keys (System.start keys : System A Key Secret S) := by
  refine ⟨fun a => ⟨rfl, rfl, rfl⟩, ?_, ?_, ?_, ?_, ?_⟩
  · intro a b key h
    cases h
  · intro a b key h
    cases h
  · intro a b object h
    cases h
  · intro a b h
    exact absurd rfl h
  · intro a b object h
    cases h

namespace Announced

theorem append (h : Announced c keys s) (network : List (Packet A Key S))
    (hcarried : ∀ a b key, .keyExchangeMessage key ∈ Network.channel network a b →
      key = (keys a).publicKey)
    (hencrypted : ∀ a b object, .sealedObject object ∈ Network.channel network a b →
      ∃ payload, object = c.encryptAsymmetrical (keys a).privateKey payload)
    (hfirst : ∀ a b object, s.channel a b = [] →
      (Network.channel network a b).head? = some (.sealedObject object) → s.knows b a) :
    Announced c keys { s with network := s.network ++ network } := by
  have hchannel : ∀ a b, System.channel { s with network := s.network ++ network } a b =
      s.channel a b ++ Network.channel network a b :=
    fun a b => Network.channel_append s.network network a b
  refine ⟨h.own, h.stored, ?_, ?_, ?_, ?_⟩
  · intro a b key hmem
    rw [hchannel] at hmem
    rcases List.mem_append.mp hmem with hold | hnew
    · exact h.carried a b key hold
    · exact hcarried a b key hnew
  · intro a b object hmem
    rw [hchannel] at hmem
    rcases List.mem_append.mp hmem with hold | hnew
    · exact h.encrypted a b object hold
    · exact hencrypted a b object hnew
  · intro a b hknows
    rw [hchannel]
    rcases h.answered a b hknows with hback | hwaiting
    · exact Or.inl hback
    · exact Or.inr (List.append_ne_nil_of_left_ne_nil hwaiting _)
  · intro a b object hhead
    rw [hchannel] at hhead
    cases hold : s.channel a b with
    | nil =>
      rw [hold, List.nil_append] at hhead
      exact hfirst a b object hold hhead
    | cons m rest =>
      rw [hold, List.cons_append, List.head?_cons] at hhead
      apply h.first a b object
      rw [hold, List.head?_cons, hhead]

theorem learn (h : Announced c keys s) {a b : A} (hwaiting : s.channel b a ≠ []) :
    Announced c keys (s.learned b a (keys a).publicKey) := by
  refine ⟨?_, ?_, h.carried, h.encrypted, ?_, ?_⟩
  · intro d
    rcases eq_or_ne d b with rfl | hne
    · simp only [System.learned, Function.update_self]
      exact h.own d
    · simp only [System.learned, Function.update_of_ne hne]
      exact h.own d
  · intro e d key hkey
    simp only [learned_partners] at hkey
    split at hkey
    · rename_i heq
      rw [heq.2]
      exact (Option.some_inj.mp hkey).symm
    · exact h.stored e d key hkey
  · intro d e hknows
    rcases knows_learned.mp hknows with ⟨rfl, rfl⟩ | hold
    · exact Or.inr hwaiting
    · rcases h.answered d e hold with hback | hnonempty
      · exact Or.inl (knows_learned.mpr (Or.inr hback))
      · exact Or.inr hnonempty
  · intro d e object hhead
    exact knows_learned.mpr (Or.inr (h.first d e object hhead))

theorem pop (h : Announced c keys s) {a b : A} {m : Content Key S} {network : List (Packet A Key S)}
    (hpop : s.channel a b = m :: Network.channel network a b)
    (hother : ∀ a' b', (a', b') ≠ (a, b) → Network.channel network a' b' = s.channel a' b')
    (hknows : s.knows b a) : Announced c keys { s with network := network } := by
  have hsub : ∀ a' b' m', m' ∈ Network.channel network a' b' → m' ∈ s.channel a' b' := by
    intro a' b' m' hmem
    rcases Decidable.em ((a', b') = (a, b)) with heq | hne
    · obtain ⟨rfl, rfl⟩ := Prod.mk.inj heq
      rw [hpop]
      exact List.mem_cons_of_mem m hmem
    · rwa [← hother a' b' hne]
  refine ⟨h.own, h.stored, ?_, ?_, ?_, ?_⟩
  · intro a' b' key hmem
    exact h.carried a' b' key (hsub a' b' _ hmem)
  · intro a' b' object hmem
    exact h.encrypted a' b' object (hsub a' b' _ hmem)
  · intro a' b' hknows'
    rcases Decidable.em ((a', b') = (a, b)) with heq | hne
    · obtain ⟨rfl, rfl⟩ := Prod.mk.inj heq
      exact Or.inl hknows
    · rw [System.channel, hother a' b' hne]
      exact h.answered a' b' hknows'
  · intro a' b' object hhead
    rcases Decidable.em ((a', b') = (a, b)) with heq | hne
    · obtain ⟨rfl, rfl⟩ := Prod.mk.inj heq
      exact hknows
    · rw [System.channel, hother a' b' hne] at hhead
      exact h.first a' b' object hhead

theorem sends (h : Announced c keys s) (a b : A) (payload : P) :
    (s.endpoints a).send c b payload =
      (if ((s.endpoints a).communicationPartners b).isNone then
        [(b, .keyExchangeMessage (keys a).publicKey)] else []) ++
        [(b, .sealedObject (c.encryptAsymmetrical (keys a).privateKey payload))] := by
  obtain ⟨hmode, hpublic, hprivate⟩ := h.own a
  simp only [SecureEndpoint.send, hmode, hpublic, hprivate]

theorem channel_send (h : Announced c keys s) (a b : A) (payload : P) (d e : A) :
    Network.channel (packets a ((s.endpoints a).send c b payload)) d e =
      if d = a ∧ e = b then
        (if ((s.endpoints a).communicationPartners b).isNone then
          [.keyExchangeMessage (keys a).publicKey] else []) ++
          [.sealedObject (c.encryptAsymmetrical (keys a).privateKey payload)]
      else [] := by
  rw [channel_packets, h.sends]
  rcases eq_or_ne d a with rfl | hd
  · rcases eq_or_ne e b with rfl | he
    · simp only [if_true, and_self]
      split <;> simp
    · simp only [he, and_false, if_true, if_false]
      split <;> simp [he.symm]
  · simp only [hd, false_and, if_false]

theorem send (h : Announced c keys s) (a b : A) (payload : P) :
    Announced c keys
      { s with network := s.network ++ packets a ((s.endpoints a).send c b payload) } := by
  have hchannel := h.channel_send a b payload
  apply h.append
  · intro d e key hmem
    rw [hchannel] at hmem
    split at hmem
    · rename_i heq
      split at hmem <;> simp_all
    · cases hmem
  · intro d e object hmem
    rw [hchannel] at hmem
    split at hmem
    · rename_i heq
      refine ⟨payload, ?_⟩
      split at hmem <;> simp_all
    · cases hmem
  · intro d e object hempty hhead
    rw [hchannel] at hhead
    split at hhead
    · rename_i heq
      obtain ⟨rfl, rfl⟩ := heq
      split at hhead
      · cases hhead
      · rename_i hknown
        have hknows : s.knows d e := by
          intro hnone
          rw [hnone] at hknown
          exact hknown rfl
        rcases h.answered d e hknows with hback | hwaiting
        · exact hback
        · exact absurd hempty hwaiting
    · cases hhead

-- The key is answered, then stored, then the message is gone.
theorem exchange (h : Announced c keys s) {a b : A} {key : Key} {network : List (Packet A Key S)}
    (hdel : Network.deliver a b s.network = some (.keyExchangeMessage key, network)) :
    Announced c keys
      ({ s with network := network }.handle c b (some ⟨.keyExchangeMessage key, a⟩)).after := by
  have hpop := Network.channel_deliver hdel
  have hother := fun a' b' hne => Network.channel_deliver_other (c := a') (d := b') hdel hne
  have hkey : key = (keys a).publicKey := by
    apply h.carried a b key
    rw [System.channel, hpop]
    exact List.mem_cons_self
  rcases Classical.em (s.knows b a) with hknown | hunknown
  · rw [handle_known hknown]
    exact h.pop hpop hother hknown
  · rw [handle_unknown (not_not.mp hunknown), (h.own b).2.1, hkey]
    have hreply := channel_reply (S := S) b a (.keyExchangeMessage (keys b).publicKey)
    have hanswered : Announced c keys { s with
        network := s.network ++ [⟨b, a, .keyExchangeMessage (keys b).publicKey⟩] } := by
      apply h.append
      · intro d e key' hmem
        rw [hreply] at hmem
        split at hmem
        · rename_i heq
          obtain ⟨rfl, rfl⟩ := heq
          cases List.mem_singleton.mp hmem
          rfl
        · cases hmem
      · intro d e object hmem
        rw [hreply] at hmem
        split at hmem
        · cases List.mem_singleton.mp hmem
        · cases hmem
      · intro d e object _ hhead
        rw [hreply] at hhead
        split at hhead
        · cases hhead
        · cases hhead
    have hlearned := hanswered.learn (a := a) (b := b) (by
      rw [System.channel, Network.channel_append, hreply, if_pos ⟨rfl, rfl⟩]
      exact List.append_ne_nil_of_right_ne_nil _ (List.cons_ne_nil _ _))
    refine hlearned.pop (a := a) (b := b) (m := .keyExchangeMessage key) ?_ ?_
      (knows_learned.mpr (Or.inl ⟨rfl, rfl⟩))
    · simp only [System.channel, System.learned, Network.channel_append, hpop, List.cons_append, hkey]
    · intro a' b' hne
      simp only [System.channel, System.learned, Network.channel_append, hother a' b' hne]

theorem opened (h : Announced c keys s) {a b : A} {object : S} {network : List (Packet A Key S)}
    (hdel : Network.deliver a b s.network = some (.sealedObject object, network)) :
    s.knows b a ∧ Announced c keys
      ({ s with network := network }.handle c b (some ⟨.sealedObject object, a⟩)).after := by
  have hpop := Network.channel_deliver hdel
  have hother := fun a' b' hne => Network.channel_deliver_other (c := a') (d := b') hdel hne
  have hknows : s.knows b a := by
    apply h.first a b object
    rw [System.channel, hpop, List.head?_cons]
  refine ⟨hknows, ?_⟩
  obtain ⟨key, hkey⟩ := Option.ne_none_iff_exists'.mp hknows
  rw [handle_sealed (h.own b).1 hkey]
  exact h.pop hpop hother hknows

end Announced

def Occurrence.sentTo (o : Occurrence A Key Secret P S) (a b : A) : List P :=
  match o.event with
  | .send a' b' payload => if a' = a ∧ b' = b then [payload] else []
  | .receive _ _ => []

def Occurrence.returnedFrom (o : Occurrence A Key Secret P S) (a b : A) : List P :=
  match o.event, o.outcome.returned with
  | .receive b' _, some m => if m.sender = a ∧ b' = b then [m.payload] else []
  | _, _ => []

def sent (os : List (Occurrence A Key Secret P S)) (a b : A) : List P :=
  os.flatMap (fun o => o.sentTo a b)

def returned (os : List (Occurrence A Key Secret P S)) (a b : A) : List P :=
  os.flatMap (fun o => o.returnedFrom a b)

def isKeyExchange : Content Key S → Bool
  | .keyExchangeMessage _ => true
  | .sealedObject _ => false

def keyExchanges (os : List (Occurrence A Key Secret P S)) (a b : A) : ℕ :=
  (Network.channel (os.flatMap (fun o => o.outcome.sent)) a b).countP isKeyExchange

def payloadOf (c : Ciphers Key Secret P S) (publicKey : Key) : Content Key S → Option P
  | .keyExchangeMessage _ => none
  | .sealedObject object => c.decryptAsymmetrical publicKey object

def inFlight (c : Ciphers Key Secret P S) (keys : A → KeyPair Key Secret)
    (s : System A Key Secret S) (a b : A) : List P :=
  (s.channel a b).filterMap (payloadOf c (keys a).publicKey)

def NothingDropped (o : Occurrence A Key Secret P S) : Prop :=
  ∀ a b object network, o.event = .receive b (some a) →
    Network.deliver a b o.before.network = some (.sealedObject object, network) →
    o.before.knows b a ∧ o.outcome.returned.isSome

def System.knownCount (s : System A Key Secret S) (b a : A) : ℕ :=
  if ((s.endpoints b).communicationPartners a).isSome then 1 else 0

structure Accounted (c : Ciphers Key Secret P S) (keys : A → KeyPair Key Secret)
    (s : System A Key Secret S) (o : Occurrence A Key Secret P S) (s' : System A Key Secret S) :
    Prop where
  payloads : ∀ a b, inFlight c keys s a b ++ o.sentTo a b =
    o.returnedFrom a b ++ inFlight c keys s' a b
  exchanges : ∀ a b, (Network.channel o.outcome.sent a b).countP isKeyExchange + s.knownCount a b ≤
    (o.sentTo a b).length + s'.knownCount a b
  received : NothingDropped o

def Inverse (c : Ciphers Key Secret P S) (keys : A → KeyPair Key Secret) : Prop :=
  ∀ a payload, c.decryptAsymmetrical (keys a).publicKey
    (c.encryptAsymmetrical (keys a).privateKey payload) = some payload

theorem accounted_send (hinverse : Inverse c keys) (h : Announced c keys s) {a b : A} {payload : P}
    {o : Occurrence A Key Secret P S} (hevent : o.event = .send a b payload)
    (hout : o.outcome = ⟨packets a ((s.endpoints a).send c b payload), none,
      { s with network := s.network ++ packets a ((s.endpoints a).send c b payload) }⟩) :
    Accounted c keys s o o.outcome.after := by
  have hchannel := h.channel_send a b payload
  have hreturned : ∀ d e, o.returnedFrom d e = [] := by
    intro d e
    rw [Occurrence.returnedFrom, hevent]
  have hsent : ∀ d e, o.sentTo d e = if d = a ∧ e = b then [payload] else [] := by
    intro d e
    rw [Occurrence.sentTo, hevent]
    simp only [eq_comm]
  refine ⟨?_, ?_, ?_⟩
  · intro d e
    rw [hreturned, hsent, List.nil_append, hout, inFlight, inFlight, System.channel, System.channel,
      Network.channel_append, hchannel, List.filterMap_append]
    congr 1
    rcases Decidable.em (d = a ∧ e = b) with heq | hne
    · rw [if_pos heq, if_pos heq, heq.1]
      cases (s.endpoints a).communicationPartners b <;>
        simp [List.filterMap_cons, payloadOf, hinverse a payload]
    · rw [if_neg hne, if_neg hne, List.filterMap_nil]
  · intro d e
    rw [hout, hchannel, hsent]
    apply Nat.add_le_add_right
    rcases Decidable.em (d = a ∧ e = b) with heq | hne
    · rw [if_pos heq, if_pos heq]
      cases (s.endpoints a).communicationPartners b <;> simp [List.countP_cons, isKeyExchange]
    · rw [if_neg hne, if_neg hne]
      exact Nat.le_refl 0
  · intro a' b' object network hreceive
    rw [hevent] at hreceive
    cases hreceive

theorem accounted_idle {b : A} {o : Occurrence A Key Secret P S}
    (hevent : o.event = .receive b none) (hout : o.outcome = ⟨[], none, s⟩) :
    Accounted c keys s o o.outcome.after := by
  refine ⟨?_, ?_, ?_⟩
  · intro d e
    simp [Occurrence.sentTo, Occurrence.returnedFrom, hevent, hout]
  · intro d e
    simp [Occurrence.sentTo, hevent, hout, Network.channel]
  · intro a' b' object network hreceive
    rw [hevent] at hreceive
    cases hreceive

theorem accounted_exchange {a b : A} {key : Key}
    {network : List (Packet A Key S)} {o : Occurrence A Key Secret P S}
    (hbefore : o.before = s) (hevent : o.event = .receive b (some a))
    (hdel : Network.deliver a b s.network = some (.keyExchangeMessage key, network))
    (hout : o.outcome =
      { s with network := network }.handle c b (some ⟨.keyExchangeMessage key, a⟩)) :
    Accounted c keys s o o.outcome.after := by
  have hpop := Network.channel_deliver hdel
  have hother := fun a' b' hne => Network.channel_deliver_other (c := a') (d := b') hdel hne
  have hreceived : NothingDropped o := by
    intro a' b' object network' hreceive hdel'
    rw [hevent] at hreceive
    cases hreceive
    rw [hbefore, hdel] at hdel'
    cases hdel'
  have hsent : ∀ d e, o.sentTo d e = [] := by
    intro d e
    rw [Occurrence.sentTo, hevent]
  have hsame : ∀ d e, inFlight c keys s d e =
      (Network.channel network d e).filterMap (payloadOf c (keys d).publicKey) := by
    intro d e
    rw [inFlight, System.channel]
    rcases Decidable.em ((d, e) = (a, b)) with heq | hne
    · obtain ⟨rfl, rfl⟩ := Prod.mk.inj heq
      rw [hpop]
      rfl
    · rw [hother d e hne]
  rcases Classical.em (s.knows b a) with hknown | hunknown
  · rw [handle_known hknown] at hout
    have hreturned : ∀ d e, o.returnedFrom d e = [] := by
      intro d e
      rw [Occurrence.returnedFrom, hevent, hout]
    refine ⟨?_, ?_, hreceived⟩
    · intro d e
      rw [hsent, hreturned, List.append_nil, List.nil_append, hsame, hout]
      rfl
    · intro d e
      rw [hsent, hout]
      exact Nat.le_refl _
  · rw [handle_unknown (not_not.mp hunknown)] at hout
    have hreturned : ∀ d e, o.returnedFrom d e = [] := by
      intro d e
      rw [Occurrence.returnedFrom, hevent, hout]
    refine ⟨?_, ?_, hreceived⟩
    · intro d e
      rw [hsent, hreturned, List.append_nil, List.nil_append, hsame, hout, inFlight, System.channel,
        Network.channel_append, channel_reply, List.filterMap_append]
      split <;> simp [payloadOf]
    · intro d e
      rw [hsent, hout, channel_reply, System.knownCount, System.knownCount]
      dsimp only
      rw [learned_partners]
      rcases Decidable.em (d = b ∧ e = a) with heq | hne
      · obtain ⟨rfl, rfl⟩ := heq
        simp [isKeyExchange, not_not.mp hunknown]
      · simp [hne]

theorem accounted_sealed (hinverse : Inverse c keys) (h : Announced c keys s) {a b : A} {object : S}
    {network : List (Packet A Key S)} {o : Occurrence A Key Secret P S}
    (hbefore : o.before = s) (hevent : o.event = .receive b (some a))
    (hdel : Network.deliver a b s.network = some (.sealedObject object, network))
    (hout : o.outcome =
      { s with network := network }.handle c b (some ⟨.sealedObject object, a⟩)) :
    Accounted c keys s o o.outcome.after := by
  have hpop := Network.channel_deliver hdel
  have hother := fun a' b' hne => Network.channel_deliver_other (c := a') (d := b') hdel hne
  obtain ⟨payload, hobject⟩ := h.encrypted a b object (by
    rw [System.channel, hpop]
    exact List.mem_cons_self)
  obtain ⟨key, hkey⟩ := Option.ne_none_iff_exists'.mp (h.opened hdel).1
  have hdecrypted : c.decryptAsymmetrical (keys a).publicKey object = some payload := by
    rw [hobject, hinverse]
  rw [handle_sealed (h.own b).1 hkey, h.stored a b key hkey, hdecrypted] at hout
  have hsent : ∀ d e, o.sentTo d e = [] := by
    intro d e
    rw [Occurrence.sentTo, hevent]
  have hreturned : ∀ d e, o.returnedFrom d e = if a = d ∧ b = e then [payload] else [] := by
    intro d e
    rw [Occurrence.returnedFrom, hevent, hout]
    rfl
  refine ⟨?_, ?_, ?_⟩
  · intro d e
    rw [hsent, hreturned, List.append_nil, hout, inFlight, inFlight, System.channel, System.channel]
    rcases Decidable.em ((d, e) = (a, b)) with heq | hne
    · obtain ⟨rfl, rfl⟩ := Prod.mk.inj heq
      rw [hpop, if_pos ⟨rfl, rfl⟩, List.filterMap_cons, payloadOf, hdecrypted]
      rfl
    · rw [hother d e hne, if_neg (fun heq => hne (Prod.ext heq.1.symm heq.2.symm)), List.nil_append]
  · intro d e
    rw [hsent, hout]
    exact Nat.le_refl _
  · intro a' b' object' network' hreceive hdel'
    rw [hevent] at hreceive
    cases hreceive
    rw [hbefore, hout]
    exact ⟨(h.opened hdel).1, rfl⟩

theorem Step.accounted (hinverse : Inverse c keys) {s' : System A Key Secret S}
    {o : Occurrence A Key Secret P S} (hstep : Step c s o s') (h : Announced c keys s) :
    Accounted c keys s o s' ∧ Announced c keys s' := by
  obtain ⟨hbefore, rfl, hout⟩ := hstep
  cases hevent : o.event with
  | send a b payload =>
    rw [hevent] at hout
    have hout' := (Option.some_inj.mp hout).symm
    refine ⟨accounted_send hinverse h hevent hout', ?_⟩
    rw [hout']
    exact h.send a b payload
  | receive b found =>
    cases found with
    | none =>
      rw [hevent] at hout
      have hout' := (Option.some_inj.mp hout).symm
      rw [handle_nothing] at hout'
      refine ⟨accounted_idle hevent hout', ?_⟩
      rw [hout']
      exact h
    | some a =>
      rw [hevent, System.step, Option.map_eq_some_iff] at hout
      obtain ⟨⟨content, network⟩, hdel, hout'⟩ := hout
      cases content with
      | keyExchangeMessage key =>
        refine ⟨accounted_exchange hbefore hevent hdel hout'.symm, ?_⟩
        rw [← hout']
        exact h.exchange hdel
      | sealedObject object =>
        refine ⟨accounted_sealed hinverse h hbefore hevent hdel hout'.symm, ?_⟩
        rw [← hout']
        exact (h.opened hdel).2

theorem sent_snoc (os : List (Occurrence A Key Secret P S)) (o : Occurrence A Key Secret P S) (a b : A) :
    sent (os ++ [o]) a b = sent os a b ++ o.sentTo a b := by
  simp [sent]

theorem returned_append (os os' : List (Occurrence A Key Secret P S)) (a b : A) :
    returned (os ++ os') a b = returned os a b ++ returned os' a b := by
  simp [returned]

theorem keyExchanges_snoc (os : List (Occurrence A Key Secret P S)) (o : Occurrence A Key Secret P S)
    (a b : A) : keyExchanges (os ++ [o]) a b =
      keyExchanges os a b + (Network.channel o.outcome.sent a b).countP isKeyExchange := by
  simp [keyExchanges, Network.channel_append]

structure Delivered (c : Ciphers Key Secret P S) (keys : A → KeyPair Key Secret)
    (os : List (Occurrence A Key Secret P S)) (s : System A Key Secret S) : Prop where
  announced : Announced c keys s
  payloads : ∀ a b, sent os a b = returned os a b ++ inFlight c keys s a b
  exchanges : ∀ a b, keyExchanges os a b ≤ (sent os a b).length + s.knownCount a b
  received : ∀ o ∈ os, NothingDropped o

theorem delivered (hinverse : Inverse c keys) {os : List (Occurrence A Key Secret P S)}
    {s : System A Key Secret S} (hrun : Run c (System.start keys) os s) : Delivered c keys os s := by
  refine hrun.history (I := Delivered c keys) (G := fun _ => True) ?_ ?_ (fun _ _ => trivial)
  · refine ⟨announced_start, ?_, ?_, ?_⟩
    · exact fun a b => rfl
    · exact fun a b => Nat.zero_le _
    · exact fun o ho => absurd ho List.not_mem_nil
  · intro os s o s' _ h _ hstep
    obtain ⟨haccounted, hannounced⟩ := hstep.accounted hinverse h.announced
    refine ⟨hannounced, ?_, ?_, ?_⟩
    · intro a b
      rw [sent_snoc, h.payloads, List.append_assoc, haccounted.payloads, returned_append,
        List.append_assoc]
      simp [returned]
    · intro a b
      have hbefore := h.exchanges a b
      have hafter := haccounted.exchanges a b
      rw [keyExchanges_snoc, sent_snoc, List.length_append]
      omega
    · rw [List.forall_mem_append, List.forall_mem_singleton]
      exact ⟨h.received, haccounted.received⟩

theorem exists_receive (h : Announced c keys s) {a b : A} {m : Content Key S}
    {ms : List (Content Key S)} (hchannel : s.channel a b = m :: ms) :
    ∃ outcome, s.step c (.receive b (some a)) = some outcome ∧
      ∃ replies, outcome.after.channel a b = ms ++ replies ∧ ∀ m ∈ replies, isKeyExchange m = true := by
  obtain ⟨network, hdel⟩ := Network.exists_deliver hchannel
  have hpop := Network.channel_deliver hdel
  obtain ⟨_, hms⟩ := List.cons.inj (hchannel.symm.trans hpop)
  refine ⟨_, by rw [System.step, hdel, Option.map_some], ?_⟩
  cases m with
  | keyExchangeMessage key =>
    rcases Classical.em (s.knows b a) with hknown | hunknown
    · rw [handle_known hknown]
      exact ⟨[], by rw [List.append_nil, hms]; rfl, fun m hm => absurd hm List.not_mem_nil⟩
    · rw [handle_unknown (not_not.mp hunknown)]
      refine ⟨_, by rw [System.channel, Network.channel_append, hms], ?_⟩
      intro m hm
      rw [channel_reply] at hm
      split at hm
      · rw [List.mem_singleton.mp hm]
        rfl
      · cases hm
  | sealedObject object =>
    obtain ⟨key, hkey⟩ := Option.ne_none_iff_exists'.mp (h.opened hdel).1
    rw [handle_sealed (h.own b).1 hkey]
    exact ⟨[], by rw [List.append_nil, hms]; rfl, fun m hm => absurd hm List.not_mem_nil⟩

-- Receiving what waits now returns every payload; only key exchanges can follow it.
theorem drain (hinverse : Inverse c keys) (a b : A) {front back : List (Content Key S)}
    (h : Announced c keys s) (hchannel : s.channel a b = front ++ back)
    (hback : ∀ m ∈ back, isKeyExchange m = true) :
    ∃ os s', Run c s os s' ∧ sent os a b = [] ∧ returned os a b = inFlight c keys s a b := by
  induction front generalizing s back with
  | nil =>
    refine ⟨[], s, LabelledRun.Run.nil, rfl, ?_⟩
    rw [inFlight, hchannel, List.nil_append]
    refine (List.filterMap_eq_nil_iff.mpr ?_).symm
    intro m hm
    have hexchange := hback m hm
    cases m with
    | keyExchangeMessage key => rfl
    | sealedObject object => cases hexchange
  | cons m front ih =>
    rw [List.cons_append] at hchannel
    obtain ⟨outcome, hout, replies, hreplies, hall⟩ := exists_receive h hchannel
    have hstep : Step c s ⟨s, .receive b (some a), outcome⟩ outcome.after := ⟨rfl, rfl, hout⟩
    obtain ⟨haccounted, hannounced⟩ := hstep.accounted hinverse h
    obtain ⟨os, s', hrun, hsent, hreturned⟩ := ih hannounced
      (show _ = front ++ (back ++ replies) by rw [hreplies, List.append_assoc])
      (by rw [List.forall_mem_append]; exact ⟨hback, hall⟩)
    refine ⟨_ :: os, s', LabelledRun.Run.cons hstep hrun, ?_, ?_⟩
    · rw [sent, List.flatMap_cons]
      exact hsent
    · rw [returned, List.flatMap_cons]
      have hpayloads := haccounted.payloads a b
      rw [← returned, hreturned, ← hpayloads]
      exact List.append_nil _

omit [DecidableEq A] in
theorem knownCount_le (s : System A Key Secret S) (b a : A) : s.knownCount b a ≤ 1 := by
  rw [System.knownCount]
  split <;> simp

theorem secure_delivery (c : Ciphers Key Secret P S) (keys : A → KeyPair Key Secret)
    (os : List (Occurrence A Key Secret P S)) (s : System A Key Secret S)
    (hinverse : Inverse c keys) (hrun : Run c (System.start keys) os s) (a b : A) :
    sent os a b = returned os a b ++ inFlight c keys s a b ∧
      (∃ os' s', Run c s os' s' ∧ sent os' a b = [] ∧ returned (os ++ os') a b = sent os a b) ∧
      (∀ o ∈ os, NothingDropped o) ∧
      keyExchanges os a b + keyExchanges os b a ≤ (sent os a b).length + (sent os b a).length + 2 := by
  have hdelivered := delivered hinverse hrun
  refine ⟨hdelivered.payloads a b, ?_, hdelivered.received, ?_⟩
  · obtain ⟨os', s', hrun', hsent, hreturned⟩ := drain hinverse a b
      hdelivered.announced (List.append_nil _).symm (fun m hm => absurd hm List.not_mem_nil)
    refine ⟨os', s', hrun', hsent, ?_⟩
    rw [returned_append, hreturned, hdelivered.payloads]
  · have hforth := hdelivered.exchanges a b
    have hback := hdelivered.exchanges b a
    have hknown := knownCount_le s a b
    have hknown' := knownCount_le s b a
    omega

def keyedCiphers : Ciphers ℕ ℕ String (ℕ × String) where
  encryptSymmetrical payload := (0, payload)
  decryptSymmetrical object := some object.2
  encryptAsymmetrical privateKey payload := (privateKey, payload)
  decryptAsymmetrical publicKey object := if object.1 = publicKey then some object.2 else none

def numberedKeys (a : ℕ) : KeyPair ℕ ℕ :=
  ⟨a, a⟩

-- Both sides send before either has the key of the other.
def bothFirst : List (Event ℕ String) :=
  [.send 1 2 "ping", .send 2 1 "pong", .receive 2 (some 1), .receive 1 (some 2), .receive 2 (some 1),
    .receive 2 none, .receive 1 (some 2), .receive 1 (some 2), .receive 2 (some 1), .send 1 2 "again"]

theorem secure_delivery_both_first :
    ∃ os s, Run keyedCiphers (System.start numberedKeys) os s ∧ sent os 1 2 = ["ping", "again"] ∧
      sent os 1 2 = returned os 1 2 ++ inFlight keyedCiphers numberedKeys s 1 2 := by
  have hevents : ∃ r ∈ occurrences keyedCiphers (System.start numberedKeys) bothFirst,
      sent r.1 1 2 = ["ping", "again"] := by
    decide +kernel
  obtain ⟨⟨os, s⟩, hos, hsent⟩ := hevents
  have hrun := occurrences_run hos
  have hinverse : Inverse keyedCiphers numberedKeys := by
    intro a payload
    simp [keyedCiphers, numberedKeys]
  exact ⟨os, s, hrun, hsent, (secure_delivery keyedCiphers numberedKeys os s hinverse hrun 1 2).1⟩

end Messaging
