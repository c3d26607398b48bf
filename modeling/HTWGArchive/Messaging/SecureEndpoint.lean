import HTWGArchive.Library.LabelledRun
import HTWGArchive.Library.Network
import Mathlib.Logic.Function.Basic

namespace Messaging

inductive EncryptionMode where
  | asymmetrical
  | symmetrical
  deriving DecidableEq, Repr

-- The four ciphers; decrypting fails with an exception, which the endpoint turns into null.
structure Ciphers (Key Secret P S : Type) where
  encryptSymmetrical : P → S
  decryptSymmetrical : S → Option P
  encryptAsymmetrical : Secret → P → S
  decryptAsymmetrical : Key → S → Option P

structure KeyPair (Key Secret : Type) where
  publicKey : Key
  privateKey : Secret

inductive Content (Key S : Type) where
  | keyExchangeMessage (publicKey : Key)
  | sealedObject (object : S)
  deriving DecidableEq, Repr

structure Message (A C : Type) where
  payload : C
  sender : A
  deriving DecidableEq, Repr

structure SecureEndpoint (A Key Secret : Type) where
  encryptionMode : EncryptionMode
  publicKey : Key
  privateKey : Secret
  communicationPartners : A → Option Key

variable {A Key Secret P S : Type} [DecidableEq A]

namespace SecureEndpoint

def init (keys : KeyPair Key Secret) : SecureEndpoint A Key Secret where
  encryptionMode := .asymmetrical
  publicKey := keys.publicKey
  privateKey := keys.privateKey
  communicationPartners := fun _ => none

def send (c : Ciphers Key Secret P S) (e : SecureEndpoint A Key Secret) (receiver : A)
    (payload : P) : List (A × Content Key S) :=
  match e.encryptionMode with
  | .symmetrical => [(receiver, .sealedObject (c.encryptSymmetrical payload))]
  | .asymmetrical =>
    (if (e.communicationPartners receiver).isNone then
      [(receiver, .keyExchangeMessage e.publicKey)] else []) ++
      [(receiver, .sealedObject (c.encryptAsymmetrical e.privateKey payload))]

def decryptSymmetrical (c : Ciphers Key Secret P S) (object : S) (sender : A) :
    Option (Message A P) :=
  (c.decryptSymmetrical object).map (fun payload => ⟨payload, sender⟩)

def decryptAsymmetrical (c : Ciphers Key Secret P S) (e : SecureEndpoint A Key Secret)
    (object : S) (sender : A) : List (A × Content Key S) × Option (Message A P) :=
  match e.communicationPartners sender with
  | none => ([(sender, .keyExchangeMessage e.publicKey)], none)
  | some publicKey =>
    ([], (c.decryptAsymmetrical publicKey object).map (fun payload => ⟨payload, sender⟩))

def handleMessage (c : Ciphers Key Secret P S) (e : SecureEndpoint A Key Secret) :
    Option (Message A (Content Key S)) →
      SecureEndpoint A Key Secret × List (A × Content Key S) × Option (Message A P)
  | none => (e, [], none)
  | some ⟨.keyExchangeMessage publicKey, sender⟩ =>
    if (e.communicationPartners sender).isNone then
      ({ e with
         communicationPartners :=
          Function.update e.communicationPartners sender (some publicKey) },
       [(sender, .keyExchangeMessage e.publicKey)], none)
    else (e, [], none)
  | some ⟨.sealedObject object, sender⟩ =>
    match e.encryptionMode with
    | .symmetrical => (e, [], decryptSymmetrical c object sender)
    | .asymmetrical => (e, e.decryptAsymmetrical c object sender)

end SecureEndpoint

abbrev Packet (A Key S : Type) :=
  Network.Packet A (Content Key S)

structure System (A Key Secret S : Type) where
  endpoints : A → SecureEndpoint A Key Secret
  network : List (Packet A Key S)

-- A receive call finds a message of one sender, or nothing when it does not block.
inductive Event (A P : Type) where
  | send (a b : A) (payload : P)
  | receive (b : A) (found : Option A)
  deriving DecidableEq, Repr

structure Outcome (A Key Secret P S : Type) where
  sent : List (Packet A Key S)
  returned : Option (Message A P)
  after : System A Key Secret S

def packets (src : A) (sends : List (A × Content Key S)) : List (Packet A Key S) :=
  sends.map (fun m => ⟨src, m.1, m.2⟩)

namespace System

def start (keys : A → KeyPair Key Secret) : System A Key Secret S :=
  ⟨fun a => SecureEndpoint.init (keys a), []⟩

def handle (c : Ciphers Key Secret P S) (s : System A Key Secret S) (b : A)
    (msg : Option (Message A (Content Key S))) : Outcome A Key Secret P S :=
  let r := (s.endpoints b).handleMessage c msg
  { sent := packets b r.2.1
    returned := r.2.2
    after :=
      { endpoints := Function.update s.endpoints b r.1
        network := s.network ++ packets b r.2.1 } }

def step (c : Ciphers Key Secret P S) (s : System A Key Secret S) :
    Event A P → Option (Outcome A Key Secret P S)
  | .send a b payload =>
    let sent := packets a ((s.endpoints a).send c b payload)
    some ⟨sent, none, { s with network := s.network ++ sent }⟩
  | .receive b none => some (s.handle c b none)
  | .receive b (some a) =>
    (Network.deliver a b s.network).map (fun found =>
      { s with network := found.2 }.handle c b (some ⟨found.1, a⟩))

end System

structure Occurrence (A Key Secret P S : Type) where
  before : System A Key Secret S
  event : Event A P
  outcome : Outcome A Key Secret P S

def Step (c : Ciphers Key Secret P S) (s : System A Key Secret S)
    (o : Occurrence A Key Secret P S) (s' : System A Key Secret S) : Prop :=
  o.before = s ∧ o.outcome.after = s' ∧ s.step c o.event = some o.outcome

abbrev Run (c : Ciphers Key Secret P S) :
    System A Key Secret S → List (Occurrence A Key Secret P S) → System A Key Secret S → Prop :=
  LabelledRun.Run (Step c)

def occurrences (c : Ciphers Key Secret P S) :
    System A Key Secret S → List (Event A P) →
      Option (List (Occurrence A Key Secret P S) × System A Key Secret S)
  | s, [] => some ([], s)
  | s, e :: es =>
    match s.step c e with
    | none => none
    | some outcome =>
      (occurrences c outcome.after es).map (fun r => (⟨s, e, outcome⟩ :: r.1, r.2))

theorem occurrences_run {c : Ciphers Key Secret P S} {s s' : System A Key Secret S}
    {es : List (Event A P)} {os : List (Occurrence A Key Secret P S)}
    (h : occurrences c s es = some (os, s')) : Run c s os s' := by
  induction es generalizing s os with
  | nil =>
    rw [occurrences, Option.some_inj, Prod.mk.injEq] at h
    obtain ⟨rfl, rfl⟩ := h
    exact LabelledRun.Run.nil
  | cons e es ih =>
    rw [occurrences] at h
    cases hs : s.step c e with
    | none => simp [hs] at h
    | some outcome =>
      simp only [hs, Option.map_eq_some_iff, Prod.mk.injEq, Prod.exists] at h
      obtain ⟨rest, last, hrest, rfl, rfl⟩ := h
      exact LabelledRun.Run.cons ⟨rfl, rfl, hs⟩ (ih hrest)

theorem channel_packets (src a b : A) (sends : List (A × Content Key S)) :
    Network.channel (packets src sends) a b =
      if a = src then (sends.filter (fun m => m.1 = b)).map Prod.snd else [] := by
  induction sends with
  | nil => simp [packets, Network.channel]
  | cons m sends ih =>
    obtain ⟨receiver, content⟩ := m
    have hcons : packets src ((receiver, content) :: sends) =
        [⟨src, receiver, content⟩] ++ packets src sends := rfl
    rw [hcons, Network.channel_append, ih]
    rcases eq_or_ne a src with rfl | hsrc
    · rcases eq_or_ne receiver b with rfl | hdst
      · simp [Network.channel, Network.onChannel]
      · simp [Network.channel, Network.onChannel, hdst]
    · simp [Network.channel, Network.onChannel, hsrc, hsrc.symm]

end Messaging
