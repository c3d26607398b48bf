import Mathlib.Logic.Function.Basic
import HTWGArchive.Library.LabelledRun

namespace PeerToPeerChat

structure User (Nick Ip Port : Type) where
  nickname : Nick
  ip : Ip
  port : Port

structure Users (Nick Ip Port : Type) where
  added : List (User Nick Ip Port)
  removed : List (User Nick Ip Port)

structure Clients (Nick Ip Port : Type) where
  clients : Nick → Option (Ip × Port)
  udp_to_nick : Ip × Port → Option Nick

-- `conn` stands for a TCP connection and for the peer's address on it.
structure Entry (Ip Port : Type) where
  ip : Ip
  port : Port
  conn : ℕ

-- Where the handler for a nickname is, with what it holds in its local variables.
inductive Handler (Nick Ip Port : Type) where
  | idle
  | sendInitial (user : User Nick Ip Port) (conn : ℕ) (added_list : List (User Nick Ip Port))
  | snapshot (msg : Users Nick Ip Port) (exclude : Option Nick) (close : Option ℕ)
  | sends (rest : List (Nick × Entry Ip Port)) (msg : Users Nick Ip Port) (exclude : Option Nick)
      (close : Option ℕ)

inductive Event (Nick Ip Port : Type) where
  | register (user : User Nick Ip Port)
  | unregister (nickname : Nick) (addr : ℕ)
  | proceed (nickname : Nick)
  | deliver (conn : ℕ)

structure System (Nick Ip Port : Type) where
  clientList : List (Nick × Entry Ip Port)
  addr_to_nick : ℕ → Option Nick
  handler : Nick → Handler Nick Ip Port
  queue : ℕ → List (Users Nick Ip Port)
  client : ℕ → Clients Nick Ip Port
  closed : ℕ → Bool
  accepted : ℕ

section Updates

variable {Nick Ip Port : Type} [DecidableEq Nick] [DecidableEq Ip] [DecidableEq Port]

namespace Clients

def none : Clients Nick Ip Port where
  clients := fun _ => Option.none
  udp_to_nick := fun _ => Option.none

def add (c : Clients Nick Ip Port) (user : User Nick Ip Port) : Clients Nick Ip Port where
  clients := Function.update c.clients user.nickname (some (user.ip, user.port))
  udp_to_nick := Function.update c.udp_to_nick (user.ip, user.port) (some user.nickname)

-- A missing key ends the loop.
def remove : List (User Nick Ip Port) → Clients Nick Ip Port → Clients Nick Ip Port
  | [], c => c
  | user :: users, c =>
    if c.clients user.nickname = Option.none then c
    else
      let c := { c with clients := Function.update c.clients user.nickname Option.none }
      if c.udp_to_nick (user.ip, user.port) = Option.none then c
      else remove users
        { c with udp_to_nick := Function.update c.udp_to_nick (user.ip, user.port) Option.none }

def update_user_list (c : Clients Nick Ip Port) (users : Users Nick Ip Port) :
    Clients Nick Ip Port :=
  remove users.removed (users.added.foldl add c)

end Clients

end Updates

namespace System

variable {Nick Ip Port : Type} [DecidableEq Nick]

def init : System Nick Ip Port where
  clientList := []
  addr_to_nick := fun _ => none
  handler := fun _ => .idle
  queue := fun _ => []
  client := fun _ => Clients.none
  closed := fun _ => false
  accepted := 0

def set (s : System Nick Ip Port) (n : Nick) (h : Handler Nick Ip Port) : System Nick Ip Port :=
  { s with handler := Function.update s.handler n h }

def send (s : System Nick Ip Port) (conn : ℕ) (msg : Users Nick Ip Port) : System Nick Ip Port :=
  { s with queue := Function.update s.queue conn (s.queue conn ++ [msg]) }

def close (s : System Nick Ip Port) : Option ℕ → System Nick Ip Port
  | none => s
  | some conn => { s with closed := Function.update s.closed conn true }

def isIdle : Handler Nick Ip Port → Bool
  | .idle => true
  | _ => false

-- The critical section; a nickname that is already there is refused.
def register_client (s : System Nick Ip Port) (user : User Nick Ip Port) : System Nick Ip Port :=
  if user.nickname ∈ s.clientList.map Prod.fst then s
  else
    let added_list := s.clientList.map (fun x => ⟨x.1, x.2.ip, x.2.port⟩)
    { s with
      clientList := s.clientList ++ [(user.nickname, ⟨user.ip, user.port, s.accepted⟩)]
      addr_to_nick := Function.update s.addr_to_nick s.accepted (some user.nickname)
      handler := Function.update s.handler user.nickname (.sendInitial user s.accepted added_list)
      accepted := s.accepted + 1 }

-- The critical section; an address that is not there ends the handler after the first `pop`.
def unregister_client (s : System Nick Ip Port) (nickname : Nick) (addr : ℕ) :
    System Nick Ip Port :=
  match s.clientList.find? (fun x => x.1 = nickname) with
  | none => s
  | some (_, removed_client) =>
    let s := { s with clientList := s.clientList.filter (fun x => x.1 ≠ nickname) }
    match s.addr_to_nick addr with
    | none => s
    | some _ =>
      let user : User Nick Ip Port := ⟨nickname, removed_client.ip, removed_client.port⟩
      { s with
        addr_to_nick := Function.update s.addr_to_nick addr none
        handler := Function.update s.handler nickname
          (.snapshot ⟨[], [user]⟩ none (some removed_client.conn)) }

-- Sending on a closed connection raises an `OSError`, which ends the handler.
def proceed (s : System Nick Ip Port) (n : Nick) : Option (System Nick Ip Port) :=
  match s.handler n with
  | .idle => none
  | .sendInitial user conn added_list =>
    if s.closed conn then some (s.set n .idle)
    else some ((s.send conn ⟨added_list, []⟩).set n (.snapshot ⟨[user], []⟩ (some n) none))
  | .snapshot msg exclude close => some (s.set n (.sends s.clientList msg exclude close))
  | .sends [] _ _ close => some ((s.close close).set n .idle)
  | .sends (x :: rest) msg exclude close =>
    if exclude = some x.1 then some (s.set n (.sends rest msg exclude close))
    else if s.closed x.2.conn then some (s.set n .idle)
    else some ((s.send x.2.conn msg).set n (.sends rest msg exclude close))

def deliver [DecidableEq Ip] [DecidableEq Port] (s : System Nick Ip Port) (conn : ℕ) :
    Option (System Nick Ip Port) :=
  match s.queue conn with
  | [] => none
  | msg :: msgs =>
    some { s with
      client := Function.update s.client conn ((s.client conn).update_user_list msg)
      queue := Function.update s.queue conn msgs }

-- At most one handler runs for a nickname.
def step [DecidableEq Ip] [DecidableEq Port] (s : System Nick Ip Port) :
    Event Nick Ip Port → Option (System Nick Ip Port)
  | .register user => if isIdle (s.handler user.nickname) then some (s.register_client user) else none
  | .unregister n addr => if isIdle (s.handler n) then some (s.unregister_client n addr) else none
  | .proceed n => s.proceed n
  | .deliver conn => s.deliver conn

end System

end PeerToPeerChat
