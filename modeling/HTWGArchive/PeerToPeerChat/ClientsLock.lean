import Mathlib.Algebra.GroupWithZero.Nat
import HTWGArchive.PeerToPeerChat.UserList

namespace ClientsLock

open PeerToPeerChat LabelledRun

inductive Error where
  | RuntimeError
  | KeyError
  | OSError
  deriving DecidableEq

-- A call returns `True`, `False` or, without a value, `None`.
inductive Outcome where
  | returned (value : Option Bool)
  | raised (error : Error)
  deriving DecidableEq

inductive Sent where
  | delivered
  | connectionReset
  | failed

inductive Message (Nick Ip Port : Type) where
  | userList (users : Users Nick Ip Port)
  | message (text : String)

-- Who has called `broadcast_clients`; `unregister_client` closes a connection afterwards.
inductive Caller where
  | process_request
  | register_client
  | unregister_client (conn : ℕ)

inductive Call (Nick Ip Port : Type) where
  | register (user : User Nick Ip Port) (conn : ℕ)
  | unregister (nickname : Nick) (addr : ℕ)
  | broadcast (msg : Message Nick Ip Port) (exclude : Option Nick) (caller : Caller)

-- The points outside of the critical sections.
inductive Outside (Nick Ip Port : Type) where
  | ended (outcome : Option Outcome)
  | acquire (call : Call Nick Ip Port)
  | sendInitial (user : User Nick Ip Port) (conn : ℕ) (added_list : List (User Nick Ip Port))
  | loop (rest : List (Nick × Entry Ip Port)) (msg : Message Nick Ip Port)
      (exclude : Option Nick) (caller : Caller)

inductive Register (Nick Ip Port : Type) where
  | check
  | collect
  | insert (added_list : List (User Nick Ip Port))
  | address (added_list : List (User Nick Ip Port))

inductive Unregister (Ip Port : Type) where
  | check
  | pop
  | address (removed_client : Entry Ip Port)

-- `refused` comes before the release in front of `return False`, `returnFalse` before `finally`.
inductive Point (Nick Ip Port : Type) where
  | outside (point : Outside Nick Ip Port)
  | register (user : User Nick Ip Port) (conn : ℕ) (point : Register Nick Ip Port)
  | unregister (nickname : Nick) (addr : ℕ) (point : Unregister Ip Port)
  | broadcast (msg : Message Nick Ip Port) (exclude : Option Nick) (caller : Caller)
  | refused
  | returnFalse
  | atFinally (next : Outside Nick Ip Port)

-- The lock with the thread that took it; Python knows only whether it is taken.
structure Server (T Nick Ip Port : Type) where
  CLIENTS_LOCK : Option T
  clientList : List (Nick × Entry Ip Port)
  addr_to_nick : ℕ → Option Nick
  sent : List (ℕ × Message Nick Ip Port)
  closed : List ℕ
  point : T → Point Nick Ip Port

inductive Input (Nick Ip Port : Type) where
  | start (call : Call Nick Ip Port)
  | go (sent : Sent)

variable {T Nick Ip Port : Type}

def Call.enter : Call Nick Ip Port → Point Nick Ip Port
  | .register user conn => .register user conn .check
  | .unregister nickname addr => .unregister nickname addr .check
  | .broadcast msg exclude caller => .broadcast msg exclude caller

def Call.direct : Call Nick Ip Port → Bool
  | .broadcast _ _ .register_client => false
  | .broadcast _ _ (.unregister_client _) => false
  | _ => true

variable [DecidableEq Nick]

-- `clientList[nickname] = entry`
def assign (clientList : List (Nick × Entry Ip Port)) (nickname : Nick) (entry : Entry Ip Port) :
    List (Nick × Entry Ip Port) :=
  if nickname ∈ clientList.map Prod.fst then
    clientList.map (fun x => if x.1 = nickname then (nickname, entry) else x)
  else clientList ++ [(nickname, entry)]

namespace Server

def init : Server T Nick Ip Port where
  CLIENTS_LOCK := none
  clientList := []
  addr_to_nick := fun _ => none
  sent := []
  closed := []
  point := fun _ => .outside (.ended none)

def Listed (s : Server T Nick Ip Port) (nickname : Nick) : Prop :=
  nickname ∈ s.clientList.map Prod.fst

instance (s : Server T Nick Ip Port) (nickname : Nick) : Decidable (s.Listed nickname) :=
  inferInstanceAs (Decidable (nickname ∈ s.clientList.map Prod.fst))

variable [DecidableEq T]

def set (s : Server T Nick Ip Port) (t : T) (p : Point Nick Ip Port) : Server T Nick Ip Port :=
  { s with point := Function.update s.point t p }

-- Releasing an unlocked lock raises a `RuntimeError`.
def release (s : Server T Nick Ip Port) (t : T) (next error : Point Nick Ip Port) :
    Server T Nick Ip Port :=
  match s.CLIENTS_LOCK with
  | none => s.set t error
  | some _ => { s with CLIENTS_LOCK := none }.set t next

def register_client (s : Server T Nick Ip Port) (t : T) (user : User Nick Ip Port) (conn : ℕ) :
    Register Nick Ip Port → Server T Nick Ip Port
  | .check => s.set t (if s.Listed user.nickname then .refused else .register user conn .collect)
  | .collect =>
    s.set t (.register user conn (.insert (s.clientList.map (fun x => ⟨x.1, x.2.ip, x.2.port⟩))))
  | .insert added_list =>
    { s with clientList := assign s.clientList user.nickname ⟨user.ip, user.port, conn⟩ }.set t
      (.register user conn (.address added_list))
  | .address added_list =>
    { s with addr_to_nick := Function.update s.addr_to_nick conn (some user.nickname) }.set t
      (.atFinally (.sendInitial user conn added_list))

def unregister_client (s : Server T Nick Ip Port) (t : T) (nickname : Nick) (addr : ℕ) :
    Unregister Ip Port → Server T Nick Ip Port
  | .check => s.set t (if s.Listed nickname then .unregister nickname addr .pop else .refused)
  | .pop =>
    match s.clientList.find? (fun x => x.1 = nickname) with
    | none => s.set t (.atFinally (.ended (some (.raised .KeyError))))
    | some (_, removed_client) =>
      { s with clientList := s.clientList.filter (fun x => x.1 ≠ nickname) }.set t
        (.unregister nickname addr (.address removed_client))
  | .address removed_client =>
    match s.addr_to_nick addr with
    | none => s.set t (.atFinally (.ended (some (.raised .KeyError))))
    | some _ =>
      { s with addr_to_nick := Function.update s.addr_to_nick addr none }.set t
        (.atFinally (.acquire (.broadcast
          (.userList ⟨[], [⟨nickname, removed_client.ip, removed_client.port⟩]⟩) none
          (.unregister_client removed_client.conn))))

-- The loop over the copy of the list.
def broadcast_clients (s : Server T Nick Ip Port) (t : T) (msg : Message Nick Ip Port)
    (exclude : Option Nick) (caller : Caller) (sent : Sent) :
    List (Nick × Entry Ip Port) → Server T Nick Ip Port
  | [] =>
    match caller with
    | .process_request => s.set t (.outside (.ended (some (.returned none))))
    | .register_client => s.set t (.outside (.ended (some (.returned (some true)))))
    | .unregister_client conn =>
      { s with closed := s.closed ++ [conn] }.set t
        (.outside (.ended (some (.returned (some true)))))
  | x :: rest =>
    if exclude = some x.1 then s.set t (.outside (.loop rest msg exclude caller))
    else
      match sent with
      | .delivered =>
        { s with sent := s.sent ++ [(x.2.conn, msg)] }.set t
          (.outside (.loop rest msg exclude caller))
      | .connectionReset => s.set t (.outside (.loop rest msg exclude caller))
      | .failed => s.set t (.outside (.ended (some (.raised .OSError))))

def sendInitial (s : Server T Nick Ip Port) (t : T) (user : User Nick Ip Port) (conn : ℕ)
    (added_list : List (User Nick Ip Port)) : Sent → Server T Nick Ip Port
  | .delivered =>
    { s with sent := s.sent ++ [(conn, Message.userList ⟨added_list, []⟩)] }.set t
      (.outside (.acquire (.broadcast (.userList ⟨[user], []⟩) (some user.nickname)
        .register_client)))
  | _ => s.set t (.outside (.ended (some (.raised .OSError))))

def step (s : Server T Nick Ip Port) (t : T) : Input Nick Ip Port → Option (Server T Nick Ip Port)
  | .start call =>
    match s.point t with
    | .outside (.ended _) => if call.direct then some (s.set t (.outside (.acquire call))) else none
    | _ => none
  | .go sent =>
    match s.point t with
    | .outside (.ended _) => none
    | .outside (.acquire call) =>
      match s.CLIENTS_LOCK with
      | none => some ({ s with CLIENTS_LOCK := some t }.set t call.enter)
      | some _ => none
    | .outside (.sendInitial user conn added_list) => some (s.sendInitial t user conn added_list sent)
    | .outside (.loop rest msg exclude caller) =>
      some (s.broadcast_clients t msg exclude caller sent rest)
    | .register user conn p => some (s.register_client t user conn p)
    | .unregister nickname addr p => some (s.unregister_client t nickname addr p)
    | .broadcast msg exclude caller =>
      some (s.set t (.atFinally (.loop s.clientList msg exclude caller)))
    | .refused => some (s.release t .returnFalse (.atFinally (.ended (some (.raised .RuntimeError)))))
    | .returnFalse =>
      some (s.release t (.outside (.ended (some (.returned (some false)))))
        (.outside (.ended (some (.raised .RuntimeError)))))
    | .atFinally next =>
      some (s.release t (.outside next) (.outside (.ended (some (.raised .RuntimeError)))))

end Server

namespace Point

def acquires : Point Nick Ip Port → Bool
  | .outside (.acquire _) => true
  | _ => false

def releases : Point Nick Ip Port → Bool
  | .refused => true
  | .returnFalse => true
  | .atFinally _ => true
  | _ => false

def refusing : Point Nick Ip Port → Bool
  | .refused => true
  | .returnFalse => true
  | _ => false

-- After the explicit release the lock is not the thread's any more.
def holds : Point Nick Ip Port → Bool
  | .outside _ => false
  | .returnFalse => false
  | _ => true

def isEnded : Point Nick Ip Port → Bool
  | .outside (.ended _) => true
  | _ => false

end Point

-- The next step of the thread takes the branch that returns `False`.
def Server.Refuses (s : Server T Nick Ip Port) (t : T) : Prop :=
  match s.point t with
  | .register user _ .check => s.Listed user.nickname
  | .unregister nickname _ .check => ¬s.Listed nickname
  | _ => False

instance (s : Server T Nick Ip Port) (t : T) : Decidable (s.Refuses t) := by
  unfold Server.Refuses
  split <;> infer_instance

structure Move (T Nick Ip Port : Type) where
  thread : T
  before : Server T Nick Ip Port
  after : Server T Nick Ip Port

namespace Move

variable (m : Move T Nick Ip Port)

def point : Point Nick Ip Port :=
  m.before.point m.thread

def acquiredBy [DecidableEq T] (t : T) : Bool :=
  decide (m.thread = t) && m.point.acquires

def releasedBy [DecidableEq T] (t : T) : Bool :=
  decide (m.thread = t) && m.point.releases

end Move

def Moves [DecidableEq T] (s : Server T Nick Ip Port) (m : Move T Nick Ip Port)
    (s' : Server T Nick Ip Port) : Prop :=
  m.before = s ∧ m.after = s' ∧ ∃ input, s.step m.thread input = some s'

-- The moves that a list of inputs leads to.
def moves [DecidableEq T] (s : Server T Nick Ip Port) :
    List (T × Input Nick Ip Port) → Option (List (Move T Nick Ip Port) × Server T Nick Ip Port)
  | [] => some ([], s)
  | (t, input) :: inputs =>
    match s.step t input with
    | none => none
    | some s' => (moves s' inputs).map (fun x => (⟨t, s, s'⟩ :: x.1, x.2))

theorem run_of_moves [DecidableEq T] {s s' : Server T Nick Ip Port}
    {ms : List (Move T Nick Ip Port)} (inputs : List (T × Input Nick Ip Port))
    (h : moves s inputs = some (ms, s')) : Run Moves s ms s' := by
  induction inputs generalizing s ms with
  | nil =>
    obtain ⟨rfl, rfl⟩ := Prod.mk.inj (Option.some.inj h)
    exact Run.nil
  | cons x inputs ih =>
    obtain ⟨t, input⟩ := x
    rw [moves] at h
    split at h
    · cases h
    · rename_i s₁ hstep
      obtain ⟨⟨ms, s₂⟩, hrest, heq⟩ := Option.map_eq_some_iff.mp h
      obtain ⟨rfl, rfl⟩ := Prod.mk.inj heq
      exact (ih hrest).cons ⟨rfl, rfl, input, hstep⟩

structure Intact [DecidableEq T] (ms : List (Move T Nick Ip Port)) (s : Server T Nick Ip Port) :
    Prop where
  holder : ∀ m ∈ ms, m.point.releases → m.before.CLIENTS_LOCK = some m.thread
  once : ∀ t, ms.countP (fun m => m.acquiredBy t) =
    ms.countP (fun m => m.releasedBy t) + if s.CLIENTS_LOCK = some t then 1 else 0
  ended : ∀ t, (s.point t).isEnded → s.CLIENTS_LOCK ≠ some t
  refusal : ∀ m ∈ ms, m.point.refusing → m.after.clientList = m.before.clientList ∧
    m.after.addr_to_nick = m.before.addr_to_nick ∧
    ∀ error, m.after.point m.thread ≠ .outside (.ended (some (.raised error)))

def Quiet (s : Server T Nick Ip Port) : Prop :=
  ∀ t, (s.point t).isEnded

section Steps

variable [DecidableEq T] {s s' : Server T Nick Ip Port} {t u : T} {input : Input Nick Ip Port}
  {p : Point Nick Ip Port}

-- A thread goes to `p` and acquires the lock, releases it or leaves it alone.
inductive Effect (s s' : Server T Nick Ip Port) (t : T) (p : Point Nick Ip Port) : Prop where
  | acquire (hpoint : (s.point t).acquires) (hreleases : (s.point t).releases = false)
      (hfree : s.CLIENTS_LOCK = none) (hlock : s'.CLIENTS_LOCK = some t) (hholds : p.holds)
      (hrefuses : ¬s.Refuses t) (hrefusing : p.refusing = false)
  | release (hpoint : (s.point t).releases) (hacquires : (s.point t).acquires = false)
      (hlock : s'.CLIENTS_LOCK = none) (hrefuses : ¬s.Refuses t)
      (hfull : s.CLIENTS_LOCK ≠ none → p.holds = false)
      (hrefused : s.CLIENTS_LOCK ≠ none → (s.point t).holds → (s.point t).refusing → p.refusing)
      (hrefusing : p.refusing → (s.point t).refusing)
  | other (hacquires : (s.point t).acquires = false) (hreleases : (s.point t).releases = false)
      (hlock : s'.CLIENTS_LOCK = s.CLIENTS_LOCK) (hholds : p.holds = (s.point t).holds)
      (hrefusing : p.refusing ↔ s.Refuses t)

omit [DecidableEq Nick] in
theorem release_effect {next error : Point Nick Ip Port} (hpoint : (s.point t).releases)
    (hacquires : (s.point t).acquires = false) (hrefuses : ¬s.Refuses t)
    (hfull : next.holds = false)
    (hrefused : (s.point t).holds → (s.point t).refusing → next.refusing)
    (hnext : next.refusing → (s.point t).refusing) (herror : error.refusing = false) :
    ∃ p, (s.release t next error).point = Function.update s.point t p ∧
      Effect s (s.release t next error) t p := by
  unfold Server.release
  cases hlock : s.CLIENTS_LOCK with
  | none =>
    refine ⟨error, rfl, .release hpoint hacquires hlock hrefuses ?_ ?_ ?_⟩
    · exact fun hne => absurd hlock hne
    · exact fun hne => absurd hlock hne
    · simp [herror]
  | some u =>
    exact ⟨next, rfl, .release hpoint hacquires rfl hrefuses (fun _ => hfull) (fun _ => hrefused)
      hnext⟩

theorem register_effect {user : User Nick Ip Port} {conn : ℕ} {q : Register Nick Ip Port}
    (hp : s.point t = .register user conn q) :
    ∃ p, (s.register_client t user conn q).point = Function.update s.point t p ∧
      Effect s (s.register_client t user conn q) t p := by
  have hacquires : (s.point t).acquires = false := by rw [hp]; rfl
  have hreleases : (s.point t).releases = false := by rw [hp]; rfl
  cases q with
  | check =>
    refine ⟨_, rfl, .other hacquires hreleases rfl ?_ ?_⟩
    · rw [hp]
      split <;> rfl
    · simp only [Server.Refuses, hp]
      split <;> simp [*, Point.refusing]
  | collect => exact ⟨_, rfl, .other hacquires hreleases rfl (by rw [hp]; rfl)
      (by simp [Server.Refuses, hp, Point.refusing])⟩
  | insert added_list => exact ⟨_, rfl, .other hacquires hreleases rfl (by rw [hp]; rfl)
      (by simp [Server.Refuses, hp, Point.refusing])⟩
  | address added_list => exact ⟨_, rfl, .other hacquires hreleases rfl (by rw [hp]; rfl)
      (by simp [Server.Refuses, hp, Point.refusing])⟩

theorem unregister_effect {nickname : Nick} {addr : ℕ} {q : Unregister Ip Port}
    (hp : s.point t = .unregister nickname addr q) :
    ∃ p, (s.unregister_client t nickname addr q).point = Function.update s.point t p ∧
      Effect s (s.unregister_client t nickname addr q) t p := by
  have hacquires : (s.point t).acquires = false := by rw [hp]; rfl
  have hreleases : (s.point t).releases = false := by rw [hp]; rfl
  cases q with
  | check =>
    refine ⟨_, rfl, .other hacquires hreleases rfl ?_ ?_⟩
    · rw [hp]
      split <;> rfl
    · simp only [Server.Refuses, hp]
      split <;> simp [*, Point.refusing]
  | pop =>
    simp only [Server.unregister_client]
    split <;> exact ⟨_, rfl, .other hacquires hreleases rfl (by rw [hp]; rfl)
      (by simp [Server.Refuses, hp, Point.refusing])⟩
  | address removed_client =>
    simp only [Server.unregister_client]
    split <;> exact ⟨_, rfl, .other hacquires hreleases rfl (by rw [hp]; rfl)
      (by simp [Server.Refuses, hp, Point.refusing])⟩

-- Sending and the end of a call leave the lock alone.
omit [DecidableEq Nick] in
theorem outside_effect {o next : Outside Nick Ip Port} (hp : s.point t = .outside o)
    (hacquires : (Point.outside o).acquires = false) (hlock : s'.CLIENTS_LOCK = s.CLIENTS_LOCK)
    (hpoint : s'.point = Function.update s.point t (.outside next)) :
    ∃ p, s'.point = Function.update s.point t p ∧ Effect s s' t p :=
  ⟨.outside next, hpoint, .other (by rw [hp]; exact hacquires) (by rw [hp]; rfl) hlock
    (by rw [hp]; rfl) (by simp [Server.Refuses, hp, Point.refusing])⟩

theorem loop_effect {rest : List (Nick × Entry Ip Port)} {msg : Message Nick Ip Port}
    {exclude : Option Nick} {caller : Caller} (sent : Sent)
    (hp : s.point t = .outside (.loop rest msg exclude caller)) :
    ∃ p, (s.broadcast_clients t msg exclude caller sent rest).point =
        Function.update s.point t p ∧
      Effect s (s.broadcast_clients t msg exclude caller sent rest) t p := by
  unfold Server.broadcast_clients
  split
  · split <;> exact outside_effect hp rfl rfl rfl
  · split
    · exact outside_effect hp rfl rfl rfl
    · split <;> exact outside_effect hp rfl rfl rfl

theorem acquire_effect {call : Call Nick Ip Port} {sent : Sent}
    (hp : s.point t = .outside (.acquire call)) (h : s.step t (.go sent) = some s') :
    ∃ p, s'.point = Function.update s.point t p ∧ Effect s s' t p := by
  simp only [Server.step, hp] at h
  split at h
  · rename_i hfree
    obtain rfl := Option.some.inj h
    refine ⟨call.enter, rfl, .acquire (by rw [hp]; rfl) (by rw [hp]; rfl) hfree rfl ?_
      (by simp [Server.Refuses, hp]) ?_⟩
    · cases call <;> rfl
    · cases call <;> rfl
  · cases h

theorem start_effect {call : Call Nick Ip Port} (h : s.step t (.start call) = some s') :
    ∃ p, s'.point = Function.update s.point t p ∧ Effect s s' t p := by
  simp only [Server.step] at h
  split at h
  · rename_i hp
    split at h
    · obtain rfl := Option.some.inj h
      exact outside_effect hp rfl rfl rfl
    · cases h
  · cases h

theorem go_effect {sent : Sent} (h : s.step t (.go sent) = some s') :
    ∃ p, s'.point = Function.update s.point t p ∧ Effect s s' t p := by
  cases hp : s.point t with
  | outside o =>
    cases o with
    | ended outcome => simp [Server.step, hp] at h
    | acquire call => exact acquire_effect hp h
    | sendInitial user conn added_list =>
      simp only [Server.step, hp, Option.some.injEq] at h
      subst h
      cases sent <;> exact outside_effect hp rfl rfl rfl
    | loop rest msg exclude caller =>
      simp only [Server.step, hp, Option.some.injEq] at h
      subst h
      exact loop_effect sent hp
  | register user conn q =>
    simp only [Server.step, hp, Option.some.injEq] at h
    subst h
    exact register_effect hp
  | unregister nickname addr q =>
    simp only [Server.step, hp, Option.some.injEq] at h
    subst h
    exact unregister_effect hp
  | broadcast msg exclude caller =>
    simp only [Server.step, hp, Option.some.injEq] at h
    subst h
    exact ⟨_, rfl, .other (by rw [hp]; rfl) (by rw [hp]; rfl) rfl (by rw [hp]; rfl)
      (by simp [Server.Refuses, hp, Point.refusing])⟩
  | refused =>
    simp only [Server.step, hp, Option.some.injEq] at h
    subst h
    exact release_effect (by rw [hp]; rfl) (by rw [hp]; rfl) (by simp [Server.Refuses, hp]) rfl
      (fun _ _ => rfl) (by simp [hp, Point.refusing]) rfl
  | returnFalse =>
    simp only [Server.step, hp, Option.some.injEq] at h
    subst h
    exact release_effect (by rw [hp]; rfl) (by rw [hp]; rfl) (by simp [Server.Refuses, hp]) rfl
      (by simp [hp, Point.holds]) (by simp [hp, Point.refusing]) rfl
  | atFinally next =>
    simp only [Server.step, hp, Option.some.injEq] at h
    subst h
    exact release_effect (by rw [hp]; rfl) (by rw [hp]; rfl) (by simp [Server.Refuses, hp]) rfl
      (by simp [hp, Point.refusing]) (by simp [Point.refusing]) rfl

theorem step_effect (h : s.step t input = some s') :
    ∃ p, s'.point = Function.update s.point t p ∧ Effect s s' t p := by
  cases input with
  | start call => exact start_effect h
  | go sent => exact go_effect h

end Steps

section Runs

variable [DecidableEq T] {s s' : Server T Nick Ip Port} {m : Move T Nick Ip Port}
  {ms : List (Move T Nick Ip Port)}

omit [DecidableEq Nick] in
theorem Point.releases_of_refusing {p : Point Nick Ip Port} (h : p.refusing) : p.releases := by
  cases p <;> first | rfl | cases h

omit [DecidableEq Nick] in
theorem Point.holds_of_releases {p : Point Nick Ip Port} (h : p.releases)
    (hrefusing : p.refusing = false) : p.holds := by
  cases p with
  | refused => rfl
  | returnFalse => exact absurd hrefusing (by simp [refusing])
  | atFinally next => rfl
  | _ => cases h

omit [DecidableEq Nick] in
theorem Point.not_refusing_of_ended {p : Point Nick Ip Port} (h : p.isEnded) :
    p.refusing = false := by
  cases p <;> first | rfl | cases h

theorem Moves.effect (h : Moves s m s') :
    m.before = s ∧ ∃ p, s'.point = Function.update s.point m.thread p ∧ Effect s s' m.thread p := by
  obtain ⟨hbefore, -, input, hstep⟩ := h
  exact ⟨hbefore, step_effect hstep⟩

-- The thread that took the lock still has it to release.
def Owned (s : Server T Nick Ip Port) : Prop :=
  ∀ t, s.CLIENTS_LOCK = some t → (s.point t).holds

structure Orderly (s : Server T Nick Ip Port) : Prop where
  owned : Owned s
  holder : ∀ t, (s.point t).holds → s.CLIENTS_LOCK = some t
  calm : ∀ t, (s.point t).refusing = false

theorem Owned.moves (h : Owned s) (hs : Moves s m s') : Owned s' := by
  obtain ⟨-, p, hpoint, heffect⟩ := hs.effect
  intro u hu
  rw [hpoint]
  rcases eq_or_ne u m.thread with rfl | hne
  · rw [Function.update_self]
    cases heffect with
    | acquire _ _ _ _ hholds => exact hholds
    | release _ _ hlock => exact absurd (hu.symm.trans hlock) (by simp)
    | other _ _ hlock hholds =>
      rw [hholds]
      exact h _ (hlock ▸ hu)
  · rw [Function.update_of_ne hne]
    cases heffect with
    | acquire _ _ _ hlock => exact absurd (Option.some.inj (hu.symm.trans hlock)) hne
    | release _ _ hlock => exact absurd (hu.symm.trans hlock) (by simp)
    | other _ _ hlock => exact h u (hlock ▸ hu)

theorem Orderly.moves (h : Orderly s) (hs : Moves s m s') (hgood : ¬s.Refuses m.thread) :
    Orderly s' := by
  refine ⟨h.owned.moves hs, ?_, ?_⟩
  · obtain ⟨-, p, hpoint, heffect⟩ := hs.effect
    intro u hu
    rw [hpoint] at hu
    rcases eq_or_ne u m.thread with rfl | hne
    · rw [Function.update_self] at hu
      cases heffect with
      | acquire _ _ _ hlock => exact hlock
      | release hreleases _ _ _ hfull =>
        have hlock := h.holder _ (Point.holds_of_releases hreleases (h.calm _))
        rw [hfull (by simp [hlock])] at hu
        cases hu
      | other _ _ hlock hholds => exact hlock.trans (h.holder _ (hholds ▸ hu))
    · rw [Function.update_of_ne hne] at hu
      have hown := h.holder u hu
      cases heffect with
      | acquire _ _ hfree => exact absurd (hown.symm.trans hfree) (by simp)
      | release hreleases =>
        have hlock := h.holder _ (Point.holds_of_releases hreleases (h.calm _))
        exact absurd (Option.some.inj (hown.symm.trans hlock)) hne
      | other _ _ hlock => exact hlock.trans hown
  · obtain ⟨-, p, hpoint, heffect⟩ := hs.effect
    intro u
    rw [hpoint]
    rcases eq_or_ne u m.thread with rfl | hne
    · rw [Function.update_self]
      cases heffect with
      | acquire _ _ _ _ _ _ hrefusing => exact hrefusing
      | release _ _ _ _ _ _ hrefusing =>
        have hcalm := h.calm m.thread
        cases hp : p.refusing with
        | false => rfl
        | true => exact (hrefusing hp).symm.trans hcalm
      | other _ _ _ _ hrefusing => exact Bool.eq_false_iff.mpr (fun hp => hgood (hrefusing.mp hp))
    · rw [Function.update_of_ne hne]
      exact h.calm u

-- Each release answers the acquire of the same thread.
structure Answered (ms : List (Move T Nick Ip Port)) (s : Server T Nick Ip Port) : Prop where
  orderly : Orderly s
  holder : ∀ m ∈ ms, m.point.releases → m.before.CLIENTS_LOCK = some m.thread
  once : ∀ t, ms.countP (fun m => m.acquiredBy t) =
    ms.countP (fun m => m.releasedBy t) + if s.CLIENTS_LOCK = some t then 1 else 0
  calm : ∀ m ∈ ms, m.point.refusing = false

theorem Answered.once_moves (h : Answered ms s) (hs : Moves s m s') (t : T) :
    (ms ++ [m]).countP (fun m => m.acquiredBy t) =
      (ms ++ [m]).countP (fun m => m.releasedBy t) +
        if s'.CLIENTS_LOCK = some t then 1 else 0 := by
  obtain ⟨rfl, p, -, heffect⟩ := hs.effect
  have honce := h.once t
  rw [List.countP_append, List.countP_append, List.countP_singleton, List.countP_singleton]
  simp only [Move.acquiredBy, Move.releasedBy, Move.point]
  cases heffect with
  | acquire hacquires hreleases hfree hlock =>
    rw [hfree] at honce
    simp only [hacquires, hreleases, hlock]
    simp only [Move.acquiredBy, Move.releasedBy, Move.point] at honce
    rcases eq_or_ne m.thread t with heq | hne
    · simp [heq] at honce ⊢
      omega
    · simp [hne] at honce ⊢
      omega
  | release hreleases hacquires hlock =>
    have hheld := h.orderly.holder _ (Point.holds_of_releases hreleases (h.orderly.calm _))
    rw [hheld] at honce
    simp only [hacquires, hreleases, hlock]
    simp only [Move.acquiredBy, Move.releasedBy, Move.point] at honce
    rcases eq_or_ne m.thread t with heq | hne
    · simp [heq] at honce ⊢
      omega
    · simp [hne] at honce ⊢
      omega
  | other hacquires hreleases hlock =>
    simp only [hacquires, hreleases, hlock]
    simpa [Move.acquiredBy, Move.releasedBy, Move.point] using honce

theorem Answered.moves (h : Answered ms s) (hs : Moves s m s') (hgood : ¬s.Refuses m.thread) :
    Answered (ms ++ [m]) s' := by
  have hbefore := hs.effect.1
  refine ⟨h.orderly.moves hs hgood, ?_, h.once_moves hs, ?_⟩
  · rw [List.forall_mem_append, List.forall_mem_singleton]
    refine ⟨h.holder, ?_⟩
    intro hreleases
    rw [Move.point, hbefore] at hreleases
    rw [hbefore]
    exact h.orderly.holder _ (Point.holds_of_releases hreleases (h.orderly.calm _))
  · rw [List.forall_mem_append, List.forall_mem_singleton]
    refine ⟨h.calm, ?_⟩
    rw [Move.point, hbefore]
    exact h.orderly.calm _

omit [DecidableEq Nick] in
theorem Answered.intact (h : Answered ms s) : Intact ms s where
  holder := h.holder
  once := h.once
  ended := by
    intro t hended hlock
    have hholds := h.orderly.owned t hlock
    cases hp : s.point t with
    | outside o =>
      rw [hp] at hholds
      cases hholds
    | _ =>
      rw [hp] at hended
      cases hended
  refusal := by
    intro m hm hrefusing
    rw [h.calm m hm] at hrefusing
    cases hrefusing

omit [DecidableEq Nick] in
theorem answered_init : Answered [] (Server.init : Server T Nick Ip Port) where
  orderly := by
    refine ⟨?_, ?_, ?_⟩
    · simp [Owned, Server.init]
    · simp [Server.init, Point.holds]
    · simp [Server.init, Point.refusing]
  holder := by simp
  once := by simp [Server.init]
  calm := by simp

-- A refused call is on its way to a release of a lock that it does not hold, or has been there.
def Broken (ms : List (Move T Nick Ip Port)) (s : Server T Nick Ip Port) : Prop :=
  (∃ m ∈ ms, m.point.releases ∧ m.before.CLIENTS_LOCK ≠ some m.thread) ∨
    ∃ t, (s.point t).refusing

theorem Broken.moves (h : Broken ms s) (howned : Owned s) (hs : Moves s m s') :
    Broken (ms ++ [m]) s' := by
  obtain ⟨hbefore, p, hpoint, heffect⟩ := hs.effect
  rcases h with ⟨x, hx, hwrong⟩ | ⟨u, hu⟩
  · exact Or.inl ⟨x, List.mem_append_left _ hx, hwrong⟩
  · rcases eq_or_ne u m.thread with rfl | hne
    · have hreleases := Point.releases_of_refusing hu
      rcases Decidable.em (s.CLIENTS_LOCK = some m.thread) with hlock | hlock
      · refine Or.inr ⟨m.thread, ?_⟩
        rw [hpoint, Function.update_self]
        cases heffect with
        | acquire _ hnot => exact absurd hreleases (by simp [hnot])
        | release _ _ _ _ _ hrefused => exact hrefused (by simp [hlock]) (howned _ hlock) hu
        | other _ hnot => exact absurd hreleases (by simp [hnot])
      · refine Or.inl ⟨m, List.mem_append_right _ (List.mem_singleton_self m), ?_, ?_⟩
        · rw [Move.point, hbefore]
          exact hreleases
        · rw [hbefore]
          exact hlock
    · refine Or.inr ⟨u, ?_⟩
      rw [hpoint, Function.update_of_ne hne]
      exact hu

theorem Moves.broken (hs : Moves s m s') (hrefuses : s.Refuses m.thread) :
    Broken (ms ++ [m]) s' := by
  obtain ⟨-, p, hpoint, heffect⟩ := hs.effect
  refine Or.inr ⟨m.thread, ?_⟩
  rw [hpoint, Function.update_self]
  cases heffect with
  | acquire _ _ _ _ _ hnot => exact absurd hrefuses hnot
  | release _ _ _ hnot => exact absurd hrefuses hnot
  | other _ _ _ _ hrefusing => exact hrefusing.mpr hrefuses

theorem broken_of_refusal (hrun : Run Moves Server.init ms s) :
    Owned s ∧ ((∃ m ∈ ms, m.before.Refuses m.thread) → Broken ms s) := by
  induction hrun with
  | nil => exact ⟨by simp [Owned, Server.init], by simp⟩
  | snoc hrun hs ih =>
    obtain ⟨howned, hbroken⟩ := ih
    refine ⟨howned.moves hs, ?_⟩
    rintro ⟨m, hm, hrefuses⟩
    rcases List.mem_append.mp hm with hm | hm
    · exact (hbroken ⟨m, hm, hrefuses⟩).moves howned hs
    · rw [List.mem_singleton.mp hm, hs.effect.1] at hrefuses
      exact hs.broken hrefuses

-- Once no call is running the condition is necessary, too.
theorem clients_lock_intact_iff (hrun : Run Moves Server.init ms s) :
    ((∀ m ∈ ms, ¬m.before.Refuses m.thread) → Intact ms s) ∧
      (Quiet s → (Intact ms s ↔ ∀ m ∈ ms, ¬m.before.Refuses m.thread)) := by
  have hintact : (∀ m ∈ ms, ¬m.before.Refuses m.thread) → Intact ms s := by
    intro hgood
    have hanswered : Answered ms s := by
      refine hrun.history (I := Answered) answered_init ?_ hgood
      intro ms s m s' _ h hm hs
      rw [hs.effect.1] at hm
      exact h.moves hs hm
    exact hanswered.intact
  refine ⟨hintact, ?_⟩
  intro hquiet
  refine ⟨?_, hintact⟩
  intro h m hm hrefuses
  rcases (broken_of_refusal hrun).2 ⟨m, hm, hrefuses⟩ with ⟨x, hx, hreleases, hlock⟩ | ⟨t, ht⟩
  · exact hlock (h.holder x hx hreleases)
  · rw [Point.not_refusing_of_ended (hquiet t)] at ht
    cases ht

end Runs

theorem intact_registration :
    ∃ (ms : List (Move Unit ℕ ℕ ℕ)) (s : Server Unit ℕ ℕ ℕ),
      Run Moves Server.init ms s ∧ s.Listed 7 ∧ Intact ms s := by
  have hrun : ∃ (ms : List (Move Unit ℕ ℕ ℕ)) (s : Server Unit ℕ ℕ ℕ),
      Run Moves Server.init ms s ∧ s.Listed 7 ∧ ∀ m ∈ ms, ¬m.before.Refuses m.thread := by
    refine ⟨_, _, run_of_moves (((), .start (.register ⟨7, 1, 2⟩ 0)) ::
      List.replicate 6 ((), .go .delivered)) rfl, ?_, ?_⟩
    · decide
    · decide
  obtain ⟨ms, s, hrun, hlisted, hgood⟩ := hrun
  exact ⟨ms, s, hrun, hlisted, (clients_lock_intact_iff hrun).1 hgood⟩

-- An unknown nickname ends in an exception, or in the release of the lock of another thread.
theorem unregister_unknown_fails :
    (∃ (ms : List (Move Bool ℕ ℕ ℕ)) (s : Server Bool ℕ ℕ ℕ), Run Moves Server.init ms s ∧
      (∃ m ∈ ms, m.before.Refuses m.thread) ∧
      s.point false = .outside (.ended (some (.raised .RuntimeError)))) ∧
    ∃ (ms : List (Move Bool ℕ ℕ ℕ)) (s : Server Bool ℕ ℕ ℕ), Run Moves Server.init ms s ∧
      ∃ m ∈ ms, m.thread = false ∧ m.point.releases ∧ m.before.CLIENTS_LOCK = some true ∧
        m.after.CLIENTS_LOCK = none := by
  constructor
  · refine ⟨_, _, run_of_moves [(false, .start (.unregister 7 0)), (false, .go .delivered),
      (false, .go .delivered), (false, .go .delivered), (false, .go .delivered)] rfl, ?_, rfl⟩
    decide
  · refine ⟨_, _, run_of_moves [(false, .start (.unregister 7 0)), (false, .go .delivered),
      (false, .go .delivered), (false, .go .delivered),
      (true, .start (.broadcast (.message "") none .process_request)), (true, .go .delivered),
      (false, .go .delivered)] rfl, ?_⟩
    decide

end ClientsLock
