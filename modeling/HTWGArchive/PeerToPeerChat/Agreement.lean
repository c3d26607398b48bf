import HTWGArchive.PeerToPeerChat.UserList

namespace PeerToPeerChat

-- The nicknames of an initial list for `conn` that is still to be sent.
def Handler.unsent {Nick Ip Port : Type} : Handler Nick Ip Port → ℕ → List Nick
  | .sendInitial _ c added_list, conn => if c = conn then added_list.map User.nickname else []
  | _, _ => []

def Handler.WillSend {Nick Ip Port : Type} : Handler Nick Ip Port → ℕ → Prop
  | .idle, _ => False
  | .sends rest _ _ _, conn => ∃ x ∈ rest, x.2.conn = conn
  | _, _ => True

namespace System

section Statement

variable {Nick Ip Port : Type} [DecidableEq Nick]

def Registered (s : System Nick Ip Port) (n : Nick) : Prop :=
  n ∈ s.clientList.map Prod.fst

def Quiet (s : System Nick Ip Port) : Prop :=
  (∀ n, s.handler n = .idle) ∧ ∀ conn, s.queue conn = []

def Agreed (s : System Nick Ip Port) : Prop :=
  ∀ x ∈ s.clientList, ∀ m, (s.client x.2.conn).clients m ≠ none ↔ s.Registered m ∧ m ≠ x.1

def unsent (s : System Nick Ip Port) (n : Nick) (conn : ℕ) : List Nick :=
  (s.handler n).unsent conn

def meets (s : System Nick Ip Port) : Event Nick Ip Port → Bool
  | .register _ => true
  | .unregister n addr => decide (n ∉ s.clientList.map Prod.fst) || (s.addr_to_nick addr).isSome
  | .proceed n =>
    match s.handler n with
    | .sends (x :: _) msg exclude _ =>
      decide (exclude = some x.1) ||
        (!s.closed x.2.conn &&
          msg.removed.all (fun user => decide (user.nickname ∉ s.unsent x.1 x.2.conn)))
    | _ => true
  | .deliver _ => true

end Statement

end System

section Clients

variable {Nick Ip Port : Type} [DecidableEq Nick] [DecidableEq Ip] [DecidableEq Port]

namespace Clients

theorem mem_added (c : Clients Nick Ip Port) (users : List (User Nick Ip Port)) (m : Nick) :
    (c.update_user_list ⟨users, []⟩).clients m ≠ Option.none ↔
      c.clients m ≠ Option.none ∨ m ∈ users.map User.nickname := by
  change (users.foldl add c).clients m ≠ _ ↔ _
  induction users generalizing c with
  | nil => simp
  | cons user users ih =>
    rw [List.foldl_cons, ih, List.map_cons, List.mem_cons]
    by_cases h : m = user.nickname
    · subst h
      simp [add]
    · simp [add, h]

theorem mem_removed (c : Clients Nick Ip Port) (user : User Nick Ip Port) (m : Nick) :
    (c.update_user_list ⟨[], [user]⟩).clients m ≠ Option.none ↔
      c.clients m ≠ Option.none ∧ m ≠ user.nickname := by
  change (remove [user] c).clients m ≠ _ ↔ _
  have herase : Function.update c.clients user.nickname Option.none m ≠ Option.none ↔
      c.clients m ≠ Option.none ∧ m ≠ user.nickname := by
    by_cases h : m = user.nickname
    · subst h
      simp
    · simp [h]
  rw [remove]
  split
  · rename_i hnone
    refine ⟨fun hm => ⟨hm, ?_⟩, fun hm => hm.1⟩
    rintro rfl
    exact hm hnone
  · simp only [remove]
    split
    · exact herase
    · exact herase

end Clients

end Clients

namespace System

variable {Nick Ip Port : Type} [DecidableEq Nick] [DecidableEq Ip] [DecidableEq Port]

-- The client's map once everything on the way to it has been delivered.
def final (s : System Nick Ip Port) (conn : ℕ) : Clients Nick Ip Port :=
  (s.queue conn).foldl Clients.update_user_list (s.client conn)

def Knows (s : System Nick Ip Port) (conn : ℕ) (m : Nick) : Prop :=
  (s.final conn).clients m ≠ none

def WillSend (s : System Nick Ip Port) (m : Nick) (conn : ℕ) : Prop :=
  (s.handler m).WillSend conn

-- The message of a handler says what has become of its own nickname.
def Says (s : System Nick Ip Port) (m : Nick) (msg : Users Nick Ip Port) (exclude : Option Nick)
    (close : Option ℕ) : Prop :=
  ∃ user : User Nick Ip Port, user.nickname = m ∧
    ((msg = ⟨[user], []⟩ ∧ exclude = some m ∧ close = none ∧ s.Registered m) ∨
      (msg = ⟨[], [user]⟩ ∧ exclude = none ∧ ¬ s.Registered m ∧
        ∃ c, close = some c ∧ c < s.accepted ∧ ∀ x ∈ s.clientList, x.2.conn ≠ c))

def Proper (s : System Nick Ip Port) (owner : ℕ → Nick) (m : Nick) :
    Handler Nick Ip Port → Prop
  | .idle => True
  | .sendInitial user conn added_list => user.nickname = m ∧
      (∃ x ∈ s.clientList, x.1 = m ∧ x.2.conn = conn) ∧ m ∉ added_list.map User.nickname
  | .snapshot msg exclude close => s.Says m msg exclude close
  | .sends rest msg exclude close => s.Says m msg exclude close ∧
      ∀ x ∈ rest, x.2.conn < s.accepted ∧ owner x.2.conn = x.1

structure Tracked (s : System Nick Ip Port) (owner : ℕ → Nick) : Prop where
  conns : ∀ x ∈ s.clientList,
    x.2.conn < s.accepted ∧ owner x.2.conn = x.1 ∧ s.closed x.2.conn = false
  fresh : ∀ c, s.accepted ≤ c →
    (∀ m, ¬ s.Knows c m) ∧ s.queue c = [] ∧ s.closed c = false
  handlers : ∀ m, s.Proper owner m (s.handler m)
  own : ∀ x ∈ s.clientList, ¬ s.Knows x.2.conn x.1
  listed : ∀ x ∈ s.clientList, ∀ m, m ≠ x.1 → s.Registered m →
    s.Knows x.2.conn m ∨ m ∈ s.unsent x.1 x.2.conn ∨ s.WillSend m x.2.conn
  unlisted : ∀ x ∈ s.clientList, ∀ m, m ≠ x.1 → ¬ s.Registered m →
    (¬ s.Knows x.2.conn m ∧ m ∉ s.unsent x.1 x.2.conn) ∨ s.WillSend m x.2.conn

variable {s s' : System Nick Ip Port} {owner : ℕ → Nick} {n m k : Nick} {c conn : ℕ}

theorem tracked_init (owner : ℕ → Nick) : (init : System Nick Ip Port).Tracked owner where
  conns := by simp [init]
  fresh := fun c _ => ⟨fun m hm => hm rfl, rfl, rfl⟩
  handlers := fun m => trivial
  own := by simp [init]
  listed := by simp [init]
  unlisted := by simp [init]

theorem final_send (s : System Nick Ip Port) (conn : ℕ) (msg : Users Nick Ip Port) (c : ℕ) :
    (s.send conn msg).final c =
      if c = conn then (s.final c).update_user_list msg else s.final c := by
  unfold final send
  by_cases h : c = conn
  · subst h
    simp [List.foldl_append]
  · simp [h]

theorem Tracked.agreed (h : s.Tracked owner) (hquiet : s.Quiet) : s.Agreed := by
  obtain ⟨hidle, hqueue⟩ := hquiet
  intro x hx m
  have hfinal : s.final x.2.conn = s.client x.2.conn := by rw [final, hqueue]; rfl
  have hsend : ¬ s.WillSend m x.2.conn := by rw [WillSend, hidle]; exact id
  have hunsent : m ∉ s.unsent x.1 x.2.conn := by
    rw [unsent, hidle]
    exact List.not_mem_nil
  rw [← hfinal]
  change s.Knows x.2.conn m ↔ _
  constructor
  · intro hknows
    have hne : m ≠ x.1 := fun heq => h.own x hx (heq ▸ hknows)
    refine ⟨?_, hne⟩
    by_contra hout
    rcases h.unlisted x hx m hne hout with hnot | hwill
    · exact hnot.1 hknows
    · exact hsend hwill
  · rintro ⟨hreg, hne⟩
    rcases h.listed x hx m hne hreg with hknows | hun | hwill
    · exact hknows
    · exact absurd hun hunsent
    · exact absurd hwill hsend

theorem Tracked.deliver (h : s.Tracked owner) (hs : s.deliver conn = some s') :
    s'.Tracked owner := by
  unfold System.deliver at hs
  split at hs
  · cases hs
  · rename_i msg msgs hqueue
    obtain rfl := Option.some.inj hs
    have hfinal : ∀ c, final { s with
        client := Function.update s.client conn ((s.client conn).update_user_list msg)
        queue := Function.update s.queue conn msgs } c = s.final c := by
      intro c
      unfold final
      by_cases hc : c = conn
      · subst hc
        simp [hqueue]
      · simp [hc]
    have hknows : ∀ c m, Knows { s with
        client := Function.update s.client conn ((s.client conn).update_user_list msg)
        queue := Function.update s.queue conn msgs } c m ↔ s.Knows c m := by
      intro c m
      rw [Knows, hfinal, Knows]
    refine ⟨h.conns, ?_, h.handlers, ?_, ?_, ?_⟩
    · intro c hc
      obtain ⟨hnone, hempty, hopen⟩ := h.fresh c hc
      have hne : c ≠ conn := by
        rintro rfl
        rw [hempty] at hqueue
        cases hqueue
      refine ⟨fun m hm => hnone m ((hknows c m).mp hm), ?_, hopen⟩
      simp only [Function.update_of_ne hne]
      exact hempty
    · intro x hx hm
      exact h.own x hx ((hknows _ _).mp hm)
    · intro x hx m hne hreg
      rw [hknows]
      exact h.listed x hx m hne hreg
    · intro x hx m hne hreg
      rw [hknows]
      exact h.unlisted x hx m hne hreg

section Set

variable {th : Handler Nick Ip Port} {msg : Users Nick Ip Port} {exclude : Option Nick}
  {close : Option ℕ} {x : Nick × Entry Ip Port} {rest : List (Nick × Entry Ip Port)}

omit [DecidableEq Ip] [DecidableEq Port] in
theorem handler_set (s : System Nick Ip Port) (k : Nick) (th : Handler Nick Ip Port) (m : Nick) :
    (s.set k th).handler m = if m = k then th else s.handler m := by
  simp [set, Function.update_apply]

omit [DecidableEq Ip] [DecidableEq Port] in
theorem proper_set (h : ∀ m, s.Proper owner m (s.handler m)) (hk : s.Proper owner k th) (m : Nick) :
    (s.set k th).Proper owner m ((s.set k th).handler m) := by
  change s.Proper owner m _
  rw [handler_set]
  split
  · rename_i heq
    rw [heq]
    exact hk
  · exact h m

-- Nothing is left to send about `m` to the client of `x`.
def Settled (s : System Nick Ip Port) (x : Nick × Entry Ip Port) (m : Nick) : Prop :=
  (s.Registered m → s.Knows x.2.conn m) ∧
    (¬ s.Registered m → ¬ s.Knows x.2.conn m ∧ m ∉ s.unsent x.1 x.2.conn)

theorem Tracked.set (h : s.Tracked owner) (hk : s.Proper owner k th)
    (hfewer : ∀ c, ∀ m ∈ th.unsent c, m ∈ s.unsent k c)
    (hsent : ∀ x ∈ s.clientList, ∀ m ∈ s.unsent k x.2.conn,
      m ∈ th.unsent x.2.conn ∨ s.Knows x.2.conn m)
    (hwill : ∀ x ∈ s.clientList, x.1 ≠ k → s.WillSend k x.2.conn →
      th.WillSend x.2.conn ∨ s.Settled x k) : (s.set k th).Tracked owner := by
  have hfewer' : ∀ n c, ∀ m ∈ (s.set k th).unsent n c, m ∈ s.unsent n c := by
    intro n c m hm
    rw [unsent, handler_set] at hm
    split at hm
    · rename_i heq
      rw [heq]
      exact hfewer c m hm
    · exact hm
  have hwill' : ∀ x ∈ s.clientList, ∀ m, m ≠ x.1 → s.WillSend m x.2.conn →
      (s.set k th).WillSend m x.2.conn ∨ s.Settled x m := by
    intro x hx m hne hm
    rw [WillSend, handler_set]
    split
    · rename_i heq
      subst heq
      exact hwill x hx hne.symm hm
    · exact Or.inl hm
  refine ⟨h.conns, h.fresh, proper_set h.handlers hk, h.own, ?_, ?_⟩
  · intro x hx m hne hreg
    rcases h.listed x hx m hne hreg with hknows | hunsent | hm
    · exact Or.inl hknows
    · rw [unsent, handler_set]
      split
      · rename_i heq
        rw [heq] at hunsent
        exact (hsent x hx m hunsent).elim (fun hm => Or.inr (Or.inl hm)) Or.inl
      · exact Or.inr (Or.inl hunsent)
    · rcases hwill' x hx m hne hm with hm | hsettled
      · exact Or.inr (Or.inr hm)
      · exact Or.inl (hsettled.1 hreg)
  · intro x hx m hne hreg
    rcases h.unlisted x hx m hne hreg with ⟨hknows, hunsent⟩ | hm
    · exact Or.inl ⟨hknows, fun hm => hunsent (hfewer' _ _ m hm)⟩
    · rcases hwill' x hx m hne hm with hm | hsettled
      · exact Or.inr hm
      · obtain ⟨hknows, hunsent⟩ := hsettled.2 hreg
        exact Or.inl ⟨hknows, fun hm => hunsent (hfewer' _ _ m hm)⟩

theorem Tracked.snapshot (h : s.Tracked owner) (hk : s.handler k = .snapshot msg exclude close) :
    (s.set k (.sends s.clientList msg exclude close)).Tracked owner := by
  have hproper := h.handlers k
  rw [hk] at hproper
  refine h.set ⟨hproper, fun x hx => ⟨(h.conns x hx).1, (h.conns x hx).2.1⟩⟩ ?_ ?_ ?_
  · intro c m hm
    cases hm
  · intro x _ m hm
    rw [unsent, hk] at hm
    cases hm
  · intro x hx _ _
    exact Or.inl ⟨x, hx, rfl⟩

theorem Tracked.sends_tail (h : s.Tracked owner)
    (hk : s.handler k = .sends (x :: rest) msg exclude close)
    (hhead : ∀ y ∈ s.clientList, y.1 ≠ k → y.2.conn = x.2.conn → s.Settled y k) :
    (s.set k (.sends rest msg exclude close)).Tracked owner := by
  have hproper := h.handlers k
  rw [hk] at hproper
  obtain ⟨htells, hrest⟩ := hproper
  refine h.set ⟨htells, fun y hy => hrest y (List.mem_cons_of_mem _ hy)⟩ ?_ ?_ ?_
  · intro c m hm
    cases hm
  · intro y _ m hm
    rw [unsent, hk] at hm
    cases hm
  · intro y hy hne hm
    rw [WillSend, hk] at hm
    obtain ⟨z, hz, hconn⟩ := hm
    rcases List.mem_cons.mp hz with rfl | hz
    · exact Or.inr (hhead y hy hne hconn.symm)
    · exact Or.inl ⟨z, hz, hconn⟩

theorem Tracked.skip (h : s.Tracked owner)
    (hk : s.handler k = .sends (x :: rest) msg exclude close) (hskip : exclude = some x.1) :
    (s.set k (.sends rest msg exclude close)).Tracked owner := by
  have hproper := h.handlers k
  rw [hk] at hproper
  obtain ⟨⟨user, -, hcase⟩, hrest⟩ := hproper
  have hself : x.1 = k := by
    rcases hcase with ⟨-, hexclude, -⟩ | ⟨-, hexclude, -⟩
    · rw [hskip] at hexclude
      exact Option.some.inj hexclude
    · rw [hskip] at hexclude
      cases hexclude
  refine h.sends_tail hk ?_
  intro y hy hne hconn
  have howner := (hrest x (List.mem_cons_self ..)).2
  rw [← hconn, (h.conns y hy).2.1, hself] at howner
  exact absurd howner hne

theorem knows_send (s : System Nick Ip Port) (conn : ℕ) (msg : Users Nick Ip Port) (c : ℕ) (m : Nick) :
    (s.send conn msg).Knows c m ↔
      ((if c = conn then (s.final c).update_user_list msg else s.final c).clients m ≠ none) := by
  rw [Knows, final_send]

-- A message about others than the client, none of them absent from what it should know.
theorem Tracked.sent (h : s.Tracked owner) (hconn : conn < s.accepted)
    (hadd : ∀ m, (s.send conn msg).Knows conn m → s.Knows conn m ∨
      (m ≠ owner conn ∧ (s.Registered m ∨ m ∈ s.unsent (owner conn) conn)))
    (hkeep : ∀ m, s.Registered m → s.Knows conn m → (s.send conn msg).Knows conn m) :
    (s.send conn msg).Tracked owner := by
  have hother : ∀ c m, c ≠ conn → ((s.send conn msg).Knows c m ↔ s.Knows c m) := by
    intro c m hc
    rw [knows_send, if_neg hc]
    exact Iff.rfl
  refine ⟨h.conns, ?_, h.handlers, ?_, ?_, ?_⟩
  · intro c hc
    have hne : c ≠ conn := by
      rintro rfl
      exact absurd hconn (Nat.not_lt.mpr hc)
    obtain ⟨hnone, hempty, hopen⟩ := h.fresh c hc
    refine ⟨fun m hm => hnone m ((hother c m hne).mp hm), ?_, hopen⟩
    simp only [send, Function.update_of_ne hne]
    exact hempty
  · intro x hx hm
    by_cases hc : x.2.conn = conn
    · rw [hc] at hm
      rcases hadd _ hm with hknows | ⟨hne, -⟩
      · exact h.own x hx (hc ▸ hknows)
      · exact hne (hc ▸ (h.conns x hx).2.1.symm)
    · exact h.own x hx ((hother _ _ hc).mp hm)
  · intro x hx m hne hreg
    by_cases hc : x.2.conn = conn
    · rcases h.listed x hx m hne hreg with hknows | hrest
      · rw [hc] at hknows ⊢
        exact Or.inl (hkeep m hreg hknows)
      · exact Or.inr hrest
    · rw [hother _ _ hc]
      exact h.listed x hx m hne hreg
  · intro x hx m hne hreg
    rcases h.unlisted x hx m hne hreg with ⟨hknows, hunsent⟩ | hwill
    · refine Or.inl ⟨?_, hunsent⟩
      by_cases hc : x.2.conn = conn
      · intro hm
        rw [hc] at hm
        rcases hadd m hm with hm | ⟨-, hm | hm⟩
        · exact hknows (hc ▸ hm)
        · exact hreg hm
        · rw [← hc, (h.conns x hx).2.1] at hm
          exact hunsent hm
      · rw [hother _ _ hc]
        exact hknows
    · exact Or.inr hwill

theorem Tracked.initial (h : s.Tracked owner) {user : User Nick Ip Port}
    {added_list : List (User Nick Ip Port)} (hk : s.handler k = .sendInitial user conn added_list) :
    ((s.send conn ⟨added_list, []⟩).set k (.snapshot ⟨[user], []⟩ (some k) none)).Tracked owner ∧
      s.closed conn = false := by
  have hproper := h.handlers k
  rw [hk] at hproper
  obtain ⟨huser, ⟨x, hx, hxk, hxconn⟩, hself⟩ := hproper
  obtain ⟨hlt, howner, hopen⟩ := h.conns x hx
  rw [hxconn] at hlt howner hopen
  rw [hxk] at howner
  have hreg : s.Registered k := List.mem_map.mpr ⟨x, hx, hxk⟩
  have hknows : ∀ m, (s.send conn ⟨added_list, []⟩).Knows conn m ↔
      s.Knows conn m ∨ m ∈ added_list.map User.nickname := by
    intro m
    rw [knows_send, if_pos rfl, Clients.mem_added]
    exact Iff.rfl
  have hunsent : s.unsent k conn = added_list.map User.nickname := by
    rw [unsent, hk]
    exact if_pos rfl
  refine ⟨?_, hopen⟩
  have hsent : (s.send conn ⟨added_list, []⟩).Tracked owner := by
    refine h.sent hlt ?_ (fun m _ hm => (hknows m).mpr (Or.inl hm))
    intro m hm
    rcases (hknows m).mp hm with hm | hm
    · exact Or.inl hm
    · refine Or.inr ⟨?_, Or.inr ?_⟩
      · rintro rfl
        rw [howner] at hm
        exact hself hm
      · rw [howner, hunsent]
        exact hm
  refine hsent.set ⟨user, huser, Or.inl ⟨rfl, rfl, rfl, hreg⟩⟩ ?_ ?_ ?_
  · intro c m hm
    cases hm
  · intro y hy m hm
    by_cases hc : conn = y.2.conn
    · right
      rw [← hc] at hm ⊢
      change m ∈ s.unsent k conn at hm
      rw [hunsent] at hm
      exact (hknows m).mpr (Or.inr hm)
    · change m ∈ s.unsent k y.2.conn at hm
      rw [unsent, hk, Handler.unsent, if_neg hc] at hm
      cases hm
  · intro y _ _ _
    exact Or.inl trivial

theorem Tracked.send (h : s.Tracked owner)
    (hk : s.handler k = .sends (x :: rest) msg exclude close) (hskip : exclude ≠ some x.1)
    (hmeets : ∀ user ∈ msg.removed, user.nickname ∉ s.unsent x.1 x.2.conn) :
    ((s.send x.2.conn msg).set k (.sends rest msg exclude close)).Tracked owner := by
  have hproper := h.handlers k
  rw [hk] at hproper
  obtain ⟨⟨user, huser, hcase⟩, hrest⟩ := hproper
  obtain ⟨hlt, howner⟩ := hrest x (List.mem_cons_self ..)
  have hhead : ∀ y ∈ s.clientList, y.2.conn = x.2.conn → y.1 = x.1 := by
    intro y hy hconn
    rw [← (h.conns y hy).2.1, hconn, howner]
  rcases hcase with ⟨rfl, rfl, -, hreg⟩ | ⟨rfl, -, hreg, -⟩
  · have hknows : ∀ m, (s.send x.2.conn ⟨[user], []⟩).Knows x.2.conn m ↔
        s.Knows x.2.conn m ∨ m = k := by
      intro m
      rw [knows_send, if_pos rfl, Clients.mem_added, List.map_singleton, List.mem_singleton, huser]
      exact Iff.rfl
    have hsent : (s.send x.2.conn ⟨[user], []⟩).Tracked owner := by
      refine h.sent hlt ?_ (fun m _ hm => (hknows m).mpr (Or.inl hm))
      intro m hm
      rcases (hknows m).mp hm with hm | rfl
      · exact Or.inl hm
      · refine Or.inr ⟨?_, Or.inl hreg⟩
        rintro rfl
        exact hskip (congrArg some howner)
    refine hsent.sends_tail hk ?_
    intro y _ _ hconn
    refine ⟨fun _ => ?_, fun hnot => absurd hreg hnot⟩
    rw [hconn]
    exact (hknows k).mpr (Or.inr rfl)
  · have hknows : ∀ m, (s.send x.2.conn ⟨[], [user]⟩).Knows x.2.conn m ↔
        s.Knows x.2.conn m ∧ m ≠ k := by
      intro m
      rw [knows_send, if_pos rfl, Clients.mem_removed, huser]
      exact Iff.rfl
    have hsent : (s.send x.2.conn ⟨[], [user]⟩).Tracked owner := by
      refine h.sent hlt (fun m hm => Or.inl ((hknows m).mp hm).1) ?_
      intro m hm hold
      refine (hknows m).mpr ⟨hold, ?_⟩
      rintro rfl
      exact hreg hm
    refine hsent.sends_tail hk ?_
    intro y hy _ hconn
    refine ⟨fun hnot => absurd hnot hreg, fun _ => ⟨?_, ?_⟩⟩
    · rw [hconn]
      exact fun hm => ((hknows k).mp hm).2 rfl
    · rw [hconn, hhead y hy hconn]
      have hnot := hmeets user (List.mem_singleton_self user)
      rw [huser] at hnot
      exact hnot

theorem Tracked.finish (h : s.Tracked owner) (hk : s.handler k = .sends [] msg exclude close) :
    ((s.close close).set k .idle).Tracked owner := by
  have hproper := h.handlers k
  rw [hk] at hproper
  obtain ⟨⟨user, -, hcase⟩, -⟩ := hproper
  have hclosed : (s.close close).Tracked owner ∧ (s.close close).handler = s.handler := by
    rcases hcase with ⟨-, -, rfl, -⟩ | ⟨-, -, -, c, rfl, hlt, hgone⟩
    · exact ⟨h, rfl⟩
    · refine ⟨⟨?_, ?_, h.handlers, h.own, h.listed, h.unlisted⟩, rfl⟩
      · intro x hx
        obtain ⟨hbound, howner, hopen⟩ := h.conns x hx
        refine ⟨hbound, howner, ?_⟩
        simp only [System.close, Function.update_of_ne (hgone x hx)]
        exact hopen
      · intro d hd
        obtain ⟨hnone, hempty, hopen⟩ := h.fresh d hd
        have hne : d ≠ c := by
          rintro rfl
          exact absurd hlt (Nat.not_lt.mpr hd)
        refine ⟨hnone, hempty, ?_⟩
        simp only [System.close, Function.update_of_ne hne]
        exact hopen
  refine hclosed.1.set trivial ?_ ?_ ?_
  · intro c m hm
    cases hm
  · intro x _ m hm
    rw [unsent, hclosed.2, hk] at hm
    cases hm
  · intro x _ _ hm
    rw [WillSend, hclosed.2, hk] at hm
    obtain ⟨y, hy, -⟩ := hm
    cases hy

theorem Tracked.proceed (h : s.Tracked owner) (hs : s.proceed k = some s')
    (hmeets : s.meets (.proceed k) = true) : s'.Tracked owner := by
  unfold System.proceed at hs
  split at hs
  · cases hs
  · rename_i user conn added_list hk
    obtain ⟨htracked, hopen⟩ := h.initial hk
    rw [hopen] at hs
    obtain rfl := Option.some.inj hs
    exact htracked
  · rename_i msg exclude close hk
    obtain rfl := Option.some.inj hs
    exact h.snapshot hk
  · rename_i msg exclude close hk
    obtain rfl := Option.some.inj hs
    exact h.finish hk
  · rename_i x rest msg exclude close hk
    split at hs
    · rename_i hskip
      obtain rfl := Option.some.inj hs
      exact h.skip hk hskip
    · rename_i hskip
      simp only [meets, hk, hskip, decide_false, Bool.false_or, Bool.and_eq_true,
        Bool.not_eq_true', List.all_eq_true, decide_eq_true_eq] at hmeets
      rw [hmeets.1] at hs
      obtain rfl := Option.some.inj hs
      exact h.send hk hskip hmeets.2

end Set

-- What joins or leaves the list is no other handler's business.
structure Beside (s t : System Nick Ip Port) (owner owner' : ℕ → Nick) (k : Nick) : Prop where
  kept : ∀ x ∈ s.clientList, x.1 ≠ k → x ∈ t.clientList
  registered : ∀ m, m ≠ k → (t.Registered m ↔ s.Registered m)
  later : s.accepted ≤ t.accepted
  conns : ∀ c, c < s.accepted → (∀ x ∈ s.clientList, x.2.conn ≠ c) → ∀ x ∈ t.clientList, x.2.conn ≠ c
  owner : ∀ c, c < s.accepted → owner' c = owner c

section Beside

variable {t : System Nick Ip Port} {owner' : ℕ → Nick}

omit [DecidableEq Nick] [DecidableEq Ip] [DecidableEq Port] in
theorem Beside.tells (h : Beside s t owner owner' k) (hm : m ≠ k) {msg : Users Nick Ip Port}
    {exclude : Option Nick} {close : Option ℕ} (htells : s.Says m msg exclude close) :
    t.Says m msg exclude close := by
  obtain ⟨user, huser, hcase⟩ := htells
  refine ⟨user, huser, ?_⟩
  rw [h.registered m hm]
  rcases hcase with hadd | ⟨hmsg, hexclude, hreg, c, hclose, hlt, hgone⟩
  · exact Or.inl hadd
  · exact Or.inr ⟨hmsg, hexclude, hreg, c, hclose, Nat.lt_of_lt_of_le hlt h.later,
      h.conns c hlt hgone⟩

omit [DecidableEq Nick] [DecidableEq Ip] [DecidableEq Port] in
theorem Beside.proper (h : Beside s t owner owner' k) (hm : m ≠ k) {th : Handler Nick Ip Port}
    (hproper : s.Proper owner m th) : t.Proper owner' m th := by
  cases th with
  | idle => trivial
  | sendInitial user c added_list =>
    obtain ⟨huser, ⟨x, hx, hxm, hxc⟩, hself⟩ := hproper
    exact ⟨huser, ⟨x, h.kept x hx (hxm ▸ hm), hxm, hxc⟩, hself⟩
  | snapshot msg exclude close => exact h.tells hm hproper
  | sends rest msg exclude close =>
    refine ⟨h.tells hm hproper.1, ?_⟩
    intro x hx
    obtain ⟨hlt, howner⟩ := hproper.2 x hx
    exact ⟨Nat.lt_of_lt_of_le hlt h.later, (h.owner _ hlt).trans howner⟩

end Beside

def added (s : System Nick Ip Port) (user : User Nick Ip Port) : System Nick Ip Port :=
  { s with
    clientList := s.clientList ++ [(user.nickname, ⟨user.ip, user.port, s.accepted⟩)]
    addr_to_nick := Function.update s.addr_to_nick s.accepted (some user.nickname)
    handler := Function.update s.handler user.nickname (.sendInitial user s.accepted
      (s.clientList.map (fun x => ⟨x.1, x.2.ip, x.2.port⟩)))
    accepted := s.accepted + 1 }

def removed (s : System Nick Ip Port) (k : Nick) (addr : ℕ) (e : Entry Ip Port) :
    System Nick Ip Port :=
  { s with
    clientList := s.clientList.filter (fun x => x.1 ≠ k)
    addr_to_nick := Function.update s.addr_to_nick addr none
    handler := Function.update s.handler k (.snapshot ⟨[], [⟨k, e.ip, e.port⟩]⟩ none (some e.conn)) }

theorem Tracked.added (h : s.Tracked owner) {user : User Nick Ip Port}
    (hnew : ¬ s.Registered user.nickname) :
    (s.added user).Tracked (Function.update owner s.accepted user.nickname) := by
  obtain ⟨hnone, hempty, hopen⟩ := h.fresh s.accepted (Nat.le_refl _)
  have hlist : ∀ x, x ∈ (s.added user).clientList ↔
      x ∈ s.clientList ∨ x = (user.nickname, ⟨user.ip, user.port, s.accepted⟩) := by
    intro x
    rw [System.added, List.mem_append, List.mem_singleton]
  have hold : ∀ x ∈ s.clientList, x.1 ≠ user.nickname := by
    rintro x hx heq
    exact hnew (List.mem_map.mpr ⟨x, hx, heq⟩)
  have hreg : ∀ m, (s.added user).Registered m ↔ s.Registered m ∨ m = user.nickname := by
    intro m
    rw [Registered, System.added, List.map_append, List.mem_append]
    simp [Registered]
  have howner : ∀ c, c < s.accepted →
      Function.update owner s.accepted user.nickname c = owner c :=
    fun c hc => Function.update_of_ne (Nat.ne_of_lt hc) _ _
  have hbeside : Beside s (s.added user) owner (Function.update owner s.accepted user.nickname)
      user.nickname := by
    refine ⟨fun x hx _ => (hlist x).mpr (Or.inl hx), ?_, Nat.le_succ _, ?_, howner⟩
    · intro m hm
      rw [hreg]
      exact ⟨fun hor => hor.resolve_right hm, Or.inl⟩
    · intro c hc hgone x hx
      rcases (hlist x).mp hx with hx | rfl
      · exact hgone x hx
      · exact (Nat.ne_of_lt hc).symm
  have hhandler : ∀ m, (s.added user).handler m = if m = user.nickname then
      .sendInitial user s.accepted (s.clientList.map (fun x => ⟨x.1, x.2.ip, x.2.port⟩))
      else s.handler m := by
    intro m
    exact Function.update_apply ..
  have hnames : (s.clientList.map (fun x => (⟨x.1, x.2.ip, x.2.port⟩ : User Nick Ip Port))).map
      User.nickname = s.clientList.map Prod.fst := by
    rw [List.map_map]
    rfl
  refine ⟨?_, fun c hc => h.fresh c (Nat.le_of_succ_le hc), ?_, ?_, ?_, ?_⟩
  · intro x hx
    rcases (hlist x).mp hx with hx | rfl
    · obtain ⟨hlt, hx⟩ := h.conns x hx
      exact ⟨Nat.lt_succ_of_lt hlt, (howner _ hlt).trans hx.1, hx.2⟩
    · exact ⟨Nat.lt_succ_self _, Function.update_self .., hopen⟩
  · intro m
    rw [hhandler]
    split
    · rename_i hm
      refine ⟨hm.symm, ⟨_, (hlist _).mpr (Or.inr rfl), hm.symm, rfl⟩, ?_⟩
      rw [hnames, hm]
      exact hnew
    · rename_i hm
      exact hbeside.proper hm (h.handlers m)
  · intro x hx
    rcases (hlist x).mp hx with hx | rfl
    · exact h.own x hx
    · exact hnone _
  · intro x hx m hne hm
    rw [hreg] at hm
    rw [unsent, WillSend, hhandler, hhandler]
    rcases (hlist x).mp hx with hx | rfl
    · rw [if_neg (hold x hx)]
      split
      · exact Or.inr (Or.inr trivial)
      · rename_i hk
        exact h.listed x hx m hne (hm.resolve_right hk)
    · rw [if_pos rfl, Handler.unsent, if_pos rfl, hnames]
      exact Or.inr (Or.inl (hm.resolve_right hne))
  · intro x hx m hne hm
    rw [hreg, not_or] at hm
    rw [unsent, WillSend, hhandler, hhandler, if_neg hm.2]
    rcases (hlist x).mp hx with hx | rfl
    · rw [if_neg (hold x hx)]
      exact h.unlisted x hx m hne hm.1
    · rw [if_pos rfl, Handler.unsent, if_pos rfl, hnames]
      exact Or.inl ⟨hnone m, hm.1⟩

theorem Tracked.removed (h : s.Tracked owner) {e : Entry Ip Port} (hmem : (k, e) ∈ s.clientList)
    (addr : ℕ) : (s.removed k addr e).Tracked owner := by
  have hlist : ∀ x, x ∈ (s.removed k addr e).clientList ↔ x ∈ s.clientList ∧ x.1 ≠ k := by
    intro x
    rw [System.removed, List.mem_filter, decide_eq_true_eq]
  have hreg : ∀ m, (s.removed k addr e).Registered m ↔ s.Registered m ∧ m ≠ k := by
    intro m
    rw [Registered, List.mem_map, Registered, List.mem_map]
    constructor
    · rintro ⟨x, hx, rfl⟩
      obtain ⟨hx, hne⟩ := (hlist x).mp hx
      exact ⟨⟨x, hx, rfl⟩, hne⟩
    · rintro ⟨⟨x, hx, rfl⟩, hne⟩
      exact ⟨x, (hlist x).mpr ⟨hx, hne⟩, rfl⟩
  have hbeside : Beside s (s.removed k addr e) owner owner k := by
    refine ⟨fun x hx hne => (hlist x).mpr ⟨hx, hne⟩, ?_, Nat.le_refl _, ?_, fun _ _ => rfl⟩
    · intro m hm
      rw [hreg]
      exact ⟨fun hand => hand.1, fun hand => ⟨hand, hm⟩⟩
    · intro c _ hgone x hx
      exact hgone x ((hlist x).mp hx).1
  have hhandler : ∀ m, (s.removed k addr e).handler m = if m = k then
      .snapshot ⟨[], [⟨k, e.ip, e.port⟩]⟩ none (some e.conn) else s.handler m := by
    intro m
    exact Function.update_apply ..
  obtain ⟨hlt, howner, -⟩ := h.conns _ hmem
  refine ⟨fun x hx => h.conns x ((hlist x).mp hx).1, h.fresh, ?_,
    fun x hx => h.own x ((hlist x).mp hx).1, ?_, ?_⟩
  · intro m
    rw [hhandler]
    split
    · rename_i hm
      refine ⟨_, hm.symm, Or.inr ⟨rfl, rfl, ?_, _, rfl, hlt, ?_⟩⟩
      · rw [hreg]
        exact fun hand => hand.2 hm
      · intro x hx hconn
        obtain ⟨hx, hne⟩ := (hlist x).mp hx
        rw [← (h.conns x hx).2.1, hconn, howner] at hne
        exact hne rfl
    · rename_i hm
      exact hbeside.proper hm (h.handlers m)
  · intro x hx m hne hm
    rw [hreg] at hm
    obtain ⟨hx, hxk⟩ := (hlist x).mp hx
    rw [unsent, WillSend, hhandler, hhandler, if_neg hxk, if_neg hm.2]
    exact h.listed x hx m hne hm.1
  · intro x hx m hne hm
    rw [hreg, not_and_or, not_not] at hm
    obtain ⟨hx, hxk⟩ := (hlist x).mp hx
    rw [unsent, WillSend, hhandler, hhandler, if_neg hxk]
    split
    · exact Or.inr trivial
    · rename_i hk
      exact h.unlisted x hx m hne (hm.resolve_right hk)

theorem Tracked.register (h : s.Tracked owner) (user : User Nick Ip Port) :
    ∃ owner', (s.register_client user).Tracked owner' := by
  rw [register_client]
  split
  · exact ⟨owner, h⟩
  · rename_i hnew
    exact ⟨_, h.added hnew⟩

theorem Tracked.unregister (h : s.Tracked owner) {addr : ℕ}
    (hmeets : s.meets (.unregister k addr) = true) : (s.unregister_client k addr).Tracked owner := by
  rw [unregister_client]
  split
  · exact h
  · rename_i y e hfind
    have hfound := List.find?_some hfind
    have hmem := List.mem_of_find?_eq_some hfind
    obtain rfl : y = k := by simpa using hfound
    have hreg : y ∈ s.clientList.map Prod.fst := List.mem_map.mpr ⟨_, hmem, rfl⟩
    simp only [meets, Bool.or_eq_true, decide_eq_true_eq] at hmeets
    obtain ⟨nick, haddr⟩ := Option.isSome_iff_exists.mp
      (hmeets.resolve_left (fun hnot => hnot hreg))
    simp only [haddr]
    exact h.removed hmem addr

theorem Tracked.step (h : s.Tracked owner) {ev : Event Nick Ip Port} (hs : s.step ev = some s')
    (hmeets : s.meets ev = true) : ∃ owner', s'.Tracked owner' := by
  cases ev with
  | register user =>
    rw [System.step] at hs
    split at hs
    · obtain rfl := Option.some.inj hs
      exact h.register user
    · cases hs
  | unregister n addr =>
    rw [System.step] at hs
    split at hs
    · obtain rfl := Option.some.inj hs
      exact ⟨owner, h.unregister hmeets⟩
    · cases hs
  | proceed n => exact ⟨owner, h.proceed hs hmeets⟩
  | deliver conn => exact ⟨owner, h.deliver hs⟩

def Takes (s : System Nick Ip Port) (ev : Event Nick Ip Port) (s' : System Nick Ip Port) : Prop :=
  s.step ev = some s'

def TakesMeeting (s : System Nick Ip Port) (ev : Event Nick Ip Port) (s' : System Nick Ip Port) :
    Prop :=
  s.Takes ev s' ∧ s.meets ev = true

theorem takesMeeting_of_eq {ev : Event Nick Ip Port}
    (h : (if s.meets ev = true then s.step ev else none) = some s') : s.TakesMeeting ev s' := by
  split at h
  · rename_i hmeets
    exact ⟨h, hmeets⟩
  · cases h

end System

end PeerToPeerChat
