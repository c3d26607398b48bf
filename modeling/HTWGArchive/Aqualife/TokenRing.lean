import HTWGArchive.Aqualife.Registry
import HTWGArchive.Library.Update

namespace Aqualife

def isToken (p : Packet) : Bool :=
  p.payload = .token

def System.tokens (s : System) : ℕ :=
  s.network.countP isToken + s.hosts.countP (fun a => (s.tanks a).hasToken)

def registrations (os : List Occurrence) : ℕ :=
  os.countP Occurrence.newRegistration

-- Every token sent and not yet passed on is counted by a timer.
def System.issued (s : System) : ℕ :=
  s.network.countP isToken + (s.hosts.map (fun a => (s.tanks a).tokenTimer)).sum

structure TokensIssued (os : List Occurrence) (s : System) : Prop where
  distinct : s.hosts.Nodup
  issued : s.issued ≤ registrations os
  timed : ∀ a, (s.tanks a).hasToken = true → 0 < (s.tanks a).tokenTimer

theorem tokens_le_issued {s : System}
    (h : ∀ a, (s.tanks a).hasToken = true → 0 < (s.tanks a).tokenTimer) : s.tokens ≤ s.issued := by
  have hhosts : ∀ hosts : List InetSocketAddress,
      hosts.countP (fun a => (s.tanks a).hasToken) ≤
        (hosts.map (fun a => (s.tanks a).tokenTimer)).sum := by
    intro hosts
    induction hosts with
    | nil => exact le_refl 0
    | cons a hosts ih =>
      rw [List.countP_cons, List.map_cons, List.sum_cons]
      have ha := h a
      split
      · have hpos := ha ‹_›
        omega
      · omega
  rw [System.tokens, System.issued]
  exact Nat.add_le_add_left (hhosts s.hosts) _

theorem countP_isToken_eq_zero {src : InetSocketAddress} {sends : List Send}
    (h : ∀ m ∈ sends, m.2 ≠ .token) : (packetsFrom src sends).countP isToken = 0 := by
  rw [List.countP_eq_zero]
  intro p hp htoken
  exact h _ (mem_packetsFrom.mp hp).2 (of_decide_eq_true htoken)

theorem countP_isToken_le (src : InetSocketAddress) (sends : List Send) :
    (packetsFrom src sends).countP isToken ≤ sends.countP (fun m => m.2 = .token) := by
  induction sends with
  | nil => exact le_refl 0
  | cons m sends ih =>
    obtain ⟨receiver, payload⟩ := m
    rw [List.countP_cons]
    cases receiver with
    | none => exact Nat.le_add_right_of_le ih
    | some dst =>
      have hcons : packetsFrom src ((some dst, payload) :: sends) =
          ⟨src, dst, payload⟩ :: packetsFrom src sends := rfl
      rw [hcons, List.countP_cons]
      exact Nat.add_le_add_right ih _

section Handlers

variable {s : System} {e : Event} {a : InetSocketAddress} {r : TankModel × List Send} {created : ℕ}

-- Only an expired timer sends a token, and it counts one down for it.
theorem Acts.token (h : Acts s e a r created) :
    (packetsFrom a r.2).countP isToken + r.1.tokenTimer ≤ (s.tanks a).tokenTimer ∧
      (((s.tanks a).hasToken = true → 0 < (s.tanks a).tokenTimer) →
        r.1.hasToken = true → 0 < r.1.tokenTimer) := by
  have hquiet : (∀ m ∈ r.2, m.2 ≠ .token) → r.1.tokenTimer = (s.tanks a).tokenTimer →
      r.1.hasToken = (s.tanks a).hasToken →
      (packetsFrom a r.2).countP isToken + r.1.tokenTimer ≤ (s.tanks a).tokenTimer ∧
        (((s.tanks a).hasToken = true → 0 < (s.tanks a).tokenTimer) →
          r.1.hasToken = true → 0 < r.1.tokenTimer) := by
    intro hsends htimer hhas
    rw [countP_isToken_eq_zero hsends, htimer, hhas, Nat.zero_add]
    exact ⟨le_refl _, fun htimed => htimed⟩
  cases h with
  | register => exact hquiet (by simp) rfl rfl
  | finish => exact hquiet (by simp) rfl rfl
  | newFish _ x y direction =>
    obtain ⟨_, _, _, hframe⟩ := (s.tanks a).newFish_frame s.fresh x y direction
    rw [hframe] at hquiet ⊢
    exact hquiet (by simp) rfl rfl
  | update _ discreteSin =>
    obtain ⟨_, _, hframe⟩ := (s.tanks a).update_frame discreteSin
    refine hquiet ?_ (by rw [hframe]; rfl) (by rw [hframe]; rfl)
    intro m hm htoken
    rcases (s.tanks a).update_sends hm with ⟨o, _, hsend⟩ | ⟨_, rfl⟩
    · rw [((s.tanks a).updateFish_sends hsend).1] at htoken
      cases htoken
    · cases htoken
  | initiateSnapshot =>
    refine hquiet ?_ rfl rfl
    rw [(s.tanks a).initiateSnapshot_sends]
    simp
  | locateFishGlobally _ fishId =>
    refine hquiet ?_ rfl rfl
    intro m hm htoken
    rw [(s.tanks a).locateFishGlobally_sends hm] at htoken
    cases htoken
  | tokenTimer _ hpos =>
    have hsent := countP_isToken_le a (s.tanks a).giveBackToken.2
    refine ⟨?_, fun _ hhas => ?_⟩
    · simp only [TankModel.giveBackToken, List.countP_singleton, decide_true, if_true] at hsent ⊢
      omega
    · cases hhas

theorem receive_token (t : TankModel) (fresh : ℕ) (sender : InetSocketAddress) (objects : ℕ × ℕ)
    (payload : Payload) :
    (t.receive fresh sender objects payload).1.tokenTimer =
        t.tokenTimer + (if payload = .token then 1 else 0) ∧
      ((t.receive fresh sender objects payload).1.hasToken = true →
        t.hasToken = true ∨ payload = .token) ∧
      ∀ m ∈ (t.receive fresh sender objects payload).2, m.2 ≠ .token := by
  cases payload with
  | token => exact ⟨rfl, fun _ => Or.inr rfl, fun m hm => absurd hm List.not_mem_nil⟩
  | handoffRequest fish =>
    obtain ⟨_, _, _, hframe⟩ := t.receiveFish_frame fresh fish
    refine ⟨by rw [TankModel.receive, hframe]; rfl, ?_, ?_⟩
    · rw [TankModel.receive, hframe]
      exact Or.inl
    · intro m hm
      rw [t.receiveFish_sends hm]
      simp
  | snapshotMarker =>
    obtain ⟨_, _, _, _, _, _, hframe⟩ := t.receiveMarker_frame ⟨objects.1, sender⟩
    refine ⟨by rw [TankModel.receive, hframe]; rfl, ?_, ?_⟩
    · rw [TankModel.receive, hframe]
      exact Or.inl
    · intro m hm htoken
      rcases t.receiveMarker_sends hm with ⟨hsend, _⟩ | ⟨_, rfl⟩
      · rw [hsend] at htoken
        cases htoken
      · cases htoken
  | collectToken globalState =>
    obtain ⟨_, _, _, _, hframe⟩ := t.receiveGlobalState_frame fresh globalState
    rw [TankModel.receive, hframe]
    exact ⟨rfl, Or.inl, fun m hm => absurd hm List.not_mem_nil⟩
  | neighbourUpdate neighbour direction =>
    cases direction <;> exact ⟨rfl, Or.inl, fun m hm => absurd hm List.not_mem_nil⟩
  | nameResolutionResponse response requestId => exact ⟨rfl, Or.inl, by simp [TankModel.receive,
      TankModel.receiveNameResolution]⟩
  | _ => exact ⟨rfl, Or.inl, fun m hm => absurd hm List.not_mem_nil⟩

theorem Broker.receive_token (b : Broker) (sender : InetSocketAddress) (payload : Payload) :
    (b.receive sender payload).2.countP (fun m => m.2 = .token) ≤
      if payload = .registerRequest ∧ sender ∉ b.addresses then 1 else 0 := by
  cases payload with
  | registerRequest =>
    rcases Decidable.em (sender ∈ b.addresses) with hknown | hnew
    · obtain ⟨c, _, _, heq⟩ := register_known hknown
      rw [receive, heq]
      simp
    · rw [if_pos ⟨rfl, hnew⟩, receive, register_new hnew]
      simp only [neighbourUpdates, welcome, List.cons_append, List.nil_append]
      split <;> simp
  | deregisterRequest id =>
    cases id with
    | none => simp [receive]
    | some id =>
      rcases Decidable.em (id ∈ b.ids) with hknown | hunknown
      · obtain ⟨front, c, back, _, _, heq⟩ := deregister_known hknown
        rw [receive, heq]
        simp
      · rw [receive, deregister_unknown hunknown]
        simp
  | nameResolutionRequest tankId requestId => simp [receive, resoluteName]
  | _ => simp [receive]

end Handlers

theorem issued_atTank {s : System} (hl : s.hosts.Nodup) (network : List Packet)
    {c : InetSocketAddress} (hc : c ∈ s.hosts) (r : TankModel × List Send) (created : ℕ) :
    ({ s with network := network }.atTank c r created).1.issued + (s.tanks c).tokenTimer +
        s.network.countP isToken =
      s.issued + r.1.tokenTimer + network.countP isToken + (packetsFrom c r.2).countP isToken := by
  have hsum := Update.sum_map hl hc s.tanks r.1 TankModel.tokenTimer
  simp only [System.issued, System.atTank, List.countP_append]
  omega

theorem Step.tokensIssued {s s' : System} {o : Occurrence} {os : List Occurrence} (h : Step s o s')
    (hinv : TokensIssued os s) : TokensIssued (os ++ [o]) s' := by
  have hhosts := h.hosts_eq
  obtain ⟨rfl, _, hstep⟩ := h
  have hdistinct : s'.hosts.Nodup := hhosts ▸ hinv.distinct
  have hcount : registrations (os ++ [o]) =
      registrations os + if o.newRegistration then 1 else 0 := by
    rw [registrations, registrations, List.countP_append, List.countP_singleton]
  cases step_cases hstep with
  | tankActs c r created hc hacts heq =>
    obtain rfl := congrArg Prod.fst heq
    have hissued : (o.before.atTank c r created).1.issued + (o.before.tanks c).tokenTimer +
        o.before.network.countP isToken = o.before.issued + r.1.tokenTimer +
          o.before.network.countP isToken + (packetsFrom c r.2).countP isToken :=
      issued_atTank hinv.distinct o.before.network hc r created
    obtain ⟨hle, htimed⟩ := hacts.token
    have hbound := hinv.issued
    refine ⟨hdistinct, ?_, ?_⟩
    · rw [hcount]
      omega
    · intro a
      rcases eq_or_ne a c with rfl | hne
      · simp only [System.atTank, Function.update_self]
        exact htimed (hinv.timed a)
      · simp only [System.atTank, Function.update_of_ne hne]
        exact hinv.timed a
  | brokerReceives src objects payload network he hdel heq =>
    obtain rfl := congrArg Prod.fst heq
    have hcounted := Network.deliver_countP hdel isToken
    have hsent := countP_isToken_le brokerAddress (o.before.broker.receive src payload).2
    have hnew : (if payload = .registerRequest ∧ src ∉ o.before.broker.addresses then 1 else 0) ≤
        if o.newRegistration then 1 else 0 := by
      split
      · rename_i hcond
        obtain ⟨rfl, hunknown⟩ := hcond
        rw [if_pos (newRegistration_iff.mpr ⟨src, handled_of_receives he hdel, hunknown⟩)]
      · exact Nat.zero_le _
    have hreceived := o.before.broker.receive_token src payload
    have hbound := hinv.issued
    refine ⟨hdistinct, ?_, hinv.timed⟩
    rw [hcount]
    simp only [System.issued, System.atBroker, List.countP_append] at hbound ⊢
    omega
  | tankReceives src dst objects payload network he hdst hhost hdel heq =>
    obtain rfl := congrArg Prod.fst heq
    obtain ⟨htimer, hhas, hsends⟩ := receive_token (o.before.tanks dst) o.before.fresh src objects payload
    have hissued := issued_atTank hinv.distinct network hhost
      ((o.before.tanks dst).receive o.before.fresh src objects payload) payload.objects
    have hcounted := Network.deliver_countP hdel isToken
    rw [countP_isToken_eq_zero hsends] at hissued
    have hpayload : (if isToken ⟨src, dst, payload⟩ then 1 else 0) =
        if payload = .token then 1 else 0 := by
      simp only [isToken, decide_eq_true_eq]
    have hbound := hinv.issued
    refine ⟨hdistinct, ?_, ?_⟩
    · rw [hcount]
      omega
    · intro a
      rcases eq_or_ne a dst with rfl | hne
      · simp only [System.atTank, Function.update_self]
        intro hhas'
        rw [htimer]
        rcases hhas hhas' with hbefore | rfl
        · have hpos := hinv.timed a hbefore
          omega
        · simp
      · simp only [System.atTank, Function.update_of_ne hne]
        exact hinv.timed a

theorem tokens_at_most_one (hosts : List InetSocketAddress) (os : List Occurrence) (s : System)
    (hhosts : hosts.Nodup) (hrun : Run (System.start hosts) os s) (hone : registrations os ≤ 1) :
    ∀ o ∈ os, o.after.tokens ≤ 1 := by
  have hissued : TokensIssued os s ∧ ∀ o ∈ os, o.after.tokens ≤ registrations os := by
    refine hrun.history (I := fun os s => TokensIssued os s ∧ ∀ o ∈ os, o.after.tokens ≤ registrations os)
      (G := fun _ => True) ⟨⟨hhosts, ?_, ?_⟩, by simp⟩ ?_ (fun _ _ => trivial)
    · simp [System.start, System.issued, TankModel.start]
    · simp [System.start, TankModel.start]
    · intro os s o s' _ hinv _ hstep
      have hnext := hstep.tokensIssued hinv.1
      refine ⟨hnext, ?_⟩
      rw [List.forall_mem_append, List.forall_mem_singleton]
      refine ⟨fun o' ho' => ?_, ?_⟩
      · refine le_trans (hinv.2 o' ho') ?_
        rw [registrations, registrations, List.countP_append]
        exact Nat.le_add_right _ _
      · rw [hstep.2.1]
        exact le_trans (tokens_le_issued hnext.timed) hnext.issued
  exact fun o ho => le_trans (hissued.2 o ho) hone

theorem tokens_at_most_one_alone :
    ∃ os s, Run (System.start [host 1]) os s ∧ os.length = 10 ∧ ∀ o ∈ os, o.after.tokens ≤ 1 := by
  have hevents : ∃ r ∈ occurrences (System.start [host 1])
      (joins (host 1) 6 ++ [.tokenTimer (host 1), .deliver (host 1) (host 1) (0, 0)]),
      r.1.length = 10 ∧ registrations r.1 ≤ 1 := by
    decide +kernel
  obtain ⟨⟨os, s⟩, hos, hlen, hone⟩ := hevents
  have hrun := occurrences_run hos
  exact ⟨os, s, hrun, hlen, tokens_at_most_one [host 1] os s (by decide) hrun hone⟩

theorem two_tokens :
    ¬∀ (hosts : List InetSocketAddress) (os : List Occurrence) (s : System),
      hosts.Nodup → Run (System.start hosts) os s → ∀ o ∈ os, o.after.tokens ≤ 1 := by
  intro h
  have hevents : ∃ r ∈ occurrences (System.start [host 1, host 2]) twoJoin,
      ∃ o ∈ r.1, ¬o.after.tokens ≤ 1 := by
    decide +kernel
  obtain ⟨⟨os, s⟩, hos, o, ho, hbad⟩ := hevents
  exact hbad (h _ os s (by decide) (occurrences_run hos) o ho)

end Aqualife
