import HTWGArchive.Simulator.TickPhases

namespace Simulator

def Anchored (b : Board) (o : JobRef) : Prop :=
  (∃ x ∈ b.ready, x.ref = o) ∨ ∃ y ∈ b.blocked, y.flagged = false ∧ y.id = o.id

def Owned (b : Board) : Prop :=
  ∀ r ∈ b.resources, ∀ o, r.usedBy = some o → Anchored b o

-- The two ways the deletion phase loses an owner: the owner's struct has left the ready queue and
-- the blocked copy of the job is flagged, or the flagged owner no longer lists the resource.
structure Releasable (σ : Sim) : Prop where
  waiting : ∀ r ∈ σ.resources, ∀ o ∈ r.usedBy, (∀ x ∈ σ.readyQueue, x.addr ≠ o.addr) →
    ∀ y ∈ σ.blockedQueue, y.id = o.id → y.flagged = false
  listed : ∀ r ∈ σ.resources, ∀ o ∈ r.usedBy, ∀ x ∈ σ.readyQueue, x.addr = o.addr →
    x.flagged = true → r.name ∈ x.resources.map LocalTaskResource.name

instance (σ : Sim) : Decidable (Releasable σ) :=
  decidable_of_iff
    ((∀ r ∈ σ.resources, ∀ o ∈ r.usedBy, (∀ x ∈ σ.readyQueue, x.addr ≠ o.addr) →
        ∀ y ∈ σ.blockedQueue, y.id = o.id → y.flagged = false) ∧
      ∀ r ∈ σ.resources, ∀ o ∈ r.usedBy, ∀ x ∈ σ.readyQueue, x.addr = o.addr →
        x.flagged = true → r.name ∈ x.resources.map LocalTaskResource.name)
    ⟨fun h => ⟨h.1, h.2⟩, fun h => ⟨h.waiting, h.listed⟩⟩

def OwnersPresent (σ : Sim) : Prop :=
  ∀ r ∈ σ.resources, ∀ o ∈ r.usedBy, ∃ x ∈ σ.readyQueue ++ σ.blockedQueue,
    x.id = o.id ∧ x.flagged = false

instance (σ : Sim) : Decidable (OwnersPresent σ) :=
  inferInstanceAs (Decidable (∀ r ∈ σ.resources, ∀ o ∈ r.usedBy,
    ∃ x ∈ σ.readyQueue ++ σ.blockedQueue, x.id = o.id ∧ x.flagged = false))

theorem Anchored.mono {b b' : Board} {o : JobRef} (h : Anchored b o)
    (hready : ∀ x ∈ b.ready, ∃ x' ∈ b'.ready, x'.ref = x.ref)
    (hblocked : ∀ y ∈ b.blocked, y.flagged = false → y.id = o.id →
      ∃ y' ∈ b'.blocked, y'.flagged = false ∧ y'.id = y.id) : Anchored b' o := by
  rcases h with ⟨x, hx, rfl⟩ | ⟨y, hy, hflag, hid⟩
  · obtain ⟨x', hx', href⟩ := hready x hx
    exact Or.inl ⟨x', hx', href⟩
  · obtain ⟨y', hy', hflag', hid'⟩ := hblocked y hy hflag hid
    exact Or.inr ⟨y', hy', hflag', hid'.trans hid⟩

theorem Owned.release {b : Board} (h : Owned b) (tick : UInt32) (fresh : ℕ) :
    Owned (b.release tick fresh) := by
  intro r hr o ho
  refine (h r hr o ho).mono ?_ ?_
  · exact fun x hx => ⟨x, List.mem_append_left _ hx, rfl⟩
  · exact fun y hy hflag _ => ⟨y, hy, hflag, rfl⟩

theorem Owned.check {cfg : Config} {b : Board} {σ : Sim} (h : Owned b) (hwf : WellFormed b)
    (hσ : σ.board = b.check cfg) (hgood : Releasable σ) : Owned σ.board := by
  have href : ∀ q : List TaskStruct, ∀ x ∈ q,
      ∃ x' ∈ handleDeadlineQueue cfg q, x'.ref = x.ref := by
    intro q x hx
    exact ⟨_, List.mem_map_of_mem hx, handleDeadline_ref cfg q x⟩
  have hready : σ.board.ready = handleDeadlineQueue cfg b.ready := by rw [hσ]; rfl
  have hblocked : σ.board.blocked = handleDeadlineQueue cfg b.blocked := by rw [hσ]; rfl
  intro r hr o ho
  have hold : r ∈ b.resources := by
    have hrows : σ.board.resources = b.resources := by rw [hσ]; rfl
    rwa [hrows] at hr
  rcases h r hold o ho with ⟨x, hx, rfl⟩ | ⟨y, hy, _, hid⟩
  · left
    rw [hready]
    exact href b.ready x hx
  · rcases Decidable.em (∃ x ∈ σ.readyQueue, x.addr = o.addr) with ⟨x, hx, haddr⟩ | hnone
    · left
      have hxmem := mem_board_ready hx
      rw [hready] at hxmem
      obtain ⟨z, hz, hzx⟩ := List.mem_map.mp hxmem
      have hzref := handleDeadline_ref cfg b.ready z
      rw [hzx] at hzref
      have hzo := (hwf.owners r hold o ho).ready z hz
        ((congrArg JobRef.addr hzref).symm.trans haddr)
      exact ⟨x.core, mem_board_ready hx, hzref.trans hzo⟩
    · right
      obtain ⟨y', hy', href'⟩ := href b.blocked y hy
      rw [← hblocked] at hy'
      obtain ⟨z, hz, rfl⟩ := List.mem_map.mp hy'
      have hzid : z.core.id = o.id := (congrArg JobRef.id href').trans hid
      refine ⟨z.core, hy', hgood.waiting r hr o ho ?_ z hz hzid, hzid⟩
      exact fun x hx haddr => hnone ⟨x, hx, haddr⟩

-- What is left of an owner after the deletion phase is not flagged.
theorem Owned.live {σ : Sim} {b' : Board} (h : Owned σ.board) (hgood : Releasable σ)
    (hdel : Deleted σ.board b') : ∀ r ∈ b'.resources, ∀ o, r.usedBy = some o →
      (∃ x ∈ b'.ready, x.ref = o ∧ x.flagged = false) ∨
        ∃ y ∈ b'.blocked, y.flagged = false ∧ y.id = o.id := by
  intro r hr o ho
  have hold := hdel.rows.held r hr o ho
  rcases h r hold o ho with ⟨x, hx, rfl⟩ | ⟨y, hy, hflag, hid⟩
  · cases hflag : x.flagged with
    | false => exact Or.inl ⟨x, hdel.ready.kept x hx hflag, rfl, hflag⟩
    | true =>
      have hfreed := hdel.freed x (List.mem_append_left _ hx) hflag r hr x.ref ho rfl
      obtain ⟨z, hz, rfl⟩ := List.mem_map.mp hx
      exact absurd (hgood.listed r hold z.core.ref ho z hz rfl hflag) hfreed
  · exact Or.inr ⟨y, hdel.blocked.kept y hy hflag, hflag, hid⟩

theorem Owned.deleted {σ : Sim} {b' : Board} (h : Owned σ.board) (hgood : Releasable σ)
    (hdel : Deleted σ.board b') : Owned b' := by
  intro r hr o ho
  rcases h.live hgood hdel r hr o ho with ⟨x, hx, href, _⟩ | hblocked
  · exact Or.inl ⟨x, hx, href⟩
  · exact Or.inr hblocked

theorem Waits.ref {t t' : TaskStruct} {b b' : Board} (h : Waits t t' b b') : t'.ref = t.ref :=
  (congrArg TaskStruct.ref h.job :)

theorem Waits.id {t t' : TaskStruct} {b b' : Board} (h : Waits t t' b b') : t'.id = t.id :=
  (congrArg TaskStruct.id h.job :)

theorem Waits.unflagged {t t' : TaskStruct} {b b' : Board} (h : Waits t t' b b') :
    t'.flagged = false := by
  rw [TaskStruct.flagged, h.state]
  rfl

theorem Owned.waits {b b' : Board} {t t' : TaskStruct} (h : Owned b) (hwf : WellFormed b)
    (hwaits : Waits t t' b b') : Owned b' := by
  have hcopy : copyNode b.fresh t' ∈ b'.blocked := by
    rw [hwaits.blocked]
    exact List.mem_append_right _ List.mem_cons_self
  have hanchor : Anchored b' t.ref := Or.inr ⟨_, hcopy, hwaits.unflagged, hwaits.id⟩
  intro r hr o ho
  rcases hwaits.rows.held r hr with hold | ⟨htaken, _⟩
  · rcases h r hold o ho with ⟨x, hx, rfl⟩ | ⟨y, hy, hflag, hid⟩
    · rcases Decidable.em (x.addr = t.addr) with heq | hne
      · rw [hwf.ready_inj hx hwaits.mem heq]
        exact hanchor
      · left
        rw [hwaits.ready]
        exact ⟨x, mem_removeNodes (by simpa using hne) hx, rfl⟩
    · right
      rw [hwaits.blocked]
      exact ⟨y, List.mem_append_left _ hy, hflag, hid⟩
  · rw [Option.some_inj.mp (ho.symm.trans htaken)]
    exact hanchor

theorem Owned.waiting {b b' : Board} (h : Owned b) (hwf : WellFormed b)
    (hrounds : Relation.ReflTransGen Waiting b b') : Owned b' := by
  induction hrounds with
  | refl => exact h
  | tail hpre hstep ih =>
    obtain ⟨t, t', hwaits⟩ := hstep
    exact ih.waits (hwf.waiting hpre) hwaits

theorem Owned.replaced {b b' : Board} (h : Owned b) (hmap : Mapped b b')
    (hblocked : b'.blocked = b.blocked) : Owned b' := by
  obtain ⟨f, hready, hf⟩ := hmap.ready
  have himage : ∀ x ∈ b.ready, ∃ x' ∈ b'.ready, x'.ref = x.ref := by
    intro x hx
    rw [hready]
    exact ⟨f x, List.mem_map_of_mem hx, (hf x hx).1⟩
  intro r hr o ho
  rcases hmap.rows.owners r hr o ho with hold | ⟨t, ht, rfl⟩
  · refine (h r hold o ho).mono himage ?_
    rw [hblocked]
    exact fun y hy hflag _ => ⟨y, hy, hflag, rfl⟩
  · exact Or.inl (himage t ht)

theorem Owned.resume {b : Board} (h : Owned b) (picked : TaskStruct) : Owned (b.resume picked) := by
  intro r hr o ho
  obtain ⟨s, hs, rfl⟩ := List.mem_map.mp hr
  rcases resetRow_cases { copyNode b.fresh picked with taskState := .ready } s with
    ⟨hsame, hother⟩ | ⟨_, hreset⟩
  · rw [hsame] at ho
    refine (h s hs o ho).mono ?_ ?_
    · exact fun x hx => ⟨x, List.mem_append_left _ hx, rfl⟩
    · intro y hy hflag hid
      have hne : y.id ≠ picked.id := by
        rw [hid]
        exact hother o ho
      refine ⟨y, List.mem_map.mpr ⟨y, hy, markRemoved_of_ne hne⟩, hflag, rfl⟩
  · rw [hreset] at ho
    rw [← Option.some_inj.mp ho]
    exact Or.inl ⟨_, List.mem_append_right _ List.mem_cons_self, rfl⟩

theorem Owned.resuming {names : List String} {b b' : Board} (h : Owned b)
    (hres : Resuming names b b') : Owned b' := by
  induction hres with
  | nil _ => exact h
  | skip _ ih => exact ih h
  | cons hstep _ ih =>
    obtain ⟨picked, _, _, rfl⟩ := hstep
    exact ih (h.resume picked)

theorem Owned.ran {cfg : Config} {t : Tick} (h : Owned t.dispatched.chosen.board)
    (hwf : WellFormed t.dispatched.chosen.board) (hran : Ran cfg t) : Owned t.finished.board := by
  cases hran with
  | idle _ _ _ hpicked _ hfinished => rwa [hfinished, hpicked]
  | running j j' n' _ _ hruns hexecuted hreleases =>
    have hmap := hruns.mapped hwf
    have hpickedwf := hwf.mapped hmap
    have hpicked := h.replaced hmap (hruns.blocked.trans (hwf.blocked_update hruns.mem _))
    have hworkmap := work_mapped cfg t.start.tick t.dispatched.picked.board j.addr
    have hblocked : (t.dispatched.picked.board.update j.addr (work cfg t.start.tick)).blocked =
        t.dispatched.picked.board.blocked := by
      have hupdate := hpickedwf.blocked_update hruns.mem_picked (work cfg t.start.tick)
      rwa [hruns.addr] at hupdate
    have hexec := hpicked.replaced hworkmap hblocked
    have hexecwf := hpickedwf.mapped hworkmap
    rw [← hexecuted] at hexec hexecwf
    exact hexec.replaced (hreleases.mapped hexecwf)
      (hreleases.blocked.trans (hexecwf.blocked_update hreleases.mem _))

theorem Owned.tick {cfg : Config} {t : Tick} (h : Owned t.start.board)
    (hwf : WellFormed t.start.board) (hphases : TickPhases cfg t) (hgood : Releasable t.checked) :
    Owned t.checked.board ∧ Owned t.final.board := by
  obtain ⟨fresh, _, hboard⟩ := hphases.released
  have hreleased : Owned t.released.board := by
    rw [hboard]
    exact h.release t.start.tick fresh
  have hchecked := hreleased.check (hphases.wf_released hwf) hphases.checked hgood
  have hdeleted := hchecked.deleted hgood hphases.deleted
  have hchosen := hdeleted.waiting (hphases.wf_deleted hwf) hphases.rounds
  have hfinished := hchosen.ran (hphases.wf_chosen hwf) hphases.ran
  exact ⟨hchecked, hfinished.resuming hphases.resumed⟩

theorem ownersPresent_of_live {σ : Sim}
    (h : ∀ r ∈ σ.board.resources, ∀ o, r.usedBy = some o →
      (∃ x ∈ σ.board.ready, x.ref = o ∧ x.flagged = false) ∨
        ∃ y ∈ σ.board.blocked, y.flagged = false ∧ y.id = o.id) : OwnersPresent σ := by
  intro r hr o ho
  rcases h r hr o ho with ⟨x, hx, href, hflag⟩ | ⟨y, hy, hflag, hid⟩
  · obtain ⟨z, hz, rfl⟩ := List.mem_map.mp hx
    exact ⟨z, List.mem_append_left _ hz, congrArg JobRef.id href, hflag⟩
  · obtain ⟨z, hz, rfl⟩ := List.mem_map.mp hy
    exact ⟨z, List.mem_append_right _ hz, hid, hflag⟩

theorem initial_owned (rows : List TaskRow) : Owned (initial rows).board := by
  intro r hr o ho
  obtain ⟨name, _, rfl⟩ := List.mem_map.mp hr
  cases ho

theorem owners_present (cfg : Config) (rows : List TaskRow) (ts : List Tick) (σ : Sim)
    (hrun : Run cfg (initial rows) ts σ) (hgood : ∀ t ∈ ts, Releasable t.checked) :
    ∀ t ∈ ts, OwnersPresent t.deleted := by
  refine hrun.forall_label (I := fun σ => Sound σ ∧ Owned σ.board)
    ⟨initial_sound rows, initial_owned rows⟩ ?_ hgood
  intro σ t σ' ⟨hsound, howned⟩ hrel hstep
  have hnext := hstep.sound hsound
  obtain ⟨_, htick, rfl⟩ := hstep
  obtain ⟨rfl, hphases⟩ := simTick_phases hsound htick
  have h := howned.tick hsound.board hphases hrel
  exact ⟨⟨hnext, h.2⟩, ownersPresent_of_live (h.1.live hrel hphases.deleted)⟩

def holderWaits : List TaskRow :=
  [⟨"L", 0, 20, 6, 12, [("Y", 0, 6)]⟩, ⟨"H", 1, 20, 4, 8, [("X", 0, 3), ("Y", 1, 1)]⟩]

theorem owners_present_holder_waits :
    ∃ σ, Run (nokillDm 20) (initial holderWaits) (ticksOf (nokillDm 20) holderWaits 5) σ ∧
      ∀ t ∈ ticksOf (nokillDm 20) holderWaits 5, OwnersPresent t.deleted := by
  obtain ⟨σ, hrun⟩ := ticksOf_run (nokillDm 20) holderWaits 5
    (by decide +kernel)
  exact ⟨σ, hrun, owners_present _ _ _ σ hrun (by decide +kernel)⟩

def holderMisses : List TaskRow :=
  [⟨"L", 0, 20, 6, 12, [("Y", 0, 6)]⟩, ⟨"H", 1, 20, 4, 3, [("X", 0, 3), ("Y", 1, 1)]⟩]

theorem resource_leaked : ¬∀ (cfg : Config) (rows : List TaskRow) (ts : List Tick) (σ : Sim),
    (rows.map TaskRow.name).Nodup → Run cfg (initial rows) ts σ →
      ∀ t ∈ ts, OwnersPresent t.deleted := by
  intro h
  obtain ⟨σ, hrun⟩ := ticksOf_run (nokillDm 20) holderMisses 5
    (by decide +kernel)
  have hleak : ∃ t ∈ ticksOf (nokillDm 20) holderMisses 5, ¬OwnersPresent t.deleted := by
    decide +kernel
  obtain ⟨t, ht, hbad⟩ := hleak
  exact hbad (h _ _ _ σ (by decide) hrun t ht)

end Simulator
