import HTWGArchive.Simulator.Entries
import HTWGArchive.Simulator.Uniqueness

namespace Simulator

instance (e : LocalTaskResource) : Decidable (InSection e) :=
  inferInstanceAs (Decidable (_ ∧ _))

def Owns (rows : List GlobalTaskResource) (name : String) (id : String × ℕ) : Prop :=
  ∃ r ∈ rows, r.name = name ∧ ∃ o ∈ r.usedBy, o.id = id

instance (rows : List GlobalTaskResource) (name : String) (id : String × ℕ) :
    Decidable (Owns rows name id) :=
  inferInstanceAs (Decidable (∃ r ∈ rows, r.name = name ∧ ∃ o ∈ r.usedBy, o.id = id))

def SectionsOwned (t : Tick) : Prop :=
  ∀ j ∈ t.dispatched.job, ∀ e ∈ j.resources, InSection e → Owns t.executed.resources e.name j.id

instance (t : Tick) : Decidable (SectionsOwned t) :=
  inferInstanceAs (Decidable (∀ j ∈ t.dispatched.job, ∀ e ∈ j.resources,
    InSection e → Owns t.executed.resources e.name j.id))

-- No resource the chosen job is about to use is owned by another job of its task.
def Apart (d : Dispatch) : Prop :=
  ∀ j ∈ d.job, ∀ e ∈ j.resources, InSection e → ∀ r ∈ d.chosen.resources, r.name = e.name →
    ∀ o ∈ r.usedBy, o.name = j.name → o.taskNum = j.taskNum

instance (d : Dispatch) : Decidable (Apart d) :=
  inferInstanceAs (Decidable (∀ j ∈ d.job, ∀ e ∈ j.resources, InSection e →
    ∀ r ∈ d.chosen.resources, r.name = e.name → ∀ o ∈ r.usedBy, o.name = j.name →
      o.taskNum = j.taskNum))

def Entered (ts : List Tick) (id : String × ℕ) (node : ℕ) : Prop :=
  ∃ t ∈ ts, ∃ j ∈ t.dispatched.job, j.id = id ∧ ∃ e ∈ j.resources, e.node = node ∧ InSection e

instance (ts : List Tick) (id : String × ℕ) (node : ℕ) : Decidable (Entered ts id node) :=
  inferInstanceAs (Decidable (∃ t ∈ ts, ∃ j ∈ t.dispatched.job,
    j.id = id ∧ ∃ e ∈ j.resources, e.node = node ∧ InSection e))

-- The job has executed a tick of the section and the section is not over.
def Inside (ts : List Tick) (x : TaskStruct) (e : LocalTaskResource) : Prop :=
  Entered ts x.id e.node ∧ e.tForElapsed < e.tFor

instance (ts : List Tick) (x : TaskStruct) (e : LocalTaskResource) : Decidable (Inside ts x e) :=
  inferInstanceAs (Decidable (_ ∧ _))

def Exclusive (ts : List Tick) (t : Tick) : Prop :=
  ∀ x ∈ t.dispatched.chosen.readyQueue ++ t.dispatched.chosen.blockedQueue,
    ∀ y ∈ t.dispatched.chosen.readyQueue ++ t.dispatched.chosen.blockedQueue,
      x.flagged = false → y.flagged = false → ∀ e ∈ x.resources, ∀ f ∈ y.resources,
        Inside (ts ++ [t]) x e → Inside (ts ++ [t]) y f → e.name = f.name → x.id = y.id

-- A job that ends a section is not inside another section of the same resource.
def Unnested (ts : List Tick) (t : Tick) : Prop :=
  ∀ n ∈ t.dispatched.next, ∀ e ∈ n.resources, Inside (ts ++ [t]) n e →
    ∀ e' ∈ n.resources, e'.name = e.name → sectionOver e' = false

instance (ts : List Tick) (t : Tick) : Decidable (Unnested ts t) :=
  inferInstanceAs (Decidable (∀ n ∈ t.dispatched.next, ∀ e ∈ n.resources,
    Inside (ts ++ [t]) n e → ∀ e' ∈ n.resources, e'.name = e.name → sectionOver e' = false))

theorem rows_inj {rows : List GlobalTaskResource}
    (hnames : (rows.map GlobalTaskResource.name).Nodup) {r s : GlobalTaskResource} (hr : r ∈ rows)
    (hs : s ∈ rows) (hname : r.name = s.name) : r = s :=
  List.inj_on_of_nodup_map hnames hr hs hname

theorem Owns.unique {rows : List GlobalTaskResource} {name : String} {id id' : String × ℕ}
    (hnames : (rows.map GlobalTaskResource.name).Nodup) (h : Owns rows name id)
    (h' : Owns rows name id') : id = id' := by
  obtain ⟨r, hr, hrname, o, ho, rfl⟩ := h
  obtain ⟨s, hs, hsname, p, hp, rfl⟩ := h'
  obtain rfl := rows_inj hnames hr hs (hrname.trans hsname.symm)
  rw [Option.some_inj.mp (ho.symm.trans hp)]

theorem Owns.taken {rows rows' : List GlobalTaskResource} {o : JobRef} {name : String}
    {id : String × ℕ} (h : Owns rows name id) (htaken : RowsTaken o rows rows') :
    Owns rows' name id := by
  obtain ⟨r, hr, hname, p, hp, hid⟩ := h
  exact ⟨r, htaken.kept r hr p hp, hname, p, hp, hid⟩

theorem Runs.id {t t' : TaskStruct} {b b' : Board} (h : Runs t t' b b') : t'.id = t.id :=
  (congrArg TaskStruct.id h.job :)

section Ran

variable {cfg : Config} {t : Tick}

theorem Ran.runs (hran : Ran cfg t) {j : TaskStruct} (hj : j ∈ t.dispatched.job) :
    ∃ j' n', t.dispatched.next = some j' ∧
      Runs j.core j'.core t.dispatched.chosen.board t.dispatched.picked.board ∧
      t.executed.board = t.dispatched.picked.board.update j.addr (work cfg t.start.tick) ∧
      Releases (work cfg t.start.tick j'.core) n' t.executed.board t.finished.board := by
  cases hran with
  | idle hjob =>
    rw [hjob] at hj
    cases hj
  | running j₀ j' n' hjob hnext hruns hexecuted hreleases =>
    obtain rfl : j₀ = j := Option.some_inj.mp (hjob.symm.trans hj)
    exact ⟨j', n', hnext, hruns, hexecuted, hreleases⟩

theorem Ran.rows (hran : Ran cfg t) : t.executed.resources = t.dispatched.picked.resources := by
  cases hran with
  | idle _ _ _ _ hexecuted _ => exact (congrArg Board.resources hexecuted :)
  | running j j' n' _ _ _ hexecuted _ => exact (congrArg Board.resources hexecuted :)

-- `used_by` is tested by name, so the owner of a resource in use is right up to the task number.
theorem sectionsOwned_iff (hran : Ran cfg t) (hwf : WellFormed t.dispatched.chosen.board)
    (hlisted : Recorded t.dispatched.chosen.board) : SectionsOwned t ↔ Apart t.dispatched := by
  constructor
  · intro howned j hj e he hin r hr hname o ho _
    obtain ⟨j', _, _, hruns, _, _⟩ := hran.runs hj
    have hkept : r ∈ t.executed.resources := by
      rw [hran.rows]
      exact hruns.rows.kept r hr o ho
    have hnames : (t.executed.resources.map GlobalTaskResource.name).Nodup := by
      rw [hran.rows]
      exact (hwf.mapped (hruns.mapped hwf)).rowNames
    have hunique := Owns.unique hnames (howned j hj e he hin) ⟨r, hkept, hname, o, ho, rfl⟩
    exact (congrArg Prod.snd hunique).symm
  · intro hapart j hj e he hin
    obtain ⟨j', _, _, hruns, _, _⟩ := hran.runs hj
    have hpicked := hwf.mapped (hruns.mapped hwf)
    have hmem := (hlisted j.core (WellFormed.mem_ready hruns.mem)).names e he
    rw [← hruns.rows.names] at hmem
    obtain ⟨r, hr, hname⟩ := List.mem_map.mp hmem
    obtain ⟨o, ho, howner⟩ := hruns.held hwf.rowNames e he hin r hr hname
    rw [hran.rows]
    refine ⟨r, hr, hname, o, ho, ?_⟩
    rcases hruns.rows.held r hr with hold | ⟨htaken, _⟩
    · have hnum := hapart j hj e he hin r hold hname o ho howner
      exact Prod.ext howner hnum
    · rw [Option.some_inj.mp (ho.symm.trans htaken)]
      rfl

end Ran

theorem entered_snoc {ts : List Tick} {t : Tick} {id : String × ℕ} {node : ℕ} :
    Entered (ts ++ [t]) id node ↔ Entered ts id node ∨
      ∃ j ∈ t.dispatched.job, j.id = id ∧ ∃ e ∈ j.resources, e.node = node ∧ InSection e := by
  simp only [Entered, List.mem_append, List.mem_singleton]
  constructor
  · rintro ⟨u, hu | rfl, hentered⟩
    · exact Or.inl ⟨u, hu, hentered⟩
    · exact Or.inr hentered
  · rintro (⟨u, hu, hentered⟩ | hentered)
    · exact ⟨u, Or.inl hu, hentered⟩
    · exact ⟨t, Or.inr rfl, hentered⟩

def SectionsHeld (ts : List Tick) (b : Board) : Prop :=
  ∀ x ∈ b.ready ++ b.blocked, x.flagged = false → ∀ e ∈ x.resources, Inside ts x e →
    Owns b.resources e.name x.id

namespace SectionsHeld

variable {ts : List Tick} {b b' : Board} {t t' : TaskStruct}

theorem release (h : SectionsHeld ts b) {issued ended : List (String × ℕ)}
    (hfate : Fate issued ended b) (hknown : ∀ id node, Entered ts id node → id ∈ issued)
    (tick : UInt32) (fresh : ℕ) : SectionsHeld ts (b.release tick fresh) := by
  intro x hx hflag e he hin
  rcases List.mem_append.mp hx with hx | hx
  · rcases List.mem_append.mp hx with hx | hx
    · exact h x (List.mem_append_left _ hx) hflag e he hin
    · have hid := List.mem_map_of_mem (f := TaskStruct.id) hx
      rw [map_id_copyList, List.map_map] at hid
      exact absurd (hknown x.id e.node hin.1) (new_fresh tick hfate x.id hid)
  · exact h x (List.mem_append_right _ hx) hflag e he hin

theorem check (h : SectionsHeld ts b) (cfg : Config) : SectionsHeld ts (b.check cfg) := by
  have hqueue : ∀ q : List TaskStruct, (∀ x ∈ q, x ∈ b.ready ++ b.blocked) →
      ∀ x ∈ handleDeadlineQueue cfg q, x.flagged = false → ∀ e ∈ x.resources, Inside ts x e →
        Owns b.resources e.name x.id := by
    intro q hq x hx hflag e he hin
    obtain ⟨y, hy, rfl⟩ := List.mem_map.mp hx
    rw [handleDeadline_flagged] at hflag
    rw [handleDeadline_resources] at he
    rw [Inside, handleDeadline_id] at hin
    rw [handleDeadline_id]
    exact h y (hq y hy) (Bool.or_eq_false_iff.mp hflag).1 e he hin
  intro x hx
  rcases List.mem_append.mp hx with hx | hx
  · exact hqueue b.ready (fun y hy => List.mem_append_left _ hy) x hx
  · exact hqueue b.blocked (fun y hy => List.mem_append_right _ hy) x hx

-- The sweep frees no resource of a job it keeps.
theorem deleted (h : SectionsHeld ts b) (hwf : WellFormed b) (hroster : Roster b)
    (hdel : Deleted b b') (hlive : AllLive b') : SectionsHeld ts b' := by
  intro x hx _ e he hin
  have hflag := hlive x hx
  have hold : x ∈ b.ready ++ b.blocked := by
    rcases List.mem_append.mp hx with hx | hx
    · obtain ⟨y, hy, hvis⟩ := hdel.ready.origin x hx
      rw [hvis.unflagged (hvis.flagged.symm.trans hflag)]
      exact List.mem_append_left _ hy
    · obtain ⟨y, hy, hvis⟩ := hdel.blocked.origin x hx
      rw [hvis.unflagged (hvis.flagged.symm.trans hflag)]
      exact List.mem_append_right _ hy
  obtain ⟨r, hr, hname, o, ho, hid⟩ := h x hold hflag e he hin
  refine ⟨r, hdel.rows.kept r hr ?_, hname, o, ho, hid⟩
  intro p hp hswept
  obtain rfl := Option.some_inj.mp (ho.symm.trans hp)
  have hpoints := hwf.owners r hr o ho
  rcases hswept with ⟨y, hy, haddr⟩ | ⟨y, hy, hyflag, haddr⟩
  · exact hpoints.notTask y hy haddr
  · rcases List.mem_append.mp hy with hy | hy
    · have hyid : y.id = x.id := (congrArg JobRef.id (hpoints.ready y hy haddr)).trans hid
      rcases List.mem_append.mp hold with hx | hx
      · rw [hroster.ready_unique hy hx hyid, hflag] at hyflag
        cases hyflag
      · exact hroster.separate hy hx hflag hyid
    · exact hpoints.notBlocked y hy haddr

theorem later (hlater : List.Forall₂ Later t.resources t'.resources) (hid : t'.id = t.id)
    (h : ∀ e ∈ t.resources, Inside ts t e → Owns b.resources e.name t.id) :
    ∀ e ∈ t'.resources, Inside ts t' e → Owns b.resources e.name t'.id := by
  intro e' he' hin
  obtain ⟨e, he, hstep⟩ := later_origin hlater he'
  rw [hstep.name, hid]
  refine h e he ⟨?_, hstep.unfinished hin.2⟩
  have hentered := hin.1
  rwa [hid, hstep.node] at hentered

theorem waits (h : SectionsHeld ts b) (hlive : AllLive b) (hlisted : Recorded b)
    (hwaits : Waits t t' b b') : SectionsHeld ts b' := by
  have hid : t'.id = t.id := (congrArg TaskStruct.id hwaits.job :)
  intro x hx hflag e he hin
  suffices hbefore : Owns b.resources e.name x.id from hbefore.taken hwaits.rows
  rcases List.mem_append.mp hx with hx | hx
  · rw [hwaits.ready] at hx
    exact h x (List.mem_append_left _ ((removeNodes_sublist _ _).subset hx)) hflag e he hin
  · rw [hwaits.blocked] at hx
    rcases List.mem_append.mp hx with hx | hx
    · exact h x (List.mem_append_right _ hx) hflag e he hin
    · obtain rfl := List.mem_singleton.mp hx
      have hentries := hwaits.entries (hlisted t (WellFormed.mem_ready hwaits.mem)).nodes
      exact later (b := b) hentries hid
        (h t (List.mem_append_left _ hwaits.mem) (hlive.ready t hwaits.mem)) e he hin

theorem waiting {issued ended : List (String × ℕ)} (h : SectionsHeld ts b)
    (hcensus : LiveCensus issued ended b) (hlisted : Recorded b)
    (hrounds : Relation.ReflTransGen Waiting b b') : SectionsHeld ts b' := by
  induction hrounds with
  | refl => exact h
  | tail hpre hstep ih =>
    obtain ⟨t, t', hwaits⟩ := hstep
    exact ih.waits (hcensus.waiting hpre).live (hlisted.all_stems (waiting_stems hpre)) hwaits

theorem replace (h : SectionsHeld ts b) (t' : TaskStruct) (ht : t ∈ b.ready)
    (hflag : t'.flagged = false → t.flagged = false)
    (hready : b'.ready = b.ready.map (updateAt t.addr (fun _ => t')))
    (hblocked : b'.blocked = b.blocked) (hrows : b'.resources = b.resources)
    (hjob : (∀ e ∈ t.resources, Inside ts t e → Owns b.resources e.name t.id) →
      ∀ e ∈ t'.resources, Inside ts t' e → Owns b.resources e.name t'.id) :
    SectionsHeld ts b' := by
  intro x hx hxflag e he hin
  rw [hrows]
  rcases List.mem_append.mp hx with hx | hx
  · rw [hready] at hx
    rcases mem_map_updateAt hx with rfl | ⟨hx, _⟩
    · exact hjob (h t (List.mem_append_left _ ht) (hflag hxflag)) e he hin
    · exact h x (List.mem_append_left _ hx) hxflag e he hin
  · rw [hblocked] at hx
    exact h x (List.mem_append_right _ hx) hxflag e he hin

theorem work (h : SectionsHeld ts b) (cfg : Config) (tick : UInt32) (a : ℕ) :
    SectionsHeld ts (b.update a (Simulator.work cfg tick)) := by
  have hqueue : ∀ q : List TaskStruct, (∀ x ∈ q, x ∈ b.ready ++ b.blocked) →
      ∀ x ∈ q.map (updateAt a (Simulator.work cfg tick)), x.flagged = false → ∀ e ∈ x.resources,
        Inside ts x e → Owns b.resources e.name x.id := by
    intro q hq x hx hflag e he hin
    obtain ⟨y, hy, rfl⟩ := List.mem_map.mp hx
    rw [updateAt] at hflag he hin ⊢
    split
    · rename_i haddr
      rw [if_pos haddr] at hflag he hin
      rw [work_flagged] at hflag
      rw [work_resources] at he
      have hid : (Simulator.work cfg tick y).id = y.id := congrArg JobRef.id (work_ref cfg tick y)
      rw [Inside, hid] at hin
      rw [hid]
      exact h y (hq y hy) (Bool.or_eq_false_iff.mp hflag).1 e he hin
    · rename_i haddr
      rw [if_neg haddr] at hflag he hin
      exact h y (hq y hy) hflag e he hin
  intro x hx
  rcases List.mem_append.mp hx with hx | hx
  · exact hqueue b.ready (fun y hy => List.mem_append_left _ hy) x hx
  · exact hqueue b.blocked (fun y hy => List.mem_append_right _ hy) x hx

-- Only rows of the running job are freed, and none of a section it is still in.
theorem releases (h : SectionsHeld ts b) (hwf : WellFormed b) (hroster : Roster b)
    (hrel : Releases t t' b b')
    (hnested : ∀ e ∈ t.resources, Inside ts t e → ∀ e' ∈ t.resources, e'.name = e.name →
      sectionOver e' = false) : SectionsHeld ts b' := by
  have hid : t'.id = t.id := (congrArg TaskStruct.id hrel.job :)
  have hstate : t'.taskState = t.taskState := (congrArg TaskStruct.taskState hrel.job :)
  have hother : ∀ x ∈ b.ready ++ b.blocked, x.flagged = false → x.id ≠ t.id → ∀ e ∈ x.resources,
      Inside ts x e → Owns b'.resources e.name x.id := by
    intro x hx hflag hne e he hin
    obtain ⟨r, hr, hname, o, ho, hoid⟩ := h x hx hflag e he hin
    refine ⟨r, hrel.rows.kept r hr ?_, hname, o, ho, hoid⟩
    intro p hp haddr
    obtain rfl := Option.some_inj.mp (ho.symm.trans hp)
    have href := (hwf.owners r hr o ho).ready t hrel.mem haddr.symm
    exact hne (hoid.symm.trans (congrArg JobRef.id href).symm)
  intro x hx hflag e he hin
  rcases List.mem_append.mp hx with hx | hx
  · rw [hrel.ready] at hx
    rcases mem_map_updateAt hx with rfl | ⟨hx, haddr⟩
    · rw [hid]
      rw [Inside, hid] at hin
      have he' := hrel.entries.subset he
      obtain ⟨r, hr, hname, o, ho, hoid⟩ := h t (List.mem_append_left _ hrel.mem)
        ((flagged_of_state hstate).symm.trans hflag) e he' hin
      rcases hrel.gone r hr with hkept | ⟨f, hf, hover, hfname⟩
      · exact ⟨r, hkept, hname, o, ho, hoid⟩
      · rw [hnested e he' hin f hf (hfname.trans hname)] at hover
        cases hover
    · refine hother x (List.mem_append_left _ hx) hflag ?_ e he hin
      intro heq
      exact haddr (congrArg TaskStruct.addr (hroster.ready_unique hx hrel.mem heq))
  · rw [hrel.blocked, hwf.blocked_update hrel.mem] at hx
    refine hother x (List.mem_append_right _ hx) hflag ?_ e he hin
    exact fun heq => hroster.separate hrel.mem hx hflag heq.symm

theorem resume (h : SectionsHeld ts b) (hp : t ∈ b.blocked) (hlive : t.flagged = false) :
    SectionsHeld ts (b.resume t) := by
  have hrows : ∀ name id, Owns b.resources name id → Owns (b.resume t).resources name id := by
    rintro name id ⟨r, hr, hname, o, ho, rfl⟩
    refine ⟨_, List.mem_map_of_mem hr, ?_⟩
    rcases resetRow_cases { copyNode b.fresh t with taskState := .ready } r with
      ⟨hsame, _⟩ | ⟨⟨p, hpused, hid⟩, hreset⟩
    · rw [hsame]
      exact ⟨hname, o, ho, rfl⟩
    · rw [hreset]
      obtain rfl := Option.some_inj.mp (ho.symm.trans hpused)
      exact ⟨hname, _, rfl, hid.symm⟩
  intro x hx hflag e he hin
  apply hrows
  rcases List.mem_append.mp hx with hx | hx
  · rcases List.mem_append.mp hx with hx | hx
    · exact h x (List.mem_append_left _ hx) hflag e he hin
    · obtain rfl := List.mem_singleton.mp hx
      exact h t (List.mem_append_right _ hp) hlive e he hin
  · obtain ⟨y, hy, rfl⟩ := List.mem_map.mp hx
    have hsame := (markRemoved_live hflag).1
    rw [hsame] at hflag he hin ⊢
    exact h y (List.mem_append_right _ hy) hflag e he hin

theorem resuming {issued ended : List (String × ℕ)} {names : List String}
    (h : SectionsHeld ts b) (hcensus : Census issued ended b) (hstale : Stale names b)
    (hnames : names.Nodup) (hres : Resuming names b b') : SectionsHeld ts b' := by
  induction hres with
  | nil _ => exact h
  | skip _ ih =>
    refine ih h hcensus ?_ (List.nodup_cons.mp hnames).2
    exact fun y hy hflag name hname => hstale y hy hflag name (List.mem_cons_of_mem _ hname)
  | cons hstep _ ih =>
    obtain ⟨picked, hp, hwait, rfl⟩ := hstep
    obtain ⟨hname, hnames'⟩ := List.nodup_cons.mp hnames
    obtain ⟨hlive, hstale'⟩ := hstale.resume hcensus.roster hname hp hwait
    exact ih (h.resume hp hlive) (hcensus.resume hp hlive) hstale' hnames'

end SectionsHeld

-- The state before a tick of a run that keeps the jobs of one task apart.
structure Guarded (cfg : Config) (ts : List Tick) (σ : Sim) : Prop where
  tracked : Tracked cfg ts σ
  recorded : Recorded σ.board
  known : ∀ id node, Entered ts id node → id ∈ releasedJobs ts
  held : SectionsHeld ts σ.board

section Step

variable {cfg : Config} {ts : List Tick} {t : Tick} {issued ended : List (String × ℕ)}

-- With the tick that runs, every job that is inside a section owns its resource.
theorem inside_owns (hran : Ran cfg t) (hcensus : LiveCensus issued ended t.dispatched.chosen.board)
    (hlisted : Recorded t.dispatched.chosen.board) (hapart : Apart t.dispatched)
    (h : SectionsHeld ts t.dispatched.chosen.board) :
    SectionsHeld (ts ++ [t])
      { t.dispatched.chosen.board with resources := t.executed.resources } := by
  have howned := (sectionsOwned_iff hran hcensus.wf hlisted).mpr hapart
  intro x hx hflag e he hin
  rcases entered_snoc.mp hin.1 with hold | ⟨j, hj, hid, f, hf, hnode, hfin⟩
  · have howns := h x hx hflag e he ⟨hold, hin.2⟩
    cases hran with
    | idle _ _ _ hpicked hexecuted _ =>
      have hrows : t.executed.resources = t.dispatched.chosen.resources := by
        rw [← hpicked]
        exact (congrArg Board.resources hexecuted :)
      rw [hrows]
      exact howns
    | running j j' n' hjob hnext hruns hexecuted hreleases =>
      have hrows := Ran.rows (Ran.running j j' n' hjob hnext hruns hexecuted hreleases)
      rw [hrows]
      exact howns.taken hruns.rows
  · obtain ⟨j', _, _, hruns, _, _⟩ := hran.runs hj
    have hsame : x = j.core := by
      rcases List.mem_append.mp hx with hx | hx
      · exact hcensus.roster.ready_unique hx hruns.mem hid.symm
      · exact absurd (show j.core.id = x.id from hid) (hcensus.roster.separate hruns.mem hx hflag)
    subst hsame
    have hnodes := (hlisted j.core (WellFormed.mem_ready hruns.mem)).nodes
    obtain rfl : f = e := List.inj_on_of_nodup_map hnodes hf he hnode
    exact howned j hj f hf hfin

theorem exclusive_of_owns (hnames : (t.executed.resources.map GlobalTaskResource.name).Nodup)
    (h : SectionsHeld (ts ++ [t])
      { t.dispatched.chosen.board with resources := t.executed.resources }) : Exclusive ts t := by
  have hmem : ∀ x ∈ t.dispatched.chosen.readyQueue ++ t.dispatched.chosen.blockedQueue,
      x.core ∈ t.dispatched.chosen.board.ready ++ t.dispatched.chosen.board.blocked := by
    intro x hx
    rw [Sim.board, ← List.map_append]
    exact List.mem_map_of_mem hx
  intro x hx y hy hxflag hyflag e he f hf hxin hyin hname
  have hxowns := h x.core (hmem x hx) hxflag e he hxin
  have hyowns := h y.core (hmem y hy) hyflag f hf hyin
  rw [← hname] at hyowns
  exact Owns.unique hnames hxowns hyowns

theorem sectionsHeld_ran (hran : Ran cfg t)
    (hcensus : LiveCensus issued ended t.dispatched.chosen.board)
    (hexecuted : Roster t.executed.board) (hlisted : Recorded t.dispatched.chosen.board)
    (hunnested : Unnested ts t)
    (h : SectionsHeld (ts ++ [t])
      { t.dispatched.chosen.board with resources := t.executed.resources }) :
    SectionsHeld (ts ++ [t]) t.finished.board := by
  have hrows := hran.rows
  cases hran with
  | idle _ _ _ hpicked hexec hfinished =>
    have hsame : t.executed.resources = t.dispatched.chosen.board.resources := by
      rw [hrows, hpicked]
      rfl
    rw [hsame] at h
    rw [hfinished, hpicked]
    exact h
  | running j j' n' hjob hnext hruns hexec hreleases =>
    have hwf := hcensus.wf
    have hpickedwf := hwf.mapped (hruns.mapped hwf)
    have hentries := hruns.entries (hlisted j.core (WellFormed.mem_ready hruns.mem)).nodes
    have hpicked : SectionsHeld (ts ++ [t]) t.dispatched.picked.board := by
      refine h.replace j'.core hruns.mem ?_ hruns.ready
        (hruns.blocked.trans (hwf.blocked_update hruns.mem _)) hrows.symm ?_
      · exact fun hflag => (flagged_of_state hruns.state).symm.trans hflag
      · exact SectionsHeld.later hentries hruns.id
    have hworked := hpicked.work cfg t.start.tick j.addr
    have hexecwf := hpickedwf.mapped (work_mapped cfg t.start.tick _ j.addr)
    rw [← hexec] at hworked hexecwf
    refine hworked.releases hexecwf hexecuted hreleases ?_
    have hid : (work cfg t.start.tick j'.core).id = j'.id :=
      congrArg JobRef.id (work_ref cfg t.start.tick j'.core)
    intro e he hin e' he' hname
    rw [work_resources] at he he'
    rw [Inside, hid] at hin
    exact hunnested j' hnext e he hin e' he' hname

theorem entered_known (hran : Ran cfg t)
    (hcensus : LiveCensus issued ended t.dispatched.chosen.board)
    (hknown : ∀ id node, Entered ts id node → id ∈ issued) :
    ∀ id node, Entered (ts ++ [t]) id node → id ∈ issued := by
  intro id node hentered
  rcases entered_snoc.mp hentered with hold | ⟨j, hj, rfl, _⟩
  · exact hknown id node hold
  · obtain ⟨j', _, _, hruns, _, _⟩ := hran.runs hj
    refine hcensus.fate.known _ (List.mem_append_left _ ?_)
    exact List.mem_map.mpr ⟨j.core, hruns.mem, rfl⟩

end Step

theorem Guarded.step {cfg : Config} {ts : List Tick} {σ σ' : Sim} {t : Tick}
    (h : Guarded cfg ts σ) (hclean : CleanSweep t.checked) (hapart : Apart t.dispatched)
    (hunnested : Unnested ts t) (hstep : Step cfg σ t σ') :
    Guarded cfg (ts ++ [t]) σ' ∧ Exclusive ts t := by
  have hrecorded := hstep.recorded h.tracked.sound h.recorded
  obtain ⟨rfl, rfl, hphases, hcensus, hnext⟩ := h.tracked.step hclean hstep
  have hwf := h.tracked.sound.board
  have hknown : ∀ id node, Entered ts id node → id ∈ releasedJobs ts ++ t.releases :=
    fun id node hentered => List.mem_append_left _ (h.known id node hentered)
  have hchosenlisted := h.recorded.all_stems hphases.stems_chosen
  obtain ⟨fresh, _, hboard⟩ := hphases.released
  have hreleased := h.held.release h.tracked.census.fate h.known t.start.tick fresh
  rw [← hboard] at hreleased
  have hchecked := hreleased.check cfg
  rw [← hphases.checked] at hchecked
  have hcheckedroster : Roster t.checked.board := by
    rw [hphases.checked]
    exact hcensus.released.roster.check
  have hdeleted := hchecked.deleted (hphases.wf_checked hwf) hcheckedroster hphases.deleted
    hcensus.deleted.live
  have hdeletedlisted := h.recorded.all_stems hphases.stems_deleted
  have hchosen := hdeleted.waiting hcensus.deleted hdeletedlisted hphases.rounds
  have howns := inside_owns hphases.ran hcensus.chosen hchosenlisted hapart hchosen
  have hfinished := sectionsHeld_ran hphases.ran hcensus.chosen hcensus.executed.roster
    hchosenlisted hunnested howns
  have hstale : Stale (t.finished.resources.map GlobalTaskResource.name) t.finished.board := by
    intro y hy hflag
    rw [hcensus.waiting y hy] at hflag
    cases hflag
  refine ⟨⟨hnext, hrecorded, ?_, ?_⟩, ?_⟩
  · rw [releasedJobs_snoc]
    exact entered_known hphases.ran hcensus.chosen hknown
  · exact hfinished.resuming hcensus.finished hstale hcensus.finished.wf.rowNames hphases.resumed
  · exact exclusive_of_owns hcensus.executed.wf.rowNames howns

theorem mutual_exclusion (cfg : Config) (rows : List TaskRow) (ts : List Tick) (σ : Sim)
    (hrun : Run cfg (initial rows) ts σ) :
    (∀ t ∈ ts, SectionsOwned t ↔ Apart t.dispatched) ∧
      ((rows.map TaskRow.name).Nodup → (∀ t ∈ ts, Apart t.dispatched ∧ CleanSweep t.checked) →
        LabelledRun.Along Unnested ts → LabelledRun.Along Exclusive ts) := by
  refine ⟨?_, ?_⟩
  · refine hrun.forall_label (I := fun σ => Sound σ ∧ Recorded σ.board) (G := fun _ => True)
      ⟨initial_sound rows, initial_recorded rows⟩ ?_ (fun _ _ => trivial)
    intro σ t σ' ⟨hsound, hrecorded⟩ _ hstep
    refine ⟨⟨hstep.sound hsound, hstep.recorded hsound hrecorded⟩, ?_⟩
    obtain ⟨_, htick, rfl⟩ := hstep
    obtain ⟨rfl, hphases⟩ := simTick_phases hsound htick
    exact sectionsOwned_iff hphases.ran (hphases.wf_chosen hsound.board)
      (hrecorded.all_stems hphases.stems_chosen)
  · intro hnames hgood hunnested
    have hinit : Guarded cfg [] (initial rows) := by
      refine ⟨⟨initial_sound rows, initial_census hnames⟩, initial_recorded rows, ?_, ?_⟩
      · rintro id node ⟨t, ht, _⟩
        exact absurd ht List.not_mem_nil
      · exact fun x hx => absurd hx List.not_mem_nil
    have hguarded : Guarded cfg ts σ ∧ LabelledRun.Along Exclusive ts := by
      refine hrun.history_along
        (I := fun ts σ => Guarded cfg ts σ ∧ LabelledRun.Along Exclusive ts)
        (G := fun ts t => (Apart t.dispatched ∧ CleanSweep t.checked) ∧ Unnested ts t)
        ⟨hinit, LabelledRun.along_nil _⟩ ?_
        (fun i hi => ⟨hgood _ (List.getElem_mem hi), hunnested i hi⟩)
      intro ts σ t σ' _ ⟨h, hexclusive⟩ ⟨⟨hapart, hclean⟩, hun⟩ hstep
      obtain ⟨hnext, hexcl⟩ := h.step hclean hapart hun hstep
      exact ⟨hnext, LabelledRun.along_snoc.mpr ⟨hexclusive, hexcl⟩⟩
    exact hguarded.2

def sectionsInTurn : List TaskRow :=
  [⟨"A", 1, 20, 5, 10, [("X", 0, 2), ("X", 3, 1)]⟩, ⟨"B", 0, 20, 6, 15, [("X", 0, 3)]⟩]

theorem mutual_exclusion_in_turn :
    ∃ σ, Run (nokillDm 45) (initial sectionsInTurn) (ticksOf (nokillDm 45) sectionsInTurn 10) σ ∧
      (∀ t ∈ ticksOf (nokillDm 45) sectionsInTurn 10, SectionsOwned t) ∧
        LabelledRun.Along Exclusive (ticksOf (nokillDm 45) sectionsInTurn 10) := by
  obtain ⟨σ, hrun⟩ := ticksOf_run (nokillDm 45) sectionsInTurn 10
    (by decide +kernel)
  obtain ⟨howned, hexclusive⟩ := mutual_exclusion _ _ _ σ hrun
  have hapart : ∀ t ∈ ticksOf (nokillDm 45) sectionsInTurn 10,
      Apart t.dispatched ∧ CleanSweep t.checked := by
    decide +kernel
  refine ⟨σ, hrun, fun t ht => (howned t ht).mpr (hapart t ht).1, ?_⟩
  exact hexclusive (by decide) hapart (by decide +kernel)

def jobsOfOneTask : List TaskRow :=
  [⟨"A", 1, 3, 5, 10, [("X", 0, 5), ("Y", 1, 1)]⟩, ⟨"B", 0, 20, 6, 15, [("Y", 0, 5)]⟩]

theorem section_entered_twice : ¬∀ (cfg : Config) (rows : List TaskRow) (ts : List Tick) (σ : Sim),
    (rows.map TaskRow.name).Nodup → Run cfg (initial rows) ts σ → ∀ t ∈ ts, SectionsOwned t := by
  intro h
  obtain ⟨σ, hrun⟩ := ticksOf_run (nokillDm 45) jobsOfOneTask 5
    (by decide +kernel)
  have hshared : ∃ t ∈ ticksOf (nokillDm 45) jobsOfOneTask 5, ¬SectionsOwned t := by
    decide +kernel
  obtain ⟨t, ht, hbad⟩ := hshared
  exact hbad (h _ _ _ σ (by decide) hrun t ht)

end Simulator
