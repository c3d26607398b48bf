import HTWGArchive.Simulator.Entries

namespace Simulator

def Sim.jobs (σ : Sim) : List TaskStruct :=
  σ.readyQueue ++ σ.blockedQueue

-- The jobs that the selection loop picks, before and after they ask for their resources.
def attempts (cfg : Config) : ℕ → Sim → List (TaskStruct × TaskStruct)
  | 0, _ => []
  | fuel + 1, σ =>
    let σ := prioritizeQueues cfg σ
    match pickNextTask σ.readyQueue with
    | none => []
    | some t =>
      let (σ', t') := lockResources cfg σ t
      (t, t') :: if t'.taskState = .blocked then attempts cfg fuel σ' else []

def Tick.attempts (cfg : Config) (t : Tick) : List (TaskStruct × TaskStruct) :=
  Simulator.attempts cfg t.deleted.readyQueue.length t.deleted

def Ticked (e e' : LocalTaskResource) : Prop :=
  e'.node = e.node ∧ e'.name = e.name ∧ e'.tFrom = e.tFrom ∧ e'.tFor = e.tFor ∧
    e'.tFromElapsed = e.tFromElapsed + 1 ∧
    (e'.tForElapsed = e.tForElapsed ∨ e'.tForElapsed = e.tForElapsed + 1)

instance (e e' : LocalTaskResource) : Decidable (Ticked e e') :=
  inferInstanceAs (Decidable (_ ∧ _ ∧ _ ∧ _ ∧ _ ∧ (_ ∨ _)))

-- `x'` is the struct `x`, or a copy of it at an address from `fresh` on.
def Clocked (executing : Option ℕ) (fresh : ℕ) (x x' : TaskStruct) : Prop :=
  x'.id = x.id ∧ (x'.addr = x.addr ∨ fresh ≤ x'.addr) ∧
    if executing = some x'.addr then ∀ e' ∈ x'.resources, ∃ e ∈ x.resources, Ticked e e'
    else ∀ e' ∈ x'.resources, e' ∈ x.resources

instance (executing : Option ℕ) (fresh : ℕ) (x x' : TaskStruct) :
    Decidable (Clocked executing fresh x x') :=
  inferInstanceAs (Decidable (_ ∧ _ ∧ ite _ _ _))

def Tick.executing (t : Tick) : Option ℕ :=
  t.dispatched.next.map TaskStruct.addr

structure ClocksFollowExecution (cfg : Config) (t : Tick) : Prop where
  jobs : ∀ x' ∈ t.final.jobs, ∃ x ∈ t.released.jobs, Clocked t.executing t.released.fresh x x'
  blocked : ∀ a ∈ t.attempts cfg, a.2.taskState = .blocked → a.2.resources = a.1.resources

instance (cfg : Config) (t : Tick) : Decidable (ClocksFollowExecution cfg t) :=
  decidable_of_iff
    ((∀ x' ∈ t.final.jobs, ∃ x ∈ t.released.jobs, Clocked t.executing t.released.fresh x x') ∧
    ∀ a ∈ t.attempts cfg, a.2.taskState = .blocked → a.2.resources = a.1.resources)
    ⟨fun h => ⟨h.1, h.2⟩, fun h => ⟨h.jobs, h.blocked⟩⟩

-- An open section of the entry needs a resource that a job of another task holds.
def obstructed (rows : List GlobalTaskResource) (name : String) (e : LocalTaskResource) : Bool :=
  !(e.tFromElapsed < e.tFrom || e.tForElapsed ≥ e.tFor) &&
    (rows.find? (fun r => r.name = e.name)).any (fun r => r.usedBy.any (fun o => o.name ≠ name))

def Unobstructed (cfg : Config) (t : Tick) : Prop :=
  ∀ x ∈ pickNextTask (prioritizeQueues cfg t.deleted).readyQueue, ∀ e ∈ x.resources,
    obstructed t.deleted.resources x.name e = false

instance (cfg : Config) (t : Tick) : Decidable (Unobstructed cfg t) :=
  inferInstanceAs (Decidable (∀ x ∈ pickNextTask (prioritizeQueues cfg t.deleted).readyQueue,
    ∀ e ∈ x.resources, obstructed t.deleted.resources x.name e = false))

section Lock

variable (cfg : Config) {st : Sim × TaskStruct} {e : LocalTaskResource}

theorem obstructed_takeRow (t : TaskStruct) (name : String) (rows : List GlobalTaskResource)
    (e : LocalTaskResource) :
    obstructed (rows.map (takeRow t name)) t.name e = obstructed rows t.name e := by
  have hname : (fun r => decide (r.name = e.name)) ∘ takeRow t name =
      fun r => decide (r.name = e.name) := by
    funext r
    simp only [Function.comp_apply, takeRow]
    split <;> rfl
  rw [obstructed, obstructed, List.find?_map, hname]
  cases rows.find? (fun r => decide (r.name = e.name)) with
  | none => rfl
  | some r =>
    congr 1
    simp only [Option.map_some, Option.any_some, takeRow]
    split
    · rename_i hfree
      have hnone : r.usedBy = none := by simpa using (Bool.and_eq_true_iff.mp hfree).2
      simp [hnone, TaskStruct.ref]
    · rfl

theorem lockResource_obstructed (hstate : st.2.taskState ≠ .blocked)
    (hobs : obstructed st.1.resources st.2.name e = true) :
    (lockResource cfg st e).2.taskState = .blocked ∧
      (lockResource cfg st e).2.resources = (elapseFrom e.node st.2).resources := by
  obtain ⟨hopen, hheld⟩ := Bool.and_eq_true_iff.mp hobs
  rw [Bool.not_eq_true'] at hopen
  obtain ⟨r, hfind, hused⟩ := (Option.any_eq_true _ _).mp hheld
  obtain ⟨o, ho, hother⟩ := (Option.any_eq_true _ _).mp hused
  have hne : o.name ≠ (elapseFrom e.node st.2).name := of_decide_eq_true hother
  rw [lockResource, if_neg hstate]
  simp only [hopen, Bool.false_eq_true, if_false, hfind, ho, if_pos hne]
  exact ⟨inheritPriority_taskState _ _ _ _ _, inheritPriority_resources _ _ _ _ _⟩

structure Passes (st st' : Sim × TaskStruct) (node : ℕ) : Prop where
  taskState : st'.2.taskState = st.2.taskState
  name : st'.2.name = st.2.name
  resources : st'.2.resources = (elapseFrom node st.2).resources ∨
    st'.2.resources = (elapseFor node (elapseFrom node st.2)).resources
  rows : ∀ e, obstructed st'.1.resources st.2.name e = obstructed st.1.resources st.2.name e

theorem lockResource_passes (hstate : st.2.taskState ≠ .blocked)
    (hfree : obstructed st.1.resources st.2.name e = false) :
    Passes st (lockResource cfg st e) e.node := by
  rw [lockResource, if_neg hstate]
  dsimp only
  split
  · exact ⟨rfl, rfl, Or.inl rfl, fun _ => rfl⟩
  · rename_i hopen
    split
    · exact ⟨rfl, rfl, Or.inl rfl, fun _ => rfl⟩
    · rename_i r hfind
      split
      · refine ⟨rfl, rfl, Or.inl rfl, ?_⟩
        exact fun e' => obstructed_takeRow (elapseFrom e.node st.2) e.name st.1.resources e'
      · rename_i o ho
        split
        · rename_i hne
          have hclosed := Bool.eq_false_iff.mpr hopen
          rw [obstructed, hclosed, hfind] at hfree
          simp only [Bool.not_false, Bool.true_and, Option.any_some, ho,
            decide_eq_false_iff_not] at hfree
          exact absurd hne hfree
        · exact ⟨rfl, rfl, Or.inr rfl, fun _ => rfl⟩

theorem Passes.ticked {st' : Sim × TaskStruct} {done rest : List LocalTaskResource}
    (h : Passes st st' e.node) (ht : st.2.resources = done ++ e :: rest)
    (hdone : e.node ∉ Nodes done) (hrest : e.node ∉ Nodes rest) :
    ∃ e', st'.2.resources = done ++ e' :: rest ∧ Ticked e e' := by
  let e₁ : LocalTaskResource := { e with tFromElapsed := e.tFromElapsed + 1 }
  have hfrom : (elapseFrom e.node st.2).resources = done ++ e₁ :: rest := by
    rw [elapseFrom, ht]
    exact map_update_node hdone hrest
  rcases h.resources with heq | heq
  · exact ⟨e₁, heq.trans hfrom, rfl, rfl, rfl, rfl, rfl, Or.inl rfl⟩
  · refine ⟨{ e₁ with tForElapsed := e₁.tForElapsed + 1 }, heq.trans ?_, rfl, rfl, rfl, rfl, rfl,
      Or.inr rfl⟩
    rw [elapseFor, hfrom]
    exact map_update_node (e := e₁) hdone hrest

theorem notMem_nodes_of_split {done es : List LocalTaskResource}
    (hnodes : (Nodes (done ++ e :: es)).Nodup) : e.node ∉ Nodes done ∧ e.node ∉ Nodes es := by
  simp only [Nodes, List.map_append, List.map_cons] at hnodes ⊢
  have hfresh := (List.nodup_cons.mp (List.nodup_middle.mp hnodes)).1
  rwa [List.mem_append, not_or] at hfresh

theorem foldl_lockResource_ticked {es done : List LocalTaskResource} {st : Sim × TaskStruct}
    (ht : st.2.resources = done ++ es) (hnodes : (Nodes (done ++ es)).Nodup)
    (hstate : st.2.taskState ≠ .blocked)
    (hfree : ∀ e ∈ es, obstructed st.1.resources st.2.name e = false) :
    (es.foldl (lockResource cfg) st).2.taskState = st.2.taskState ∧
      ∃ es', (es.foldl (lockResource cfg) st).2.resources = done ++ es' ∧
        List.Forall₂ Ticked es es' := by
  induction es generalizing done st with
  | nil => exact ⟨rfl, [], ht, List.Forall₂.nil⟩
  | cons e es ih =>
    have hpass := lockResource_passes cfg hstate (hfree e List.mem_cons_self)
    obtain ⟨hdone, hrest⟩ := notMem_nodes_of_split hnodes
    obtain ⟨e', hstep, hticked⟩ := hpass.ticked ht hdone hrest
    have hnext : (lockResource cfg st e).2.resources = (done ++ [e']) ++ es := by
      rw [hstep]
      simp
    have hnodes' : (Nodes ((done ++ [e']) ++ es)).Nodup := by
      simpa [Nodes, hticked.1] using hnodes
    have hstate' : (lockResource cfg st e).2.taskState ≠ .blocked := by
      rw [hpass.taskState]
      exact hstate
    have hfree' : ∀ x ∈ es, obstructed (lockResource cfg st e).1.resources
        (lockResource cfg st e).2.name x = false := by
      intro x hx
      rw [hpass.name, hpass.rows]
      exact hfree x (List.mem_cons_of_mem e hx)
    obtain ⟨hsame, es', hes, hall⟩ := ih hnext hnodes' hstate' hfree'
    refine ⟨hsame.trans hpass.taskState, e' :: es', ?_, List.Forall₂.cons hticked hall⟩
    rw [List.foldl_cons, hes]
    simp

theorem foldl_lockResource_obstructed {es : List LocalTaskResource} {st : Sim × TaskStruct}
    (hstate : st.2.taskState ≠ .blocked)
    (hobs : ∃ e ∈ es, obstructed st.1.resources st.2.name e = true) :
    (es.foldl (lockResource cfg) st).2.taskState = .blocked := by
  induction es generalizing st with
  | nil =>
    obtain ⟨e, he, _⟩ := hobs
    exact absurd he List.not_mem_nil
  | cons e es ih =>
    rw [List.foldl_cons]
    cases hhead : obstructed st.1.resources st.2.name e with
    | true =>
      have hblocked := (lockResource_obstructed cfg hstate hhead).1
      rw [foldl_lockResource_blocked hblocked]
      exact hblocked
    | false =>
      have hpass := lockResource_passes cfg hstate hhead
      apply ih
      · rw [hpass.taskState]
        exact hstate
      · obtain ⟨x, hx, hxobs⟩ := hobs
        rcases List.mem_cons.mp hx with rfl | hx
        · rw [hhead] at hxobs
          cases hxobs
        · exact ⟨x, hx, by rw [hpass.name, hpass.rows, hxobs]⟩

-- The entry visited first has moved on, whether or not it is the one that blocks.
theorem lockResources_changed {σ : Sim} {t : TaskStruct} (hnodes : (Nodes t.resources).Nodup)
    (hstate : t.taskState ≠ .blocked) (hne : t.resources ≠ []) :
    (lockResources cfg σ t).2.resources ≠ t.resources := by
  rw [lockResources]
  cases hes : t.resources with
  | nil => exact absurd hes hne
  | cons e es =>
    rw [hes] at hnodes
    have hsplit : (Nodes ([] ++ e :: es)).Nodup := hnodes
    obtain ⟨hdone, hrest⟩ := notMem_nodes_of_split hsplit
    have hfirst : ∃ e', (lockResource cfg (σ, t) e).2.resources = [] ++ e' :: es ∧
        Ticked e e' := by
      cases hhead : obstructed σ.resources t.name e with
      | true =>
        refine ⟨{ e with tFromElapsed := e.tFromElapsed + 1 }, ?_, rfl, rfl, rfl, rfl, rfl,
          Or.inl rfl⟩
        have hblocks : (lockResource cfg (σ, t) e).2.resources =
            (elapseFrom e.node t).resources := (lockResource_obstructed cfg hstate hhead).2
        rw [hblocks, elapseFrom, hes]
        exact map_update_node (f := fun x => { x with tFromElapsed := x.tFromElapsed + 1 }) hdone
          hrest
      | false =>
        have hpass : Passes (σ, t) (lockResource cfg (σ, t) e) e.node :=
          lockResource_passes cfg hstate hhead
        exact hpass.ticked hes hdone hrest
    obtain ⟨e', hstep, hticked⟩ := hfirst
    have hnodes' : (Nodes ([e'] ++ es)).Nodup := by simpa [Nodes, hticked.1] using hnodes
    have hstep' : (lockResource cfg (σ, t) e).2.resources = [e'] ++ es := hstep
    obtain ⟨es', hall, _⟩ := foldl_lockResource_later cfg hstep' hnodes'
    rw [List.foldl_cons, hall]
    intro heq
    have hhead : e' = e := (List.cons.inj heq).1
    have hclock := hticked.2.2.2.2.1
    rw [hhead] at hclock
    exact absurd hclock (by simp)

end Lock

section Selection

variable {cfg : Config} {σ : Sim}

theorem pick_mem_board {x : TaskStruct}
    (h : pickNextTask (prioritizeQueues cfg σ).readyQueue = some x) : x.core ∈ σ.board.ready := by
  have hmem := mem_board_ready (pickNextTask_mem h)
  rwa [prioritizeQueues_board] at hmem

theorem attempts_obstructed {x : TaskStruct} (hready : NoneBlocked σ.board.ready)
    (hnodes : ∀ x ∈ σ.board.ready, (Nodes x.resources).Nodup)
    (hpick : pickNextTask (prioritizeQueues cfg σ).readyQueue = some x)
    (hobs : ∃ e ∈ x.resources, obstructed σ.resources x.name e = true) :
    ∃ a ∈ attempts cfg σ.readyQueue.length σ,
      a.2.taskState = .blocked ∧ a.2.resources ≠ a.1.resources := by
  have hmem := pick_mem_board hpick
  have hstate : x.taskState ≠ .blocked := hready x.core hmem
  have hne : x.resources ≠ [] := by
    obtain ⟨e, he, _⟩ := hobs
    exact List.ne_nil_of_mem he
  cases hlen : σ.readyQueue.length with
  | zero =>
    have hpos := List.length_pos_of_mem hmem
    simp only [Sim.board, List.length_map, hlen] at hpos
    exact absurd hpos (Nat.lt_irrefl 0)
  | succ n =>
    refine ⟨(x, (lockResources cfg (prioritizeQueues cfg σ) x).2), ?_, ?_, ?_⟩
    · rw [attempts]
      simp only [hpick, List.mem_cons, true_or]
    · exact foldl_lockResource_obstructed cfg hstate hobs
    · exact lockResources_changed cfg (hnodes x.core hmem) hstate hne

structure Selects (cfg : Config) (σ : Sim) (d : Dispatch) : Prop where
  board : d.chosen.board = σ.board
  attempts : ∀ a ∈ attempts cfg σ.readyQueue.length σ, a.2.taskState ≠ .blocked
  ticked : ∀ j ∈ d.job, ∀ j' ∈ d.next, List.Forall₂ Ticked j.resources j'.resources

theorem dispatch_unobstructed (hready : NoneBlocked σ.board.ready)
    (hnodes : ∀ x ∈ σ.board.ready, (Nodes x.resources).Nodup)
    (hfree : ∀ x ∈ pickNextTask (prioritizeQueues cfg σ).readyQueue, ∀ e ∈ x.resources,
      obstructed σ.resources x.name e = false) : Selects cfg σ (dispatch cfg σ) := by
  rw [dispatch]
  cases hlen : σ.readyQueue.length with
  | zero =>
    refine ⟨prioritizeQueues_board cfg σ, ?_, fun j hj => by cases hj⟩
    rw [hlen]
    exact fun a ha => absurd ha List.not_mem_nil
  | succ n =>
    cases hpick : pickNextTask (prioritizeQueues cfg σ).readyQueue with
    | none =>
      rw [dispatchLoop, hpick]
      refine ⟨prioritizeQueues_board cfg σ, ?_, fun j hj => by cases hj⟩
      rw [hlen, attempts]
      simp only [hpick]
      exact fun a ha => absurd ha List.not_mem_nil
    | some x =>
      have hmem := pick_mem_board hpick
      have hstate : x.taskState ≠ .blocked := hready x.core hmem
      have hstart : (prioritizeQueues cfg σ, x).2.resources = [] ++ x.resources := rfl
      obtain ⟨hsame, es', hes, hticked⟩ := foldl_lockResource_ticked cfg hstart (hnodes x.core hmem)
        hstate (hfree x hpick)
      have hruns : (lockResources cfg (prioritizeQueues cfg σ) x).2.taskState ≠ .blocked := by
        rw [show (lockResources cfg (prioritizeQueues cfg σ) x).2.taskState = x.taskState from hsame]
        exact hstate
      rw [dispatchLoop, hpick]
      dsimp only
      rw [if_neg hruns]
      refine ⟨prioritizeQueues_board cfg σ, ?_, ?_⟩
      · rw [hlen, attempts]
        simp only [hpick, if_neg hruns, List.mem_singleton]
        rintro a rfl
        exact hruns
      · intro j hj j' hj'
        obtain rfl := Option.some_inj.mp hj
        obtain rfl := Option.some_inj.mp hj'
        rw [lockResources, hes]
        exact hticked

end Selection

-- A struct that stays where it is and has lost no more than entries.
def Kept (x y : TaskStruct) : Prop :=
  y.ref = x.ref ∧ ∀ e ∈ y.resources, e ∈ x.resources

theorem Kept.trans {x y z : TaskStruct} (h : Kept x y) (h' : Kept y z) : Kept x z :=
  ⟨h'.1.trans h.1, fun e he => h.2 e (h'.2 e he)⟩

theorem check_kept (cfg : Config) (b : Board) :
    ∀ y ∈ (b.check cfg).jobs, ∃ x ∈ b.jobs, Kept x y := by
  have hqueue : ∀ q : List TaskStruct, ∀ y ∈ handleDeadlineQueue cfg q, ∃ x ∈ q, Kept x y := by
    intro q y hy
    obtain ⟨x, hx, rfl⟩ := List.mem_map.mp hy
    refine ⟨x, hx, handleDeadline_ref cfg q x, ?_⟩
    rw [handleDeadline_resources]
    exact fun e he => he
  intro y hy
  rcases List.mem_append.mp hy with hy | hy
  · obtain ⟨x, hx, hkept⟩ := hqueue b.ready y hy
    exact ⟨x, List.mem_append_left _ hx, hkept⟩
  · obtain ⟨x, hx, hkept⟩ := hqueue b.blocked y hy
    exact ⟨x, List.mem_append_right _ hx, hkept⟩

theorem Visited.kept {t v : TaskStruct} (h : Visited t v) : Kept t v :=
  ⟨h.ref, fun _ he => h.entries.subset he⟩

theorem Deleted.kept {b b' : Board} (h : Deleted b b') :
    ∀ y ∈ b'.jobs, ∃ x ∈ b.jobs, Kept x y := by
  intro y hy
  rcases List.mem_append.mp hy with hy | hy
  · obtain ⟨x, hx, hvis⟩ := h.ready.origin y hy
    exact ⟨x, List.mem_append_left _ hx, hvis.kept⟩
  · obtain ⟨x, hx, hvis⟩ := h.blocked.origin y hy
    exact ⟨x, List.mem_append_right _ hx, hvis.kept⟩

structure Copies (b b' : Board) : Prop where
  fresh : b.fresh ≤ b'.fresh
  ready : ∀ y ∈ b'.ready, y ∈ b.ready ∨
    ∃ x ∈ b.blocked, y.id = x.id ∧ y.resources = x.resources ∧ b.fresh ≤ y.addr
  blocked : ∀ y ∈ b'.blocked, ∃ x ∈ b.blocked, y.ref = x.ref ∧ y.resources = x.resources

theorem resume_copies {b : Board} {picked : TaskStruct} (hp : picked ∈ b.blocked) :
    Copies b (b.resume picked) := by
  refine ⟨Nat.le_succ _, ?_, ?_⟩
  · intro y hy
    rcases List.mem_append.mp hy with hy | hy
    · exact Or.inl hy
    · rw [List.mem_singleton.mp hy]
      exact Or.inr ⟨picked, hp, rfl, rfl, le_rfl⟩
  · intro y hy
    obtain ⟨x, hx, rfl⟩ := List.mem_map.mp hy
    refine ⟨x, hx, ?_, markRemoved_resources picked.id x⟩
    rw [markRemoved]
    split <;> rfl

theorem resuming_copies {names : List String} {b b' : Board} (h : Resuming names b b') :
    Copies b b' := by
  induction h with
  | nil b => exact ⟨le_rfl, fun y hy => Or.inl hy, fun y hy => ⟨y, hy, rfl, rfl⟩⟩
  | skip _ ih => exact ih
  | cons hstep _ ih =>
    obtain ⟨picked, hp, _, rfl⟩ := hstep
    have hone := resume_copies hp
    refine ⟨hone.fresh.trans ih.fresh, ?_, ?_⟩
    · intro y hy
      rcases ih.ready y hy with hy | ⟨x, hx, hid, hes, hge⟩
      · exact hone.ready y hy
      · obtain ⟨w, hw, href, hes'⟩ := hone.blocked x hx
        have hid' : x.id = w.id := (congrArg JobRef.id href :)
        exact Or.inr ⟨w, hw, hid.trans hid', hes.trans hes', hone.fresh.trans hge⟩
    · intro y hy
      obtain ⟨x, hx, href, hes⟩ := ih.blocked y hy
      obtain ⟨w, hw, href', hes'⟩ := hone.blocked x hx
      exact ⟨w, hw, href.trans href', hes.trans hes'⟩

-- The struct that executes moves its clocks on, every other one keeps them.
def Advances (executing : Option ℕ) (x y : TaskStruct) : Prop :=
  y.ref = x.ref ∧ if executing = some y.addr then ∀ e' ∈ y.resources, ∃ e ∈ x.resources, Ticked e e'
    else ∀ e' ∈ y.resources, e' ∈ x.resources

theorem forall₂_ticked_mem {es es' : List LocalTaskResource} (h : List.Forall₂ Ticked es es') :
    ∀ e' ∈ es', ∃ e ∈ es, Ticked e e' := by
  induction h with
  | nil => exact fun e' he' => absurd he' List.not_mem_nil
  | cons hticked _ ih =>
    intro e' he'
    rcases List.mem_cons.mp he' with rfl | he'
    · exact ⟨_, List.mem_cons_self, hticked⟩
    · obtain ⟨e, he, hstep⟩ := ih e' he'
      exact ⟨e, List.mem_cons_of_mem _ he, hstep⟩

namespace TickPhases

variable {cfg : Config} {t : Tick}

theorem kept_deleted (h : TickPhases cfg t) :
    ∀ y ∈ t.deleted.board.jobs, ∃ x ∈ t.released.board.jobs, Kept x y := by
  intro y hy
  obtain ⟨x, hx, hkept⟩ := h.deleted.kept y hy
  rw [h.checked] at hx
  obtain ⟨w, hw, hkept'⟩ := check_kept cfg t.released.board x hx
  exact ⟨w, hw, hkept'.trans hkept⟩

structure Finished (t : Tick) : Prop where
  fresh : t.finished.board.fresh = t.deleted.board.fresh
  jobs : ∀ y ∈ t.finished.board.jobs, ∃ x ∈ t.deleted.board.jobs, Advances t.executing x y
  executing : ∀ a, t.executing = some a →
    a < t.finished.board.fresh ∧ ∀ y ∈ t.finished.board.blocked, y.addr ≠ a

theorem clocks_idle (hboard : t.finished.board = t.deleted.board) (hidle : t.executing = none) :
    Finished t := by
  refine ⟨congrArg Board.fresh hboard, ?_, ?_⟩
  · intro y hy
    rw [hboard] at hy
    refine ⟨y, hy, rfl, ?_⟩
    rw [hidle, if_neg (by simp)]
    exact fun e' he' => he'
  · intro a ha
    rw [hidle] at ha
    cases ha

-- Three replacements of the running job: by the dispatcher, by its work and by the release.
theorem mem_replaced {j j' n' y : TaskStruct} {f : TaskStruct → TaskStruct} {q : List TaskStruct}
    (hf : ∀ x, (f x).addr = x.addr) (haddr : j'.addr = j.addr)
    (hy : y ∈ ((q.map (updateAt j.addr (fun _ => j'))).map (updateAt j.addr f)).map
      (updateAt (f j').addr (fun _ => n'))) : y = n' ∨ y ∈ q ∧ y.addr ≠ j.addr := by
  rw [hf, haddr] at hy
  rcases mem_map_updateAt hy with hy | ⟨hy, hne⟩
  · exact Or.inl hy
  · right
    obtain ⟨w, hw, rfl⟩ := List.mem_map.mp hy
    have hsame : updateAt j.addr f w = w := by
      apply if_neg
      intro heq
      apply hne
      rw [updateAt, if_pos heq]
      exact (hf w).trans heq
    rw [hsame] at hne ⊢
    rcases mem_map_updateAt hw with rfl | hw
    · exact absurd haddr hne
    · exact hw

theorem finished_jobs {j j' n' : TaskStruct}
    (hruns : Runs j.core j'.core t.dispatched.chosen.board t.dispatched.picked.board)
    (hexecuted : t.executed.board = t.dispatched.picked.board.update j.addr (work cfg t.start.tick))
    (hreleases : Releases (work cfg t.start.tick j'.core) n' t.executed.board t.finished.board) :
    ∀ y ∈ t.finished.board.jobs, y = n' ∨
      y ∈ t.dispatched.chosen.board.jobs ∧ y.addr ≠ j.addr := by
  have hwork : ∀ x : TaskStruct, (work cfg t.start.tick x).addr = x.addr :=
    fun x => congrArg JobRef.addr (work_ref cfg t.start.tick x)
  intro y hy
  rcases List.mem_append.mp hy with hy | hy
  · rw [hreleases.ready, hexecuted] at hy
    simp only [Board.update, hruns.ready] at hy
    exact (mem_replaced hwork hruns.addr hy).imp_right
      (fun hw => ⟨List.mem_append_left _ hw.1, hw.2⟩)
  · rw [hreleases.blocked, hexecuted] at hy
    simp only [Board.update, hruns.blocked] at hy
    exact (mem_replaced hwork hruns.addr hy).imp_right
      (fun hw => ⟨List.mem_append_right _ hw.1, hw.2⟩)

theorem running_advances {j j' n' : TaskStruct} (hsel : Selects cfg t.deleted t.dispatched)
    (hjob : t.dispatched.job = some j) (hnext : t.dispatched.next = some j')
    (hexec : t.executing = some j.addr)
    (hruns : Runs j.core j'.core t.dispatched.chosen.board t.dispatched.picked.board)
    (hreleases : Releases (work cfg t.start.tick j'.core) n' t.executed.board t.finished.board) :
    Advances t.executing j.core n' := by
  have hn' : n'.ref = j.core.ref := by
    have href : n'.ref = (work cfg t.start.tick j'.core).ref :=
      (congrArg TaskStruct.ref hreleases.job :)
    have href' : j'.core.ref = j.core.ref := (congrArg TaskStruct.ref hruns.job :)
    exact href.trans ((work_ref cfg t.start.tick j'.core).trans href')
  have haddr : n'.addr = j.addr := (congrArg JobRef.addr hn' :)
  refine ⟨hn', ?_⟩
  rw [hexec, haddr, if_pos rfl]
  intro e' he'
  have hmem := hreleases.entries.subset he'
  rw [work_resources] at hmem
  exact forall₂_ticked_mem (hsel.ticked j hjob j' hnext) e' hmem

theorem clocks_finished (h : TickPhases cfg t) (hstart : WellFormed t.start.board)
    (hsel : Selects cfg t.deleted t.dispatched) : Finished t := by
  have hwf := h.wf_finished hstart
  cases h.ran with
  | idle _ hnext _ hpicked _ hfinished =>
    exact clocks_idle (by rw [hfinished, hpicked, hsel.board])
      (by rw [Tick.executing, hnext]; rfl)
  | running j j' n' hjob hnext hruns hexecuted hreleases =>
    have hexec : t.executing = some j.addr := by
      rw [Tick.executing, hnext]
      exact congrArg some hruns.addr
    have hadvance := running_advances hsel hjob hnext hexec hruns hreleases
    have haddr : n'.addr = j.addr := (congrArg JobRef.addr hadvance.1 :)
    have hready : n' ∈ t.finished.board.ready := by
      rw [hreleases.ready]
      exact List.mem_map.mpr ⟨_, hreleases.mem, if_pos rfl⟩
    refine ⟨?_, ?_, ?_⟩
    · have hfresh : t.executed.board.fresh = t.dispatched.picked.board.fresh := by
        rw [hexecuted]
        rfl
      rw [hreleases.fresh, hfresh, hruns.fresh, hsel.board]
    · intro y hy
      rw [← hsel.board]
      rcases finished_jobs hruns hexecuted hreleases y hy with rfl | ⟨hy, hne⟩
      · exact ⟨j.core, List.mem_append_left _ hruns.mem, hadvance⟩
      · refine ⟨y, hy, rfl, ?_⟩
        rw [hexec, if_neg (fun heq => hne (Option.some_inj.mp heq).symm)]
        exact fun e' he' => he'
    · intro a ha
      obtain rfl := Option.some_inj.mp (hexec.symm.trans ha)
      rw [← haddr]
      exact ⟨hwf.below _ (WellFormed.addr_mem (WellFormed.mem_ready hready)),
        fun y hy => hwf.blocked_ne hready hy⟩

theorem clocks_final (h : TickPhases cfg t) (hstart : WellFormed t.start.board)
    (hsel : Selects cfg t.deleted t.dispatched) :
    ∀ y ∈ t.final.board.jobs, ∃ x ∈ t.released.board.jobs,
      Clocked t.executing t.released.board.fresh x y := by
  have hfin := h.clocks_finished hstart hsel
  have hcopies := resuming_copies h.resumed
  have hfresh : t.finished.board.fresh = t.released.board.fresh := by
    rw [hfin.fresh, h.deleted.fresh, h.checked]
    rfl
  have hfollow : ∀ y ∈ t.finished.board.jobs, ∃ x ∈ t.released.board.jobs, Advances t.executing x y := by
    intro y hy
    obtain ⟨x, hx, href, hclocks⟩ := hfin.jobs y hy
    obtain ⟨w, hw, href', hsub⟩ := h.kept_deleted x hx
    refine ⟨w, hw, href.trans href', ?_⟩
    split
    · rename_i hexec
      rw [if_pos hexec] at hclocks
      intro e' he'
      obtain ⟨e, he, hticked⟩ := hclocks e' he'
      exact ⟨e, hsub e he, hticked⟩
    · rename_i hidle
      rw [if_neg hidle] at hclocks
      exact fun e' he' => hsub e' (hclocks e' he')
  have hstays : ∀ x y : TaskStruct, Advances t.executing x y →
      Clocked t.executing t.released.board.fresh x y := by
    intro x y hadv
    exact ⟨(congrArg JobRef.id hadv.1 :), Or.inl (congrArg JobRef.addr hadv.1), hadv.2⟩
  have hblocked : ∀ x ∈ t.finished.board.blocked, ∃ w ∈ t.released.board.jobs,
      x.ref = w.ref ∧ ∀ e ∈ x.resources, e ∈ w.resources := by
    intro x hx
    obtain ⟨w, hw, href, hclocks⟩ := hfollow x (List.mem_append_right _ hx)
    rw [if_neg (fun hexec => (hfin.executing _ hexec).2 x hx rfl)] at hclocks
    exact ⟨w, hw, href, hclocks⟩
  intro y hy
  rcases List.mem_append.mp hy with hy | hy
  · rcases hcopies.ready y hy with hy | ⟨x, hx, hid, hes, hge⟩
    · obtain ⟨w, hw, hadv⟩ := hfollow y (List.mem_append_left _ hy)
      exact ⟨w, hw, hstays w y hadv⟩
    · obtain ⟨w, hw, href, hsub⟩ := hblocked x hx
      have hidle : t.executing ≠ some y.addr :=
        fun hexec => absurd (hfin.executing _ hexec).1 (Nat.not_lt.mpr hge)
      have hid' : x.id = w.id := (congrArg JobRef.id href :)
      refine ⟨w, hw, hid.trans hid', Or.inr (hfresh ▸ hge), ?_⟩
      rw [if_neg hidle, hes]
      exact hsub
  · obtain ⟨x, hx, href, hes⟩ := hcopies.blocked y hy
    obtain ⟨w, hw, href', hsub⟩ := hblocked x hx
    have haddr : y.addr = x.addr := (congrArg JobRef.addr href :)
    have hidle : t.executing ≠ some y.addr := by
      rw [haddr]
      exact fun hexec => (hfin.executing _ hexec).2 x hx rfl
    apply Exists.intro w
    refine ⟨hw, hstays w y ⟨href.trans href', ?_⟩⟩
    rw [if_neg hidle, hes]
    exact hsub

end TickPhases

theorem mem_jobs_board {σ : Sim} {y : TaskStruct} (h : y ∈ σ.jobs) : y.core ∈ σ.board.jobs := by
  rcases List.mem_append.mp h with h | h
  · exact List.mem_append_left _ (List.mem_map_of_mem h)
  · exact List.mem_append_right _ (List.mem_map_of_mem h)

theorem mem_jobs_of_board {σ : Sim} {y : TaskStruct} (h : y ∈ σ.board.jobs) :
    ∃ x ∈ σ.jobs, x.core = y := by
  rcases List.mem_append.mp h with h | h
  · obtain ⟨x, hx, rfl⟩ := List.mem_map.mp h
    exact ⟨x, List.mem_append_left _ hx, rfl⟩
  · obtain ⟨x, hx, rfl⟩ := List.mem_map.mp h
    exact ⟨x, List.mem_append_right _ hx, rfl⟩

theorem tick_clocks_iff {cfg : Config} {σ : Sim} {t : Tick} (hsound : Sound σ)
    (hrecorded : Recorded σ.board) (htick : simTick cfg σ = some t) :
    ClocksFollowExecution cfg t ↔ Unobstructed cfg t := by
  obtain ⟨hstart, hphases⟩ := simTick_phases hsound htick
  rw [← hstart] at hsound hrecorded
  have hready := (hphases.wf_deleted hsound.board).ready
  have hnodes : ∀ x ∈ t.deleted.board.ready, (Nodes x.resources).Nodup := by
    intro x hx
    exact ((hrecorded.all_stems hphases.stems_deleted) x (WellFormed.mem_ready hx)).nodes
  constructor
  · intro hclocks x hx e he
    rw [Bool.eq_false_iff]
    intro hobs
    obtain ⟨a, ha, hblocked, hchanged⟩ := attempts_obstructed hready hnodes hx ⟨e, he, hobs⟩
    exact hchanged (hclocks.blocked a ha hblocked)
  · intro hfree
    have hdispatched : t.dispatched = dispatch cfg t.deleted := by
      obtain ⟨pending, _, rfl⟩ := Option.map_eq_some_iff.mp htick
      rfl
    have hsel := dispatch_unobstructed hready hnodes hfree
    rw [← hdispatched] at hsel
    refine ⟨?_, fun a ha hblocked => absurd hblocked (hsel.attempts a ha)⟩
    intro y hy
    obtain ⟨w, hw, hclocked⟩ := hphases.clocks_final hsound.board hsel y.core (mem_jobs_board hy)
    obtain ⟨x, hx, rfl⟩ := mem_jobs_of_board hw
    exact ⟨x, hx, hclocked⟩

theorem clocks_follow_execution_iff (cfg : Config) (rows : List TaskRow) (ts : List Tick) (σ : Sim)
    (hrun : Run cfg (initial rows) ts σ) :
    ∀ t ∈ ts, ClocksFollowExecution cfg t ↔ Unobstructed cfg t := by
  refine LabelledRun.Run.forall_label (I := fun σ => Sound σ ∧ Recorded σ.board)
    (G := fun _ => True) ⟨initial_sound rows, initial_recorded rows⟩ ?_ hrun (fun _ _ => trivial)
  intro σ t σ' hσ _ hstep
  exact ⟨⟨hstep.sound hσ.1, hstep.recorded hσ.1 hσ.2⟩, tick_clocks_iff hσ.1 hσ.2 hstep.2.1⟩

def heldResource : List TaskRow :=
  [⟨"L", 0, 20, 4, 20, [("R", 0, 3)]⟩, ⟨"H", 2, 20, 2, 5, [("R", 0, 1)]⟩]

theorem clocks_follow_execution_held :
    ∃ σ, Run (nokillDm 9) (initial heldResource) (ticksOf (nokillDm 9) heldResource 4) σ ∧
      ∀ t ∈ ticksOf (nokillDm 9) heldResource 4,
        ClocksFollowExecution (nokillDm 9) t ↔ Unobstructed (nokillDm 9) t := by
  obtain ⟨σ, hrun⟩ := ticksOf_run (nokillDm 9) heldResource 4 (by decide +kernel)
  exact ⟨σ, hrun, clocks_follow_execution_iff (nokillDm 9) heldResource _ σ hrun⟩

theorem heldResource_blocked_clock :
    ¬∀ (cfg : Config) (rows : List TaskRow) (ts : List Tick) (σ : Sim),
      (∀ row ∈ rows, (row.resources.map Prod.fst).Nodup) → Run cfg (initial rows) ts σ →
        ∀ t ∈ ts, ClocksFollowExecution cfg t := by
  intro h
  obtain ⟨σ, hrun⟩ := ticksOf_run (nokillDm 9) heldResource 4 (by decide +kernel)
  have hbad : ¬∀ t ∈ ticksOf (nokillDm 9) heldResource 4, ClocksFollowExecution (nokillDm 9) t := by
    decide +kernel
  exact hbad (h (nokillDm 9) heldResource _ σ (by decide) hrun)

end Simulator
