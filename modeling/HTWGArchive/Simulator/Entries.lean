import HTWGArchive.Simulator.TickPhases

namespace Simulator

structure Listed (rows : List GlobalTaskResource) (t : TaskStruct) : Prop where
  nodes : (Nodes t.resources).Nodup
  names : ∀ e ∈ t.resources, e.name ∈ rows.map GlobalTaskResource.name

def Recorded (b : Board) : Prop :=
  ∀ x ∈ b.structs, Listed b.resources x

-- The entries of `t'` are some of those of `t`, or the same ones later.
def Continues (t t' : TaskStruct) : Prop :=
  t'.resources.Sublist t.resources ∨
    ((Nodes t.resources).Nodup → List.Forall₂ Later t.resources t'.resources)

theorem Continues.refl (t : TaskStruct) : Continues t t :=
  Or.inl (List.Sublist.refl _)

theorem continues_of_eq {t t' : TaskStruct} (h : t'.resources = t.resources) : Continues t t' :=
  Or.inl (by rw [h])

theorem later_nodes {es es' : List LocalTaskResource} (h : List.Forall₂ Later es es') :
    Nodes es' = Nodes es := by
  induction h with
  | nil => rfl
  | cons hlater _ ih =>
    simp only [Nodes, List.map_cons] at ih ⊢
    rw [hlater.node, ih]

theorem later_origin {es es' : List LocalTaskResource} (h : List.Forall₂ Later es es')
    {e' : LocalTaskResource} (he' : e' ∈ es') : ∃ e ∈ es, Later e e' := by
  induction h with
  | nil => exact absurd he' List.not_mem_nil
  | cons hlater _ ih =>
    rcases List.mem_cons.mp he' with rfl | he'
    · exact ⟨_, List.mem_cons_self, hlater⟩
    · obtain ⟨e, he, hlater'⟩ := ih he'
      exact ⟨e, List.mem_cons_of_mem _ he, hlater'⟩

theorem Listed.continues {rows : List GlobalTaskResource} {t t' : TaskStruct} (h : Listed rows t)
    (hcont : Continues t t') : Listed rows t' := by
  rcases hcont with hsub | hlater
  · exact ⟨h.nodes.sublist (hsub.map _), fun e he => h.names e (hsub.subset he)⟩
  · have hentries := hlater h.nodes
    refine ⟨by rw [later_nodes hentries]; exact h.nodes, ?_⟩
    intro e' he'
    obtain ⟨e, he, hname⟩ := later_origin hentries he'
    rw [hname.name]
    exact h.names e he

theorem mem_structs {b : Board} {x : TaskStruct} :
    x ∈ b.structs ↔ x ∈ b.tasks ∨ x ∈ b.ready ∨ x ∈ b.blocked := by
  rw [Board.structs, List.append_assoc, List.mem_append, List.mem_append]

theorem mem_map_updateAt {q : List TaskStruct} {a : ℕ} {t' x : TaskStruct}
    (h : x ∈ q.map (updateAt a (fun _ => t'))) : x = t' ∨ x ∈ q ∧ x.addr ≠ a := by
  obtain ⟨y, hy, rfl⟩ := List.mem_map.mp h
  rcases eq_or_ne y.addr a with heq | hne
  · exact Or.inl (by simp [updateAt, heq])
  · have hsame : updateAt a (fun _ => t') y = y := if_neg hne
    rw [hsame]
    exact Or.inr ⟨hy, hne⟩

theorem bump_resources (tick : UInt32) (t : TaskStruct) : (bump tick t).resources = t.resources := by
  rw [bump]
  split <;> rfl

theorem handleDeadline_resources (cfg : Config) (q : List TaskStruct) (t : TaskStruct) :
    (decrementDeadline (handleDeadline cfg q t)).resources = t.resources := by
  rw [decrementDeadline, handleDeadline]
  split <;> rfl

theorem work_resources (cfg : Config) (tick : UInt32) (t : TaskStruct) :
    (work cfg tick t).resources = t.resources := by
  rw [work, spendTick, removeTaskIfFinishedExecution]
  split <;> split <;> rfl

theorem markRemoved_resources (id : String × ℕ) (t : TaskStruct) :
    (markRemoved id t).resources = t.resources := by
  rw [markRemoved]
  split <;> rfl

-- Every struct stems from a struct of the same task.
structure Stems (b b' : Board) : Prop where
  rows : b'.resources.map GlobalTaskResource.name = b.resources.map GlobalTaskResource.name
  origin : ∀ x' ∈ b'.structs, ∃ x ∈ b.structs, x'.name = x.name ∧ Continues x x'

section Stems

variable {b b' : Board} {t t' : TaskStruct}

theorem release_stems (b : Board) (tick : UInt32) (fresh : ℕ) : Stems b (b.release tick fresh) := by
  refine ⟨rfl, ?_⟩
  intro x' hx'
  rcases mem_structs.mp hx' with hx | hx | hx
  · obtain ⟨x, hmem, rfl⟩ := List.mem_map.mp hx
    refine ⟨x, WellFormed.mem_tasks hmem, ?_, continues_of_eq (bump_resources tick x)⟩
    rw [bump]
    split <;> rfl
  · rcases List.mem_append.mp hx with hx | hx
    · exact ⟨x', WellFormed.mem_ready hx, rfl, Continues.refl x'⟩
    · obtain ⟨y, hy, hxy⟩ := mem_copyList hx
      obtain ⟨z, hz, rfl⟩ := List.mem_map.mp hy
      refine ⟨z, WellFormed.mem_tasks (List.mem_of_mem_filter hz), ?_, continues_of_eq ?_⟩
      · rw [hxy]
        rfl
      · rw [hxy]
        rfl
  · exact ⟨x', WellFormed.mem_blocked hx, rfl, Continues.refl x'⟩

theorem check_stems (cfg : Config) (b : Board) : Stems b (b.check cfg) := by
  refine ⟨rfl, ?_⟩
  intro x' hx'
  rcases mem_structs.mp hx' with hx | hx | hx
  · exact ⟨x', WellFormed.mem_tasks hx, rfl, Continues.refl x'⟩
  · obtain ⟨x, hmem, rfl⟩ := List.mem_map.mp hx
    exact ⟨x, WellFormed.mem_ready hmem, congrArg JobRef.name (handleDeadline_ref cfg b.ready x),
      continues_of_eq (handleDeadline_resources cfg b.ready x)⟩
  · obtain ⟨x, hmem, rfl⟩ := List.mem_map.mp hx
    exact ⟨x, WellFormed.mem_blocked hmem,
      congrArg JobRef.name (handleDeadline_ref cfg b.blocked x),
      continues_of_eq (handleDeadline_resources cfg b.blocked x)⟩

theorem Deleted.stems (hdel : Deleted b b') : Stems b b' := by
  refine ⟨hdel.rows.names, ?_⟩
  intro x' hx'
  rcases mem_structs.mp hx' with hx | hx | hx
  · exact ⟨x', WellFormed.mem_tasks (hdel.tasks.subset hx), rfl, Continues.refl x'⟩
  · obtain ⟨x, hx, hvis⟩ := hdel.ready.origin x' hx
    exact ⟨x, WellFormed.mem_ready hx, congrArg Prod.fst hvis.id, Or.inl hvis.entries⟩
  · obtain ⟨x, hx, hvis⟩ := hdel.blocked.origin x' hx
    exact ⟨x, WellFormed.mem_blocked hx, congrArg Prod.fst hvis.id, Or.inl hvis.entries⟩

theorem Waits.stems (hwaits : Waits t t' b b') : Stems b b' := by
  refine ⟨hwaits.rows.names, ?_⟩
  intro x' hx'
  rcases mem_structs.mp hx' with hx | hx | hx
  · rw [hwaits.tasks] at hx
    exact ⟨x', WellFormed.mem_tasks hx, rfl, Continues.refl x'⟩
  · rw [hwaits.ready] at hx
    exact ⟨x', WellFormed.mem_ready ((removeNodes_sublist _ _).subset hx), rfl, Continues.refl x'⟩
  · rw [hwaits.blocked] at hx
    rcases List.mem_append.mp hx with hx | hx
    · exact ⟨x', WellFormed.mem_blocked hx, rfl, Continues.refl x'⟩
    · rw [List.mem_singleton.mp hx]
      exact ⟨t, WellFormed.mem_ready hwaits.mem, (congrArg TaskStruct.name hwaits.job :),
        Or.inr hwaits.entries⟩

theorem waiting_stems (hrounds : Relation.ReflTransGen Waiting b b') :
    Relation.ReflTransGen Stems b b' := by
  induction hrounds with
  | refl => exact Relation.ReflTransGen.refl
  | tail _ hstep ih =>
    obtain ⟨t, t', hwaits⟩ := hstep
    exact ih.tail hwaits.stems

theorem replace_stems (ht : t ∈ b.ready) (hname : t'.name = t.name) (hcont : Continues t t')
    (hrows : b'.resources.map GlobalTaskResource.name = b.resources.map GlobalTaskResource.name)
    (htasks : b'.tasks = b.tasks)
    (hready : b'.ready = b.ready.map (updateAt t.addr (fun _ => t')))
    (hblocked : b'.blocked = b.blocked.map (updateAt t.addr (fun _ => t'))) : Stems b b' := by
  refine ⟨hrows, ?_⟩
  intro x' hx'
  rcases mem_structs.mp hx' with hx | hx | hx
  · rw [htasks] at hx
    exact ⟨x', WellFormed.mem_tasks hx, rfl, Continues.refl x'⟩
  · rw [hready] at hx
    rcases mem_map_updateAt hx with rfl | ⟨hx, _⟩
    · exact ⟨t, WellFormed.mem_ready ht, hname, hcont⟩
    · exact ⟨x', WellFormed.mem_ready hx, rfl, Continues.refl x'⟩
  · rw [hblocked] at hx
    rcases mem_map_updateAt hx with rfl | ⟨hx, _⟩
    · exact ⟨t, WellFormed.mem_ready ht, hname, hcont⟩
    · exact ⟨x', WellFormed.mem_blocked hx, rfl, Continues.refl x'⟩

theorem Runs.stems (hruns : Runs t t' b b') : Stems b b' := by
  have hname : t'.name = t.name := (congrArg TaskStruct.name hruns.job :)
  exact replace_stems hruns.mem hname (Or.inr hruns.entries) hruns.rows.names hruns.tasks
    hruns.ready hruns.blocked

theorem Releases.stems (hrel : Releases t t' b b') : Stems b b' := by
  have hname : t'.name = t.name := (congrArg TaskStruct.name hrel.job :)
  exact replace_stems hrel.mem hname (Or.inl hrel.entries) hrel.rows.names hrel.tasks hrel.ready
    hrel.blocked

theorem work_stems (cfg : Config) (tick : UInt32) (b : Board) (a : ℕ) :
    Stems b (b.update a (work cfg tick)) := by
  have hsame : ∀ x : TaskStruct, (updateAt a (work cfg tick) x).name = x.name ∧
      (updateAt a (work cfg tick) x).resources = x.resources := by
    intro x
    rw [updateAt]
    split
    · exact ⟨congrArg JobRef.name (work_ref cfg tick x), work_resources cfg tick x⟩
    · exact ⟨rfl, rfl⟩
  refine ⟨rfl, ?_⟩
  intro x' hx'
  rcases mem_structs.mp hx' with hx | hx | hx
  · exact ⟨x', WellFormed.mem_tasks hx, rfl, Continues.refl x'⟩
  · obtain ⟨x, hmem, rfl⟩ := List.mem_map.mp hx
    exact ⟨x, WellFormed.mem_ready hmem, (hsame x).1, continues_of_eq (hsame x).2⟩
  · obtain ⟨x, hmem, rfl⟩ := List.mem_map.mp hx
    exact ⟨x, WellFormed.mem_blocked hmem, (hsame x).1, continues_of_eq (hsame x).2⟩

theorem resume_stems (hp : t ∈ b.blocked) : Stems b (b.resume t) := by
  refine ⟨?_, ?_⟩
  · simp only [Board.resume, resetUsedByReferences, List.map_map]
    apply List.map_congr_left
    intro r _
    simp only [Function.comp_apply, resetRow]
    split <;> rfl
  · intro x' hx'
    rcases mem_structs.mp hx' with hx | hx | hx
    · exact ⟨x', WellFormed.mem_tasks hx, rfl, Continues.refl x'⟩
    · rcases List.mem_append.mp hx with hx | hx
      · exact ⟨x', WellFormed.mem_ready hx, rfl, Continues.refl x'⟩
      · rw [List.mem_singleton.mp hx]
        exact ⟨t, WellFormed.mem_blocked hp, rfl, continues_of_eq rfl⟩
    · obtain ⟨x, hmem, rfl⟩ := List.mem_map.mp hx
      refine ⟨x, WellFormed.mem_blocked hmem, ?_, continues_of_eq (markRemoved_resources t.id x)⟩
      rw [markRemoved]
      split <;> rfl

theorem resuming_stems {names : List String} (hres : Resuming names b b') :
    Relation.ReflTransGen Stems b b' := by
  induction hres with
  | nil _ => exact Relation.ReflTransGen.refl
  | skip _ ih => exact ih
  | cons hstep _ ih =>
    obtain ⟨picked, hp, _, rfl⟩ := hstep
    exact Relation.ReflTransGen.head (resume_stems hp) ih

theorem Recorded.stems (h : Recorded b) (hstems : Stems b b') : Recorded b' := by
  intro x' hx'
  obtain ⟨x, hx, _, hcont⟩ := hstems.origin x' hx'
  have hlisted := (h x hx).continues hcont
  exact ⟨hlisted.nodes, by rw [hstems.rows]; exact hlisted.names⟩

theorem Recorded.all_stems (h : Recorded b) (hstems : Relation.ReflTransGen Stems b b') :
    Recorded b' := by
  induction hstems with
  | refl => exact h
  | tail _ hstep ih => exact ih.stems hstep

end Stems

namespace TickPhases

variable {cfg : Config} {t : Tick}

theorem stems_deleted (h : TickPhases cfg t) :
    Relation.ReflTransGen Stems t.start.board t.deleted.board := by
  obtain ⟨fresh, _, hboard⟩ := h.released
  have hreleased := release_stems t.start.board t.start.tick fresh
  have hchecked := check_stems cfg t.released.board
  rw [← h.checked] at hchecked
  rw [← hboard] at hreleased
  exact ((Relation.ReflTransGen.single hreleased).tail hchecked).tail h.deleted.stems

theorem stems_chosen (h : TickPhases cfg t) :
    Relation.ReflTransGen Stems t.start.board t.dispatched.chosen.board :=
  h.stems_deleted.trans (waiting_stems h.rounds)

theorem stems_after (h : TickPhases cfg t) :
    Relation.ReflTransGen Stems t.deleted.board t.final.board := by
  have hfinished : Relation.ReflTransGen Stems t.dispatched.chosen.board t.finished.board := by
    cases h.ran with
    | idle _ _ _ hpicked _ hfinished => rw [hfinished, hpicked]
    | running j j' n' _ _ hruns hexecuted hreleases =>
      have hwork := work_stems cfg t.start.tick t.dispatched.picked.board j.addr
      rw [← hexecuted] at hwork
      exact ((Relation.ReflTransGen.single hruns.stems).tail hwork).tail hreleases.stems
  exact ((waiting_stems h.rounds).trans hfinished).trans (resuming_stems h.resumed)

theorem stems_final (h : TickPhases cfg t) :
    Relation.ReflTransGen Stems t.start.board t.final.board :=
  h.stems_deleted.trans h.stems_after

end TickPhases

theorem mem_foldl_addResource (xs names : List String) (name : String) :
    name ∈ xs.foldl addResource names ↔ name ∈ names ∨ name ∈ xs := by
  induction xs generalizing names with
  | nil => simp
  | cons x xs ih =>
    have hadd : name ∈ addResource names x ↔ name ∈ names ∨ name = x := by
      rw [addResource]
      split
      · rename_i hx
        refine ⟨Or.inl, ?_⟩
        rintro (h | rfl)
        · exact h
        · exact hx
      · simp
    rw [List.foldl_cons, ih, hadd, List.mem_cons, or_assoc]

theorem initial_rows (rows : List TaskRow) :
    (initial rows).board.resources.map GlobalTaskResource.name = resourceNames rows := by
  simp [Sim.board, initial, Function.comp_def]

theorem initial_recorded (rows : List TaskRow) : Recorded (initial rows).board := by
  intro x hx
  rcases mem_structs.mp hx with hx | hx | hx
  · obtain ⟨⟨row, i⟩, hrow, rfl⟩ := List.mem_map.mp hx
    refine ⟨?_, ?_⟩
    · have hnodes : Nodes (template row i).resources = row.resources.zipIdx.map Prod.snd := by
        simp only [Nodes, template, localResources, List.map_map]
        rfl
      rw [hnodes, List.zipIdx_map_snd]
      exact List.nodup_range'
    · intro e he
      obtain ⟨⟨entry, k⟩, hentry, rfl⟩ := List.mem_map.mp he
      rw [initial_rows, resourceNames, mem_foldl_addResource]
      right
      have hrow' : row ∈ rows := List.fst_mem_of_mem_zipIdx hrow
      have hentry' : entry ∈ row.resources := List.fst_mem_of_mem_zipIdx hentry
      exact List.mem_flatMap.mpr ⟨row, hrow', List.mem_map.mpr ⟨entry, hentry', rfl⟩⟩
  · exact absurd hx List.not_mem_nil
  · exact absurd hx List.not_mem_nil

theorem Step.recorded {cfg : Config} {σ σ' : Sim} {t : Tick} (hσ : Sound σ)
    (h : Recorded σ.board) (hstep : Step cfg σ t σ') : Recorded σ'.board := by
  obtain ⟨_, htick, rfl⟩ := hstep
  obtain ⟨rfl, hphases⟩ := simTick_phases hσ htick
  exact h.all_stems hphases.stems_final

end Simulator
