import HTWGArchive.Simulator.Dispatching

namespace Simulator

-- A section that is not over after an attempt was not over before it.
structure Later (e e' : LocalTaskResource) : Prop where
  node : e'.node = e.node
  name : e'.name = e.name
  tFor : e'.tFor = e.tFor
  unfinished : e'.tForElapsed < e'.tFor → e.tForElapsed < e.tFor

theorem Later.refl (e : LocalTaskResource) : Later e e :=
  ⟨rfl, rfl, rfl, fun h => h⟩

def Nodes (es : List LocalTaskResource) : List ℕ :=
  es.map LocalTaskResource.node

theorem map_update_node {f : LocalTaskResource → LocalTaskResource} {e : LocalTaskResource}
    {done rest : List LocalTaskResource} (hdone : e.node ∉ Nodes done)
    (hrest : e.node ∉ Nodes rest) :
    (done ++ e :: rest).map (fun x => if x.node = e.node then f x else x) =
      done ++ f e :: rest := by
  have hsame : ∀ xs : List LocalTaskResource, e.node ∉ Nodes xs →
      xs.map (fun x => if x.node = e.node then f x else x) = xs := by
    intro xs hxs
    rw [List.map_congr_left (g := fun x => x), List.map_id']
    intro x hx
    apply if_neg
    intro heq
    apply hxs
    rw [← heq]
    exact List.mem_map_of_mem hx
  rw [List.map_append, List.map_cons, hsame done hdone, hsame rest hrest, if_pos rfl]

def Progress (done : List LocalTaskResource) (e : LocalTaskResource)
    (rest : List LocalTaskResource) (t : TaskStruct) : Prop :=
  ∃ e', Later e e' ∧ t.resources = done ++ e' :: rest

theorem elapseFrom_progress {done rest : List LocalTaskResource} {e : LocalTaskResource}
    {t : TaskStruct} (ht : t.resources = done ++ e :: rest) (hdone : e.node ∉ Nodes done)
    (hrest : e.node ∉ Nodes rest) : Progress done e rest (elapseFrom e.node t) := by
  refine ⟨{ e with tFromElapsed := e.tFromElapsed + 1 }, ⟨rfl, rfl, rfl, fun h => h⟩, ?_⟩
  rw [elapseFrom, ht]
  exact map_update_node hdone hrest

theorem elapse_progress {done rest : List LocalTaskResource} {e : LocalTaskResource}
    {t : TaskStruct} (ht : t.resources = done ++ e :: rest) (hdone : e.node ∉ Nodes done)
    (hrest : e.node ∉ Nodes rest) (hin : e.tForElapsed < e.tFor) :
    Progress done e rest (elapseFor e.node (elapseFrom e.node t)) := by
  let e' : LocalTaskResource := { e with tFromElapsed := e.tFromElapsed + 1 }
  refine ⟨{ e' with tForElapsed := e'.tForElapsed + 1 }, ⟨rfl, rfl, rfl, fun _ => hin⟩, ?_⟩
  have hfrom : (elapseFrom e.node t).resources = done ++ e' :: rest := by
    rw [elapseFrom, ht]
    exact map_update_node hdone hrest
  rw [elapseFor, hfrom]
  exact map_update_node (e := e') hdone hrest

theorem inheritPriority_resources (cfg : Config) (σ : Sim) (t : TaskStruct) (owner : JobRef)
    (name : String) : (inheritPriority cfg σ t owner name).2.resources = t.resources :=
  (congrArg TaskStruct.resources (inheritPriority_core cfg σ t owner name) :)

theorem lockResource_progress (cfg : Config) {done rest : List LocalTaskResource}
    {e : LocalTaskResource} {st : Sim × TaskStruct} (ht : st.2.resources = done ++ e :: rest)
    (hdone : e.node ∉ Nodes done) (hrest : e.node ∉ Nodes rest) :
    Progress done e rest (lockResource cfg st e).2 := by
  have hfrom := elapseFrom_progress ht hdone hrest
  rw [lockResource]
  split
  · exact ⟨e, Later.refl e, ht⟩
  · split
    · exact hfrom
    · rename_i hsection
      have hin : e.tForElapsed < e.tFor := by
        have h := (Bool.or_eq_false_iff.mp (Bool.eq_false_iff.mpr hsection)).2
        simpa using h
      split
      · exact hfrom
      · split
        · exact hfrom
        · dsimp only
          split
          · obtain ⟨e', hlater, hes⟩ := hfrom
            refine ⟨e', hlater, ?_⟩
            rw [block]
            exact (inheritPriority_resources _ _ _ _ _).trans hes
          · exact elapse_progress ht hdone hrest hin

theorem foldl_lockResource_later (cfg : Config) {es done : List LocalTaskResource}
    {st : Sim × TaskStruct} (ht : st.2.resources = done ++ es)
    (hnodes : (Nodes (done ++ es)).Nodup) :
    ∃ es', (es.foldl (lockResource cfg) st).2.resources = done ++ es' ∧
      List.Forall₂ Later es es' := by
  induction es generalizing done st with
  | nil => exact ⟨[], ht, List.Forall₂.nil⟩
  | cons e es ih =>
    have hsplit : e.node ∉ Nodes done ∧ e.node ∉ Nodes es := by
      simp only [Nodes, List.map_append, List.map_cons] at hnodes ⊢
      have hmiddle := (List.nodup_middle.mp hnodes)
      have hfresh := (List.nodup_cons.mp hmiddle).1
      rw [List.mem_append, not_or] at hfresh
      exact hfresh
    obtain ⟨e', hlater, hstep⟩ := lockResource_progress cfg ht hsplit.1 hsplit.2
    have hnext : (lockResource cfg st e).2.resources = (done ++ [e']) ++ es := by
      rw [hstep]
      simp
    have hnodes' : (Nodes ((done ++ [e']) ++ es)).Nodup := by
      simpa [Nodes, hlater.node] using hnodes
    obtain ⟨es', hes, hrest⟩ := ih hnext hnodes'
    refine ⟨e' :: es', ?_, List.Forall₂.cons hlater hrest⟩
    rw [List.foldl_cons, hes]
    simp

theorem lockResources_later (cfg : Config) (σ : Sim) {t : TaskStruct}
    (hnodes : (Nodes t.resources).Nodup) :
    List.Forall₂ Later t.resources (lockResources cfg σ t).2.resources := by
  obtain ⟨es, hes, hlater⟩ :=
    foldl_lockResource_later cfg (show (σ, t).2.resources = [] ++ t.resources from rfl) hnodes
  rw [lockResources, hes]
  exact hlater

end Simulator
