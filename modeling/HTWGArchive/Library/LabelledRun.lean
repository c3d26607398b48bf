import Mathlib.Data.List.Basic

namespace LabelledRun

variable {S L : Type*}

-- Every label meets a condition that may look back at the labels before it.
def Along (good : List L → L → Prop) (ls : List L) : Prop :=
  ∀ i, ∀ h : i < ls.length, good (ls.take i) ls[i]

instance (good : List L → L → Prop) [∀ pre l, Decidable (good pre l)] (ls : List L) :
    Decidable (Along good ls) :=
  inferInstanceAs (Decidable (∀ i, ∀ h : i < ls.length, good (ls.take i) ls[i]))

theorem along_nil (good : List L → L → Prop) : Along good [] :=
  fun _ h => absurd h (Nat.not_lt_zero _)

theorem along_snoc {good : List L → L → Prop} {ls : List L} {l : L} :
    Along good (ls ++ [l]) ↔ Along good ls ∧ good ls l := by
  constructor
  · intro h
    refine ⟨?_, ?_⟩
    · intro i hi
      have hstep := h i (by simp; omega)
      rwa [List.take_append_of_le_length (Nat.le_of_lt hi), List.getElem_append_left hi] at hstep
    · have hstep := h ls.length (by simp)
      simpa using hstep
  · rintro ⟨hall, hlast⟩ i hi
    rcases Nat.lt_or_ge i ls.length with hlt | hge
    · rw [List.take_append_of_le_length (Nat.le_of_lt hlt), List.getElem_append_left hlt]
      exact hall i hlt
    · obtain rfl : i = ls.length := by
        simp only [List.length_append, List.length_singleton] at hi
        omega
      simpa using hlast

inductive Run (step : S → L → S → Prop) (s₀ : S) : List L → S → Prop where
  | nil : Run step s₀ [] s₀
  | snoc {ls : List L} {s s' : S} {l : L} :
      Run step s₀ ls s → step s l s' → Run step s₀ (ls ++ [l]) s'

namespace Run

variable {step : S → L → S → Prop} {s₀ s : S} {ls : List L}

theorem cons {l : L} {s₁ : S} (h : step s₀ l s₁) (hrun : Run step s₁ ls s) :
    Run step s₀ (l :: ls) s := by
  induction hrun with
  | nil => exact Run.snoc Run.nil h
  | snoc _ hs ih => exact Run.snoc ih hs

theorem of_foldlM {f : S → L → Option S} (hf : ∀ s l s', f s l = some s' → step s l s')
    (h : ls.foldlM f s₀ = some s) : Run step s₀ ls s := by
  induction ls generalizing s₀ with
  | nil =>
    obtain rfl := Option.some.inj h
    exact Run.nil
  | cons l ls ih =>
    rw [List.foldlM_cons, Option.bind_eq_bind, Option.bind_eq_some_iff] at h
    obtain ⟨s₁, hs₁, hrest⟩ := h
    exact (ih hrest).cons (hf s₀ l s₁ hs₁)

theorem eq_of_nil (hrun : Run step s₀ [] s) : s = s₀ := by
  generalize hls : ([] : List L) = ls at hrun
  cases hrun with
  | nil => rfl
  | snoc _ _ => exact absurd hls (by simp)

theorem uncons {l : L} (hrun : Run step s₀ (l :: ls) s) :
    ∃ s₁, step s₀ l s₁ ∧ Run step s₁ ls s := by
  generalize hls : l :: ls = full at hrun
  induction hrun generalizing ls with
  | nil => cases hls
  | @snoc pre s s' l' hrun hs ih =>
    cases pre with
    | nil =>
      obtain ⟨rfl, rfl⟩ := List.cons.inj hls
      rw [eq_of_nil hrun] at hs
      exact ⟨_, hs, Run.nil⟩
    | cons x pre =>
      obtain ⟨rfl, rfl⟩ := List.cons.inj hls
      obtain ⟨s₁, hfirst, hrest⟩ := ih rfl
      exact ⟨s₁, hfirst, Run.snoc hrest hs⟩

theorem history_along {I : List L → S → Prop} {G : List L → L → Prop} (hinit : I [] s₀)
    (hstep : ∀ ls s l s', Run step s₀ ls s → I ls s → G ls l → step s l s' → I (ls ++ [l]) s')
    (hrun : Run step s₀ ls s) (hgood : Along G ls) : I ls s := by
  induction hrun with
  | nil => exact hinit
  | snoc hrun hs ih =>
    rw [along_snoc] at hgood
    exact hstep _ _ _ _ hrun (ih hgood.1) hgood.2 hs

theorem history {I : List L → S → Prop} {G : L → Prop} (hinit : I [] s₀)
    (hstep : ∀ ls s l s', Run step s₀ ls s → I ls s → G l → step s l s' → I (ls ++ [l]) s')
    (hrun : Run step s₀ ls s) (hgood : ∀ l ∈ ls, G l) : I ls s :=
  history_along (G := fun _ l => G l) hinit hstep hrun
    (fun _ hi => hgood _ (List.getElem_mem hi))

theorem invariant {I : S → Prop} {G : L → Prop} (hinit : I s₀)
    (hstep : ∀ s l s', I s → G l → step s l s' → I s')
    (hrun : Run step s₀ ls s) (hgood : ∀ l ∈ ls, G l) : I s :=
  history (I := fun _ s => I s) hinit (fun _ s l s' _ => hstep s l s') hrun hgood

theorem forall_label {I : S → Prop} {G P : L → Prop} (hinit : I s₀)
    (hstep : ∀ s l s', I s → G l → step s l s' → I s' ∧ P l)
    (hrun : Run step s₀ ls s) (hgood : ∀ l ∈ ls, G l) : ∀ l ∈ ls, P l := by
  have h : I s ∧ ∀ l ∈ ls, P l := by
    refine history (I := fun ls s => I s ∧ ∀ l ∈ ls, P l) ⟨hinit, by simp⟩ ?_ hrun hgood
    intro ls s l s' _ hI hl hs
    have hnext := hstep s l s' hI.1 hl hs
    refine ⟨hnext.1, ?_⟩
    rw [List.forall_mem_append, List.forall_mem_singleton]
    exact ⟨hI.2, hnext.2⟩
  exact h.2

-- `J` always holds; `I` is kept by the steps that meet their condition and broken by the others.
theorem forall_label_iff {I J : S → Prop} {good P : L → Prop} (hinit : J s₀ ∧ I s₀)
    (hkeep : ∀ s l s', J s → step s l s' → J s')
    (hstep : ∀ s l s', J s → I s → step s l s' → (I s' ↔ good l))
    (hpost : ∀ s l s', step s l s' → (P l ↔ I s')) (hrun : Run step s₀ ls s) :
    (∀ l ∈ ls, P l) ↔ ∀ l ∈ ls, good l := by
  have h : J s ∧ ((∀ l ∈ ls, P l) ↔ ∀ l ∈ ls, good l) ∧ ((∀ l ∈ ls, good l) → I s) := by
    induction hrun with
    | nil => exact ⟨hinit.1, by simp, fun _ => hinit.2⟩
    | snoc hrun hs ih =>
      obtain ⟨hJ, hiff, hI⟩ := ih
      rw [List.forall_mem_append, List.forall_mem_append, List.forall_mem_singleton,
        List.forall_mem_singleton, hiff, hpost _ _ _ hs]
      refine ⟨hkeep _ _ _ hJ hs, and_congr_right ?_, ?_⟩
      · exact fun hgood => hstep _ _ _ hJ (hI hgood) hs
      · exact fun ⟨hgood, hlast⟩ => (hstep _ _ _ hJ (hI hgood) hs).mpr hlast
  exact h.2.1

end Run

end LabelledRun
