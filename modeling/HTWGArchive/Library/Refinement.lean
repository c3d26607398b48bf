import Mathlib.Data.List.Basic
import Mathlib.Logic.Function.Basic

namespace Refinement

variable {S A O R : Type*}

def run (step : S → O → S × R) : S → List O → S × List R
  | s, [] => (s, [])
  | s, o :: os => ((run step (step s o).1 os).1, (step s o).2 :: (run step (step s o).1 os).2)

theorem run_append (step : S → O → S × R) (s : S) (xs ys : List O) :
    run step s (xs ++ ys) = ((run step (run step s xs).1 ys).1,
      (run step s xs).2 ++ (run step (run step s xs).1 ys).2) := by
  induction xs generalizing s with
  | nil => rfl
  | cons x xs ih => simp [run, ih]

theorem run_snoc (step : S → O → S × R) (s : S) (os : List O) (o : O) :
    (run step s (os ++ [o])).1 = (step (run step s os).1 o).1 := by
  simp [run_append, run]

structure Simulation (step : S → O → S × R) (abstractStep : A → O → A × R) where
  Inv : S → Prop
  abs : S → A
  preserves : ∀ s o, Inv s → Inv (step s o).1
  commutes : ∀ s o, Inv s → abs (step s o).1 = (abstractStep (abs s) o).1
  answers : ∀ s o, Inv s → (step s o).2 = (abstractStep (abs s) o).2

namespace Simulation

variable {step : S → O → S × R} {abstractStep : A → O → A × R}

theorem run_inv (sim : Simulation step abstractStep) {s : S} (h : sim.Inv s) (os : List O) :
    sim.Inv (run step s os).1 := by
  induction os generalizing s with
  | nil => exact h
  | cons o os ih => exact ih (sim.preserves s o h)

theorem run_answers (sim : Simulation step abstractStep) {s : S} (h : sim.Inv s) (os : List O) :
    (run step s os).2 = (run abstractStep (sim.abs s) os).2 := by
  induction os generalizing s with
  | nil => rfl
  | cons o os ih =>
    simp only [run]
    rw [ih (sim.preserves s o h), sim.commutes s o h, sim.answers s o h]

end Simulation

section Partial

variable {step : S → O → Option (S × R)} {abstractStep : A → O → A × R}

-- `none` is a step that ends in an exception.
def tryRun (step : S → O → Option (S × R)) : S → List O → Option (S × List R)
  | s, [] => some (s, [])
  | s, o :: os =>
    (step s o).bind fun x => (tryRun step x.1 os).map fun y => (y.1, x.2 :: y.2)

theorem tryRun_simulates {Rel : S → A → Prop}
    (hstep : ∀ s a o, Rel s a →
      ∃ s', step s o = some (s', (abstractStep a o).2) ∧ Rel s' (abstractStep a o).1)
    {s : S} {a : A} (h : Rel s a) (os : List O) :
    ∃ s', tryRun step s os = some (s', (run abstractStep a os).2) ∧
      Rel s' (run abstractStep a os).1 := by
  induction os generalizing s a with
  | nil => exact ⟨s, rfl, h⟩
  | cons o os ih =>
    obtain ⟨s₁, hs₁, hrel⟩ := hstep s a o h
    obtain ⟨s', hs', hrel'⟩ := ih hrel
    refine ⟨s', ?_, hrel'⟩
    simp only [tryRun, hs₁, Option.bind_some, hs', Option.map_some, run]

theorem tryRun_inv {Inv : S → Prop}
    (hstep : ∀ s o s' r, step s o = some (s', r) → Inv s → Inv s') {s s' : S} {os : List O}
    {rs : List R} (h : tryRun step s os = some (s', rs)) (hs : Inv s) : Inv s' := by
  induction os generalizing s rs with
  | nil =>
    obtain ⟨rfl, -⟩ := Prod.mk.inj (Option.some.inj h)
    exact hs
  | cons o os ih =>
    obtain ⟨x, hx, h⟩ := Option.bind_eq_some_iff.mp h
    obtain ⟨y, hy, hyd⟩ := Option.map_eq_some_iff.mp h
    obtain ⟨rfl, -⟩ := Prod.mk.inj hyd
    exact ih hy (hstep s o x.1 x.2 hx hs)

end Partial

section Folds

variable {T : Type*} {step : S → O → Option S} {abstractStep : T → O → Option T}

theorem foldlM_inv {Inv : S → Prop} (hstep : ∀ s o s', step s o = some s' → Inv s → Inv s')
    {s s' : S} {os : List O} (h : os.foldlM step s = some s') (hs : Inv s) : Inv s' := by
  induction os generalizing s with
  | nil =>
    obtain rfl : s = s' := Option.some.inj h
    exact hs
  | cons o os ih =>
    rw [List.foldlM_cons] at h
    obtain ⟨s₁, hs₁, h⟩ := Option.bind_eq_some_iff.mp h
    exact ih h (hstep s o s₁ hs₁ hs)

theorem rel_some {Rel : S → T → Prop} {x : Option S} {t : T} (h : Option.Rel Rel x (some t)) :
    ∃ s, x = some s ∧ Rel s t := by
  cases h with
  | some h => exact ⟨_, rfl, h⟩

theorem rel_bind {S' T' : Type*} {Rel : S → T → Prop} {Rel' : S' → T' → Prop} {x : Option S}
    {y : Option T} {f : S → Option S'} {g : T → Option T'} (h : Option.Rel Rel x y)
    (hfg : ∀ s t, Rel s t → Option.Rel Rel' (f s) (g t)) :
    Option.Rel Rel' (x.bind f) (y.bind g) := by
  cases h with
  | some h => exact hfg _ _ h
  | none => exact .none

theorem foldlM_rel {Rel : S → T → Prop}
    (hstep : ∀ s t o, Rel s t → Option.Rel Rel (step s o) (abstractStep t o)) {s : S} {t : T}
    (h : Rel s t) (os : List O) : Option.Rel Rel (os.foldlM step s) (os.foldlM abstractStep t) := by
  induction os generalizing s t with
  | nil => exact .some h
  | cons o os ih =>
    rw [List.foldlM_cons, List.foldlM_cons]
    exact rel_bind (hstep s t o h) fun s' t' h' => ih h'

end Folds

end Refinement

namespace FiniteMap

variable {K V : Type*} [DecidableEq K]

inductive Call (K V : Type*) where
  | insert (key : K) (value : V)
  | remove (key : K)
  | search (key : K)

def call (m : K → Option V) : Call K V → (K → Option V) × Option V
  | .insert k v => (Function.update m k (some v), m k)
  | .remove k => (Function.update m k none, m k)
  | .search k => (m, m k)

def answers (calls : List (Call K V)) : List (Option V) :=
  (Refinement.run call (fun _ => none) calls).2

end FiniteMap
