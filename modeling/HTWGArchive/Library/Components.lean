import Mathlib.Data.Set.Card
import Mathlib.Logic.Relation
import Mathlib.SetTheory.Cardinal.Finite

namespace Components

variable {V : Type*} {ps qs : List (V × V)} {a b u v : V}

def Joined (ps : List (V × V)) : V → V → Prop :=
  Relation.EqvGen (fun a b => (a, b) ∈ ps)

theorem Joined.refl (ps : List (V × V)) (a : V) : Joined ps a a :=
  Relation.EqvGen.refl a

theorem Joined.symm (h : Joined ps a b) : Joined ps b a :=
  Relation.EqvGen.symm a b h

theorem Joined.trans (hab : Joined ps a b) (hbv : Joined ps b v) : Joined ps a v :=
  Relation.EqvGen.trans a b v hab hbv

theorem joined_of_mem (h : (a, b) ∈ ps) : Joined ps a b :=
  Relation.EqvGen.rel a b h

theorem Joined.lift (h : Joined ps a b) (hps : ∀ x y, (x, y) ∈ ps → Joined qs x y) :
    Joined qs a b := by
  induction h with
  | rel x y hxy => exact hps x y hxy
  | refl x => exact Joined.refl qs x
  | symm x y _ ih => exact ih.symm
  | trans x y z _ _ hxy hyz => exact hxy.trans hyz

theorem Joined.mono (h : Joined ps a b) (hsub : ps ⊆ qs) : Joined qs a b :=
  h.lift (fun _ _ hmem => joined_of_mem (hsub hmem))

theorem joined_nil : Joined [] a b ↔ a = b := by
  constructor
  · intro h
    induction h with
    | rel x y hxy => cases hxy
    | refl x => rfl
    | symm x y _ ih => exact ih.symm
    | trans x y z _ _ hxy hyz => exact hxy.trans hyz
  · rintro rfl
    exact Joined.refl [] a

theorem joined_cons : Joined ((u, v) :: ps) a b ↔ Joined ps a b ∨
    (Joined ps a u ∧ Joined ps v b) ∨ (Joined ps a v ∧ Joined ps u b) := by
  constructor
  · intro h
    induction h with
    | rel x y hxy =>
      rcases List.mem_cons.mp hxy with heq | hmem
      · obtain ⟨rfl, rfl⟩ := Prod.mk.inj heq
        exact Or.inr (Or.inl ⟨Joined.refl ps _, Joined.refl ps _⟩)
      · exact Or.inl (joined_of_mem hmem)
    | refl x => exact Or.inl (Joined.refl ps x)
    | symm x y _ ih =>
      rcases ih with h | ⟨hu, hv⟩ | ⟨hv, hu⟩
      · exact Or.inl h.symm
      · exact Or.inr (Or.inr ⟨hv.symm, hu.symm⟩)
      · exact Or.inr (Or.inl ⟨hu.symm, hv.symm⟩)
    | trans x y z _ _ hxy hyz =>
      rcases hxy with hxy | ⟨hxu, hvy⟩ | ⟨hxv, huy⟩
      · rcases hyz with hyz | ⟨hyu, hvz⟩ | ⟨hyv, huz⟩
        · exact Or.inl (hxy.trans hyz)
        · exact Or.inr (Or.inl ⟨hxy.trans hyu, hvz⟩)
        · exact Or.inr (Or.inr ⟨hxy.trans hyv, huz⟩)
      · rcases hyz with hyz | ⟨hyu, hvz⟩ | ⟨hyv, huz⟩
        · exact Or.inr (Or.inl ⟨hxu, hvy.trans hyz⟩)
        · exact Or.inr (Or.inl ⟨hxu, hvz⟩)
        · exact Or.inl (hxu.trans huz)
      · rcases hyz with hyz | ⟨hyu, hvz⟩ | ⟨hyv, huz⟩
        · exact Or.inr (Or.inr ⟨hxv, huy.trans hyz⟩)
        · exact Or.inl (hxv.trans hvz)
        · exact Or.inr (Or.inr ⟨hxv, huz⟩)
  · have hstep : Joined ((u, v) :: ps) u v := joined_of_mem (List.mem_cons_self ..)
    have hmono : ∀ {x y}, Joined ps x y → Joined ((u, v) :: ps) x y :=
      fun h => h.mono (List.subset_cons_self _ _)
    rintro (h | ⟨hu, hv⟩ | ⟨hv, hu⟩)
    · exact hmono h
    · exact ((hmono hu).trans hstep).trans (hmono hv)
    · exact ((hmono hv).trans hstep.symm).trans (hmono hu)

def components (ps : List (V × V)) : Setoid V :=
  Relation.EqvGen.setoid (fun a b => (a, b) ∈ ps)

noncomputable def classes (ps : List (V × V)) : ℕ :=
  Nat.card (Quotient (components ps))

theorem components_congr (h : ∀ a b, Joined ps a b ↔ Joined qs a b) :
    components ps = components qs :=
  Setoid.ext h

theorem classes_congr (h : ∀ a b, Joined ps a b ↔ Joined qs a b) : classes ps = classes qs := by
  rw [classes, components_congr h, classes]

theorem classes_perm (h : ps.Perm qs) : classes ps = classes qs :=
  classes_congr (fun _ _ => ⟨fun hj => hj.mono h.subset, fun hj => hj.mono h.symm.subset⟩)

theorem classes_nil : classes ([] : List (V × V)) = Nat.card V := by
  have hbot : components ([] : List (V × V)) = ⊥ := Setoid.ext (fun _ _ => joined_nil)
  rw [classes, hbot]
  exact Nat.card_congr (Equiv.ofBijective (Quotient.mk ⊥)
    ⟨fun _ _ h => Quotient.exact h, Quotient.mk_surjective⟩).symm

theorem classes_cons_of_joined (h : Joined ps u v) : classes ((u, v) :: ps) = classes ps := by
  refine classes_congr (fun a b => ⟨?_, fun hj => hj.mono (List.subset_cons_self _ _)⟩)
  rw [joined_cons]
  rintro (hj | ⟨hu, hv⟩ | ⟨hv, hu⟩)
  · exact hj
  · exact (hu.trans h).trans hv
  · exact (hv.trans h.symm).trans hu

-- The class of `v` is the one that disappears.
def merge (ps : List (V × V)) (u v : V) (q : {q : Quotient (components ps) // q ≠ ⟦v⟧}) :
    Quotient (components ((u, v) :: ps)) :=
  Quotient.map' id (fun _ _ h => Joined.mono h (List.subset_cons_self _ _)) q.1

theorem merge_bijective (h : ¬ Joined ps u v) : Function.Bijective (merge ps u v) := by
  constructor
  · rintro ⟨p, hp⟩ ⟨q, hq⟩ heq
    induction p using Quotient.inductionOn with
    | h a =>
      induction q using Quotient.inductionOn with
      | h b =>
        have hj : Joined ((u, v) :: ps) a b := Quotient.exact heq
        apply Subtype.ext
        apply Quotient.sound
        rcases joined_cons.mp hj with hab | ⟨-, hvb⟩ | ⟨hav, -⟩
        · exact hab
        · exact absurd (Quotient.sound hvb.symm) hq
        · exact absurd (Quotient.sound hav) hp
  · intro q
    induction q using Quotient.inductionOn with
    | h a =>
      by_cases hav : Joined ps a v
      · refine ⟨⟨⟦u⟧, fun heq => h (Quotient.exact heq)⟩, ?_⟩
        apply Quotient.sound
        exact joined_cons.mpr (Or.inr (Or.inl ⟨Joined.refl ps u, hav.symm⟩))
      · exact ⟨⟨⟦a⟧, fun heq => hav (Quotient.exact heq)⟩, rfl⟩

theorem classes_cons_of_not_joined [Finite V] (h : ¬ Joined ps u v) :
    classes ((u, v) :: ps) + 1 = classes ps := by
  classical
  have hcard := Nat.card_congr (Equiv.ofBijective _ (merge_bijective h))
  have hset : Nat.card {q : Quotient (components ps) // q ≠ ⟦v⟧} =
      Set.ncard ({⟦v⟧}ᶜ : Set (Quotient (components ps))) := rfl
  have hsum := Set.ncard_add_ncard_compl ({⟦v⟧} : Set (Quotient (components ps)))
  rw [Set.ncard_singleton, ← hset, hcard] at hsum
  rw [classes, classes, ← hsum, add_comm]

theorem classes_eq_one [Finite V] : classes ps = 1 ↔ Nonempty V ∧ ∀ a b, Joined ps a b := by
  rw [classes, Nat.card_eq_one_iff_unique]
  constructor
  · rintro ⟨hsub, ⟨q⟩⟩
    exact ⟨⟨q.out⟩, fun a b => Quotient.exact (hsub.elim ⟦a⟧ ⟦b⟧)⟩
  · rintro ⟨⟨a⟩, hall⟩
    refine ⟨⟨fun p q => ?_⟩, ⟨⟦a⟧⟩⟩
    induction p using Quotient.inductionOn with
    | h x =>
      induction q using Quotient.inductionOn with
      | h y => exact Quotient.sound (hall x y)

end Components
