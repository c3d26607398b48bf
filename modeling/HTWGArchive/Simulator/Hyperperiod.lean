import HTWGArchive.Library.WrappedLcm
import Mathlib.Tactic

namespace Simulator

-- `none` is a division by zero; `fuel` bounds the rounds of the do-while loop.
def ggTLoop : ℕ → UInt32 → UInt32 → Option UInt32
  | 0, _, _ => none
  | fuel + 1, a, b =>
    if b = 0 then none
    else
      let c := a % b
      if c = 0 then some b else ggTLoop fuel b c

def ggT (a b : UInt32) : Option UInt32 :=
  ggTLoop (b.toNat + 1) a b

def kgVLoop : UInt32 → List UInt32 → Option UInt32
  | kgV, [] => some kgV
  | kgV, tPer :: rest =>
    match ggT kgV tPer with
    | none => none
    | some g => if g = 0 then none else kgVLoop (kgV * tPer / g) rest

-- The loop starts with the first period and visits it again.
def hyperperiod : List UInt32 → Option UInt32
  | [] => none
  | tPer :: rest => kgVLoop tPer (tPer :: rest)

-- The running least common multiple of the periods with products modulo `2 ^ 32`.
def wrappedLcm : List UInt32 → ℕ
  | [] => 0
  | tPer :: rest =>
    ((tPer :: rest).map UInt32.toNat).foldl (WrappedLcm.step (2 ^ 32)) tPer.toNat

def periodLcm (periods : List UInt32) : ℕ :=
  (periods.map UInt32.toNat).foldl Nat.lcm 1

def NoOverflow : List UInt32 → Prop
  | [] => True
  | tPer :: rest => WrappedLcm.Fits (2 ^ 32) tPer.toNat ((tPer :: rest).map UInt32.toNat)

instance : ∀ periods : List UInt32, Decidable (NoOverflow periods)
  | [] => isTrue trivial
  | tPer :: rest =>
    inferInstanceAs (Decidable (WrappedLcm.Fits (2 ^ 32) tPer.toNat
      ((tPer :: rest).map UInt32.toNat)))

theorem ggTLoop_eq {fuel : ℕ} {a b : UInt32} (hb : 0 < b.toNat) (hfuel : b.toNat < fuel) :
    ∃ g, ggTLoop fuel a b = some g ∧ g.toNat = Nat.gcd a.toNat b.toNat := by
  induction fuel generalizing a b with
  | zero => exact absurd hfuel (Nat.not_lt_zero _)
  | succ fuel ih =>
    have hne : b ≠ 0 := by
      rintro rfl
      exact absurd hb (Nat.lt_irrefl 0)
    rw [ggTLoop, if_neg hne]
    dsimp only
    have hrem : (a % b).toNat = a.toNat % b.toNat := UInt32.toNat_mod a b
    have hgcd : Nat.gcd b.toNat (a % b).toNat = Nat.gcd a.toNat b.toNat := by
      rw [hrem, Nat.gcd_comm b.toNat, ← Nat.gcd_rec, Nat.gcd_comm]
    split
    · rename_i hzero
      refine ⟨b, rfl, ?_⟩
      rw [← hgcd, hzero]
      exact (Nat.gcd_zero_right b.toNat).symm
    · rename_i hrest
      have hpos : 0 < (a % b).toNat := by
        apply Nat.pos_of_ne_zero
        exact fun hzero => hrest (UInt32.toNat_inj.mp hzero)
      have hlt : (a % b).toNat < b.toNat := by
        rw [hrem]
        exact Nat.mod_lt _ hb
      obtain ⟨g, hg, heq⟩ := ih (a := b) hpos (by omega)
      exact ⟨g, hg, heq.trans hgcd⟩

theorem ggT_eq {a b : UInt32} (hb : 1 ≤ b) :
    ∃ g, ggT a b = some g ∧ g.toNat = Nat.gcd a.toNat b.toNat ∧ g ≠ 0 := by
  have hpos : 0 < b.toNat := UInt32.le_iff_toNat_le.mp hb
  obtain ⟨g, hg, heq⟩ := ggTLoop_eq (a := a) hpos (Nat.lt_succ_self b.toNat)
  refine ⟨g, hg, heq, ?_⟩
  rintro rfl
  exact absurd heq.symm (Nat.gcd_pos_of_pos_right a.toNat hpos).ne'

theorem kgVLoop_eq (kgV : UInt32) {periods : List UInt32} (hpos : ∀ t ∈ periods, 1 ≤ t) :
    ∃ v, kgVLoop kgV periods = some v ∧
      v.toNat = (periods.map UInt32.toNat).foldl (WrappedLcm.step (2 ^ 32)) kgV.toNat := by
  induction periods generalizing kgV with
  | nil => exact ⟨kgV, rfl, rfl⟩
  | cons t periods ih =>
    obtain ⟨g, hg, heq, hne⟩ := ggT_eq (a := kgV) (hpos t List.mem_cons_self)
    obtain ⟨v, hv, hval⟩ := ih (kgV * t / g) (fun x hx => hpos x (List.mem_cons_of_mem t hx))
    refine ⟨v, ?_, ?_⟩
    · rw [kgVLoop, hg]
      dsimp only
      rw [if_neg hne]
      exact hv
    · rw [hval, List.map_cons, List.foldl_cons, UInt32.toNat_div, UInt32.toNat_mul, heq]
      rfl

theorem hyperperiod_eq {periods : List UInt32} (hne : periods ≠ []) (hpos : ∀ t ∈ periods, 1 ≤ t) :
    ∃ v, hyperperiod periods = some v ∧ v.toNat = wrappedLcm periods := by
  cases periods with
  | nil => exact absurd rfl hne
  | cons t rest => exact kgVLoop_eq t hpos

theorem periodLcm_cons (t : UInt32) (rest : List UInt32) :
    periodLcm (t :: rest) = ((t :: rest).map UInt32.toNat).foldl Nat.lcm t.toNat := by
  rw [periodLcm, List.map_cons, List.foldl_cons, List.foldl_cons, Nat.lcm_one_left, Nat.lcm_self]

def HyperperiodExact (periods : List UInt32) : Prop :=
  ∃ v, hyperperiod periods = some v ∧ v.toNat = periodLcm periods

theorem hyperperiodExact_iff {t : UInt32} {rest : List UInt32} (hpos : ∀ x ∈ t :: rest, 1 ≤ x) :
    HyperperiodExact (t :: rest) ↔
      ((t :: rest).map UInt32.toNat).foldl (WrappedLcm.step (2 ^ 32)) t.toNat =
        ((t :: rest).map UInt32.toNat).foldl Nat.lcm t.toNat := by
  obtain ⟨v, hv, hval⟩ := kgVLoop_eq t hpos
  rw [HyperperiodExact, periodLcm_cons, hyperperiod, ← hval]
  constructor
  · rintro ⟨u, hu, heq⟩
    obtain rfl := Option.some_inj.mp (hv.symm.trans hu)
    exact heq
  · exact fun heq => ⟨v, hv, heq⟩

theorem hyperperiod_last {front : List UInt32} {t : UInt32} (hpos : ∀ x ∈ front ++ [t], 1 ≤ x)
    (hfront : NoOverflow front) :
    HyperperiodExact (front ++ [t]) ↔ NoOverflow (front ++ [t]) := by
  cases front with
  | nil =>
    rw [List.nil_append] at hpos ⊢
    rw [hyperperiodExact_iff hpos]
    exact (WrappedLcm.step_eq_lcm_iff (Nat.two_pow_pos 32)).trans (and_iff_left trivial).symm
  | cons x front =>
    have hconcat := WrappedLcm.foldl_step_concat (Nat.two_pow_pos 32) (t := t.toNat) hfront
    rw [List.cons_append] at hpos ⊢
    rw [hyperperiodExact_iff hpos, NoOverflow, ← List.cons_append, List.map_append]
    exact hconcat

theorem hyperperiod_prefixes {periods : List UInt32} (hpos : ∀ t ∈ periods, 1 ≤ t) :
    NoOverflow periods ↔ ∀ pre, pre ≠ [] → pre <+: periods → HyperperiodExact pre := by
  constructor
  · rintro hfits pre hne ⟨post, rfl⟩
    cases pre with
    | nil => exact absurd rfl hne
    | cons x pre =>
      have hall : ∀ y ∈ x :: pre, 1 ≤ y := fun y hy => hpos y (List.mem_append_left _ hy)
      rw [hyperperiodExact_iff hall]
      rw [List.cons_append, NoOverflow, ← List.cons_append, List.map_append] at hfits
      exact WrappedLcm.foldl_step_of_fits (WrappedLcm.fits_append.mp hfits).1
  · induction periods using List.reverseRecOn with
    | nil => exact fun _ => trivial
    | append_singleton front t ih =>
      intro hexact
      have hfront : NoOverflow front :=
        ih (fun y hy => hpos y (List.mem_append_left _ hy))
          (fun pre hne hpre => hexact pre hne (hpre.trans (List.prefix_append front [t])))
      exact (hyperperiod_last hpos hfront).mp (hexact _ (by simp) List.prefix_rfl)

theorem hyperperiod_exact_iff (periods : List UInt32) (hne : periods ≠ [])
    (hpos : ∀ t ∈ periods, 1 ≤ t) :
    (∃ v, hyperperiod periods = some v) ∧
      (NoOverflow periods → HyperperiodExact periods) ∧
      (∀ front t, periods = front ++ [t] → NoOverflow front →
        (HyperperiodExact periods ↔ NoOverflow periods)) ∧
      ((∀ pre, pre ≠ [] → pre <+: periods → HyperperiodExact pre) ↔ NoOverflow periods) := by
  have hprefixes := hyperperiod_prefixes hpos
  refine ⟨?_, fun h => hprefixes.mp h periods hne List.prefix_rfl, ?_, hprefixes.symm⟩
  · obtain ⟨v, hv, _⟩ := hyperperiod_eq hne hpos
    exact ⟨v, hv⟩
  · rintro front t rfl hfront
    exact hyperperiod_last hpos hfront

theorem hyperperiod_exact_sample :
    (∃ v, hyperperiod [4, 6, 10] = some v) ∧
      (NoOverflow [4, 6, 10] → HyperperiodExact [4, 6, 10]) ∧
      (∀ front t, [4, 6, 10] = front ++ [t] → NoOverflow front →
        (HyperperiodExact [4, 6, 10] ↔ NoOverflow [4, 6, 10])) ∧
      ((∀ pre, pre ≠ [] → pre <+: [4, 6, 10] → HyperperiodExact pre) ↔ NoOverflow [4, 6, 10]) :=
  hyperperiod_exact_iff [4, 6, 10] (by decide) (by simp)

theorem square_overflows :
    ¬∀ periods : List UInt32, periods ≠ [] → (∀ t ∈ periods, 1 ≤ t) →
      periodLcm periods < 2 ^ 32 → HyperperiodExact periods := by
  intro h
  obtain ⟨v, hv, hval⟩ := h [65536] (by decide) (by simp) (by decide)
  have hzero : hyperperiod [65536] = some 0 := by decide +kernel
  obtain rfl := Option.some_inj.mp (hzero.symm.trans hv)
  exact absurd hval (by decide)

end Simulator
