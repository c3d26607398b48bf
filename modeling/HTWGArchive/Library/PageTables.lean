import Mathlib.Logic.Function.Basic

namespace PageTables

-- What a page is for: the top of the tables of a process, one of their tables, or a page of data.
inductive Owner (Process Slot : Type*) where
  | directory (a : Process)
  | table (a : Process) (i : Slot)
  | data (a : Process) (i j : Slot)

def Owner.process {Process Slot : Type*} : Owner Process Slot → Process
  | directory a => a
  | table a _ => a
  | data a _ _ => a

structure Coding (Page Cell : Type*) where
  entry : Page → Cell
  target : Cell → Option Page
  blank : Cell
  target_entry : ∀ p, target (entry p) = some p
  target_blank : target blank = none

variable {Process Slot Page Cell : Type*}

-- The cell leads to the page that has this use, and is blank as long as there is none.
def Coding.Leads (c : Coding Page Cell) (owner : Page → Option (Owner Process Slot)) (cell : Cell)
    (use : Owner Process Slot) : Prop :=
  (cell = c.blank ∧ ∀ q, owner q ≠ some use) ∨
    ∃ p, cell = c.entry p ∧ ∀ q, owner q = some use ↔ q = p

structure Tables (c : Coding Page Cell) (root : Process → Option Page)
    (memory : Page → Slot → Cell) (owner : Page → Option (Owner Process Slot)) : Prop where
  root : ∀ a p, root a = some p ↔ owner p = some (.directory a)
  directory : ∀ {d a}, owner d = some (.directory a) →
    ∀ i, c.Leads owner (memory d i) (.table a i)
  table : ∀ {t a i}, owner t = some (.table a i) → ∀ j, c.Leads owner (memory t j) (.data a i j)
  rooted : ∀ {t a i}, owner t = some (.table a i) → ∃ d, owner d = some (.directory a)
  tabled : ∀ {p a i j}, owner p = some (.data a i j) → ∃ t, owner t = some (.table a i)

inductive Outcome (Page : Type*) where
  | directoryFault
  | tableFault
  | page (p : Page)

def walk (c : Coding Page Cell) (memory : Page → Slot → Cell) (d : Page) (i j : Slot) :
    Outcome Page :=
  match c.target (memory d i) with
  | none => .directoryFault
  | some t =>
    match c.target (memory t j) with
    | none => .tableFault
    | some p => .page p

variable {c : Coding Page Cell} {root root' : Process → Option Page}
  {memory memory' : Page → Slot → Cell} {owner owner' : Page → Option (Owner Process Slot)}
  {a b : Process} {d t p q : Page} {i j : Slot} {cell : Cell} {use : Owner Process Slot}

theorem Coding.Leads.of_owner (h : c.Leads owner cell use) (hp : owner p = some use) :
    cell = c.entry p ∧ ∀ q, owner q = some use ↔ q = p := by
  obtain ⟨-, hnone⟩ | ⟨q, hcell, hq⟩ := h
  · exact absurd hp (hnone p)
  · obtain rfl := (hq p).mp hp
    exact ⟨hcell, hq⟩

theorem Coding.Leads.of_none (h : c.Leads owner cell use) (hnone : ∀ q, owner q ≠ some use) :
    cell = c.blank := by
  obtain ⟨hcell, -⟩ | ⟨q, -, hq⟩ := h
  · exact hcell
  · exact absurd ((hq q).mpr rfl) (hnone q)

theorem Coding.Leads.of_target (h : c.Leads owner cell use) :
    (c.target cell = none ∧ cell = c.blank ∧ ∀ q, owner q ≠ some use) ∨
      ∃ p, c.target cell = some p ∧ owner p = some use := by
  obtain ⟨rfl, hnone⟩ | ⟨p, rfl, hp⟩ := h
  · exact Or.inl ⟨c.target_blank, rfl, hnone⟩
  · exact Or.inr ⟨p, c.target_entry p, (hp p).mpr rfl⟩

-- A page that is put to a use of its own leaves what leads to the other uses as it was.
theorem Coding.Leads.keep (h : c.Leads owner cell use)
    (hsame : ∀ q, owner' q = some use ↔ owner q = some use) : c.Leads owner' cell use := by
  obtain ⟨rfl, hnone⟩ | ⟨p, rfl, hp⟩ := h
  · exact Or.inl ⟨rfl, fun q hq => hnone q ((hsame q).mp hq)⟩
  · exact Or.inr ⟨p, rfl, fun q => (hsame q).trans (hp q)⟩

theorem Tables.walk_data (h : Tables c root memory owner) (hroot : root a = some d)
    (hp : owner p = some (.data a i j)) : walk c memory d i j = .page p := by
  obtain ⟨t, ht⟩ := h.tabled hp
  have hdir := h.directory ((h.root a d).mp hroot) i
  simp only [walk, (hdir.of_owner ht).1, c.target_entry, ((h.table ht j).of_owner hp).1]

theorem Tables.walk_table (h : Tables c root memory owner) (hroot : root a = some d)
    (ht : owner t = some (.table a i)) (hnone : ∀ p, owner p ≠ some (.data a i j)) :
    walk c memory d i j = .tableFault := by
  have hdir := h.directory ((h.root a d).mp hroot) i
  simp only [walk, (hdir.of_owner ht).1, c.target_entry, (h.table ht j).of_none hnone,
    c.target_blank]

theorem Tables.walk_none (h : Tables c root memory owner) (hroot : root a = some d)
    (hnone : ∀ t, owner t ≠ some (.table a i)) : walk c memory d i j = .directoryFault := by
  have hdir := h.directory ((h.root a d).mp hroot) i
  simp only [walk, hdir.of_none hnone, c.target_blank]

-- No two addresses share a page, be it in one process or in two.
theorem Tables.data_unique (h : Tables c root memory owner) (hp : owner p = some (.data a i j))
    (hq : owner q = some (.data a i j)) : q = p := by
  obtain ⟨t, ht⟩ := h.tabled hp
  exact (((h.table ht j).of_owner hp).2 q).mp hq

inductive Owner.Inner : Owner Process Slot → Prop where
  | directory (a : Process) : Inner (.directory a)
  | table (a : Process) (i : Slot) : Inner (.table a i)

-- The pages of the tables are only written where a step says so.
def Kept (owner : Page → Option (Owner Process Slot)) (memory memory' : Page → Slot → Cell)
    (written : Page → Slot → Prop) : Prop :=
  ∀ q use, owner q = some use → use.Inner → ∀ i, ¬ written q i → memory' q i = memory q i

def NoCell (_ : Page) (_ : Slot) : Prop :=
  False

def OneCell (t : Page) (j : Slot) (q : Page) (i : Slot) : Prop :=
  q = t ∧ i = j

theorem Tables.fill (h : Tables c root memory owner)
    (hkept : Kept owner memory memory' NoCell) : Tables c root memory' owner := by
  refine ⟨h.root, ?_, ?_, h.rooted, h.tabled⟩
  · intro d a hd i
    rw [hkept d _ hd (.directory a) i not_false]
    exact h.directory hd i
  · intro t a i ht j
    rw [hkept t _ ht (.table a i) j not_false]
    exact h.table ht j

variable [DecidableEq Page]

variable {use' : Owner Process Slot}

theorem update_owner_iff (hfree : owner p = none) (huse : use' ≠ use) :
    Function.update owner p (some use') q = some use ↔ owner q = some use := by
  rcases eq_or_ne q p with rfl | hne
  · rw [Function.update_self, hfree]
    simp [huse]
  · rw [Function.update_of_ne hne]

theorem update_owner_self (hnone : ∀ q, owner q ≠ some use) :
    Function.update owner p (some use) q = some use ↔ q = p := by
  rcases eq_or_ne q p with rfl | hne
  · simp
  · rw [Function.update_of_ne hne]
    simp [hnone q, hne]

theorem exists_update_owner (hfree : owner p = none) :
    (∃ q, Function.update owner p (some use') q = some use) ↔
      (∃ q, owner q = some use) ∨ use = use' := by
  constructor
  · rintro ⟨q, hq⟩
    rcases eq_or_ne q p with rfl | hne
    · rw [Function.update_self] at hq
      exact Or.inr (Option.some.inj hq).symm
    · rw [Function.update_of_ne hne] at hq
      exact Or.inl ⟨q, hq⟩
  · rintro (⟨q, hq⟩ | rfl)
    · refine ⟨q, ?_⟩
      rw [Function.update_of_ne (fun heq => by rw [heq, hfree] at hq; cases hq)]
      exact hq
    · exact ⟨p, Function.update_self _ _ _⟩

theorem of_update_owner (h : Function.update owner p (some use') q = some use) :
    (q = p ∧ use = use') ∨ owner q = some use := by
  rcases eq_or_ne q p with rfl | hne
  · rw [Function.update_self] at h
    exact Or.inl ⟨rfl, (Option.some.inj h).symm⟩
  · rw [Function.update_of_ne hne] at h
    exact Or.inr h

theorem Tables.newDirectory [DecidableEq Process] (h : Tables c root memory owner)
    (hroot : root a = none) (hfree : owner d = none) (hblank : ∀ i, memory' d i = c.blank)
    (hkept : Kept owner memory memory' NoCell) :
    Tables c (Function.update root a (some d)) memory'
      (Function.update owner d (some (.directory a))) := by
  have hnone : ∀ q, owner q ≠ some (.directory a) := by
    intro q hq
    rw [← h.root, hroot] at hq
    cases hq
  refine ⟨?_, ?_, ?_, ?_, ?_⟩
  · intro b p
    rcases eq_or_ne b a with rfl | hne
    · rw [Function.update_self, update_owner_self hnone]
      exact ⟨fun heq => (Option.some.inj heq).symm, fun heq => heq ▸ rfl⟩
    · rw [Function.update_of_ne hne, update_owner_iff hfree (by simp [hne.symm])]
      exact h.root b p
  · intro q b hq i
    obtain ⟨rfl, huse⟩ | hold := of_update_owner hq
    · obtain rfl := Owner.directory.inj huse
      refine Or.inl ⟨hblank i, fun t ht => ?_⟩
      obtain ⟨-, hbad⟩ | hold := of_update_owner ht
      · cases hbad
      · obtain ⟨d', hd'⟩ := h.rooted hold
        exact hnone d' hd'
    · rw [hkept q _ hold (.directory b) i not_false]
      exact (h.directory hold i).keep (fun _ => update_owner_iff hfree (by simp))
  · intro t b i ht j
    obtain ⟨-, hbad⟩ | hold := of_update_owner ht
    · cases hbad
    · rw [hkept t _ hold (.table b i) j not_false]
      exact (h.table hold j).keep (fun _ => update_owner_iff hfree (by simp))
  · intro t b i ht
    obtain ⟨-, hbad⟩ | hold := of_update_owner ht
    · cases hbad
    · obtain ⟨d', hd'⟩ := h.rooted hold
      refine ⟨d', ?_⟩
      rw [Function.update_of_ne (fun heq => by rw [heq, hfree] at hd'; cases hd')]
      exact hd'
  · intro p b i j hp
    obtain ⟨-, hbad⟩ | hold := of_update_owner hp
    · cases hbad
    · obtain ⟨t, ht⟩ := h.tabled hold
      exact ⟨t, (update_owner_iff hfree (by simp)).mpr ht⟩

theorem Tables.newTable (h : Tables c root memory owner) (hd : owner d = some (.directory a))
    (hnone : ∀ q, owner q ≠ some (.table a i)) (hfree : owner t = none)
    (hentry : memory' d i = c.entry t) (hblank : ∀ j, memory' t j = c.blank)
    (hkept : Kept owner memory memory' (OneCell d i)) :
    Tables c root memory' (Function.update owner t (some (.table a i))) := by
  refine ⟨?_, ?_, ?_, ?_, ?_⟩
  · intro b p
    rw [update_owner_iff hfree (by simp)]
    exact h.root b p
  · intro q b hq k
    have hold := (update_owner_iff hfree (by simp)).mp hq
    by_cases hcell : OneCell d i q k
    · obtain ⟨rfl, rfl⟩ := hcell
      obtain rfl := Owner.directory.inj (Option.some.inj (hold.symm.trans hd))
      exact Or.inr ⟨t, hentry, fun _ => update_owner_self hnone⟩
    · rw [hkept q _ hold (.directory b) k hcell]
      refine (h.directory hold k).keep (fun _ => update_owner_iff hfree ?_)
      rintro heq
      obtain ⟨rfl, rfl⟩ := Owner.table.inj heq
      have hroot := (h.root a d).mpr hd
      rw [(h.root a q).mpr hold] at hroot
      exact hcell ⟨Option.some.inj hroot, rfl⟩
  · intro q b k hq j
    obtain ⟨rfl, huse⟩ | hold := of_update_owner hq
    · obtain ⟨rfl, rfl⟩ := Owner.table.inj huse
      refine Or.inl ⟨hblank j, fun p hp => ?_⟩
      obtain ⟨t', ht'⟩ := h.tabled ((update_owner_iff hfree (by simp)).mp hp)
      exact hnone t' ht'
    · have hcell : ¬ OneCell d i q j := by
        rintro ⟨rfl, -⟩
        rw [hd] at hold
        cases hold
      rw [hkept q _ hold (.table b k) j hcell]
      exact (h.table hold j).keep (fun _ => update_owner_iff hfree (by simp))
  · intro q b k hq
    obtain ⟨rfl, huse⟩ | hold := of_update_owner hq
    · obtain ⟨rfl, rfl⟩ := Owner.table.inj huse
      exact ⟨d, (update_owner_iff hfree (by simp)).mpr hd⟩
    · obtain ⟨d', hd'⟩ := h.rooted hold
      exact ⟨d', (update_owner_iff hfree (by simp)).mpr hd'⟩
  · intro p b k j hp
    obtain ⟨t', ht'⟩ := h.tabled ((update_owner_iff hfree (by simp)).mp hp)
    refine ⟨t', ?_⟩
    rw [Function.update_of_ne (fun heq => by rw [heq, hfree] at ht'; cases ht')]
    exact ht'

theorem Tables.newData (h : Tables c root memory owner) (ht : owner t = some (.table a i))
    (hnone : ∀ q, owner q ≠ some (.data a i j)) (hfree : owner p = none)
    (hentry : memory' t j = c.entry p) (hkept : Kept owner memory memory' (OneCell t j)) :
    Tables c root memory' (Function.update owner p (some (.data a i j))) := by
  refine ⟨?_, ?_, ?_, ?_, ?_⟩
  · intro b q
    rw [update_owner_iff hfree (by simp)]
    exact h.root b q
  · intro q b hq k
    have hold := (update_owner_iff hfree (by simp)).mp hq
    have hcell : ¬ OneCell t j q k := by
      rintro ⟨rfl, -⟩
      rw [ht] at hold
      cases hold
    rw [hkept q _ hold (.directory b) k hcell]
    exact (h.directory hold k).keep (fun _ => update_owner_iff hfree (by simp))
  · intro q b k hq l
    have hold := (update_owner_iff hfree (by simp)).mp hq
    by_cases hcell : OneCell t j q l
    · obtain ⟨rfl, rfl⟩ := hcell
      obtain ⟨rfl, rfl⟩ := Owner.table.inj (Option.some.inj (hold.symm.trans ht))
      exact Or.inr ⟨p, hentry, fun _ => update_owner_self hnone⟩
    · rw [hkept q _ hold (.table b k) l hcell]
      refine (h.table hold l).keep (fun _ => update_owner_iff hfree ?_)
      intro heq
      obtain ⟨rfl, rfl, rfl⟩ := Owner.data.inj heq
      obtain ⟨d, hd⟩ := h.rooted ht
      have hsame := ((h.directory hd i).of_owner ht).2 q
      exact hcell ⟨hsame.mp hold, rfl⟩
  · intro q b k hq
    have hold := (update_owner_iff hfree (by simp)).mp hq
    obtain ⟨d, hd⟩ := h.rooted hold
    exact ⟨d, (update_owner_iff hfree (by simp)).mpr hd⟩
  · intro q b k l hq
    obtain ⟨rfl, huse⟩ | hold := of_update_owner hq
    · obtain ⟨rfl, rfl, rfl⟩ := Owner.data.inj huse
      exact ⟨t, (update_owner_iff hfree (by simp)).mpr ht⟩
    · obtain ⟨t', ht'⟩ := h.tabled hold
      exact ⟨t', (update_owner_iff hfree (by simp)).mpr ht'⟩

end PageTables
