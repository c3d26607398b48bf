import HTWGArchive.Dictionary.HashBuckets

namespace HashDictionary

open BinaryTreeDictionary (Entry)
open JavaInt Key Slots

variable {K V : Type*}

theorem getprimeFrom_gt {fuel : ℕ} {i : Int} (h : (fuel : Int) = 2 ^ 31 - i) (hi : minValue ≤ i)
    (hfuel : 0 < fuel) :
    (i < getprimeFrom fuel i ∧ getprimeFrom fuel i ≤ maxValue) ∨ getprimeFrom fuel i < 0 := by
  induction fuel generalizing i with
  | zero => omega
  | succ fuel ih =>
    rw [getprimeFrom]
    by_cases hlast : i = maxValue
    · subst hlast
      right
      rw [if_pos (by decide)]
      decide
    · have hmax : i + 1 ≤ maxValue := by
        unfold maxValue at hlast ⊢
        omega
      have hint : int (i + 1) = i + 1 := int_eq (by omega) hmax
      rw [hint]
      split
      · exact Or.inl ⟨by omega, hmax⟩
      · have hrest := ih (i := i + 1) (by push_cast at h ⊢; omega) (by omega)
          (by unfold maxValue at hmax; push_cast at h; omega)
        omega

theorem getprime_gt {i : Int} (hlow : 0 ≤ i) (hhigh : i ≤ maxValue) :
    (i < getprime i ∧ getprime i ≤ maxValue) ∨ getprime i < 0 := by
  unfold maxValue at hhigh
  apply getprimeFrom_gt
  · omega
  · unfold minValue
    omega
  · omega

theorem enlarged_ge {load : Int} (hlow : 2 ≤ load) (hhigh : load ≤ maxValue) :
    load ≤ enlarged load ∧ enlarged load ≤ maxValue := by
  unfold enlarged
  omega

variable [Key K]

theorem exists_holds {es : List (Entry K V)} (h : (es.map name).Nodup) : ∃ m, Holds es m := by
  induction es with
  | nil => exact ⟨fun _ => none, ⟨List.nodup_nil, by simp⟩⟩
  | cons e es ih =>
    obtain ⟨hhead, htail⟩ := List.nodup_cons.mp h
    obtain ⟨m, hm⟩ := ih htail
    refine ⟨_, hm.cons (e := e) (hm.eq_none_iff.mpr ?_)⟩
    intro f hf heq
    exact hhead (heq ▸ List.mem_map_of_mem hf)

-- A backup under construction, and the entries it has been given.
structure Filled (b : Dictionary K V) (es : List (Entry K V)) : Prop where
  placed : Placed b
  perm : (entries b.dict).Perm es
  counted : b.size = es.length

theorem ensurecapacity_of_lt {d : Dictionary K V} (h : (d.size : Int) < d.load) (depth : ℕ) :
    ensurecapacity depth d = some d := by
  cases depth with
  | zero => exact if_neg (by omega)
  | succ depth => exact if_neg (by omega)

section Growth

variable [LawfulKey K] {b b' d : Dictionary K V} {es xs : List (Entry K V)}
  {m : List UInt16 → Option V}

theorem Filled.put {e : Entry K V} (h : Filled b es) (hnew : ((e :: es).map name).Nodup)
    {i : ℕ} (hk : genHash b.key b.dict.length e.key = some (i : Int)) (hi : i < b.dict.length) :
    ∃ b', put b e.key e.value = some (b', none) ∧ Filled b' (e :: es) ∧
      b'.key = b.key ∧ b'.load = b.load := by
  obtain ⟨hhead, htail⟩ := List.nodup_cons.mp hnew
  obtain ⟨m, hm⟩ := exists_holds htail
  have hnone : m (valueOf e.key) = none := by
    rw [hm.eq_none_iff]
    intro f hf heq
    exact hhead (List.mem_map.mpr ⟨f, hf, heq⟩)
  obtain ⟨dict, hput, hplaced, hperm⟩ :=
    h.placed.put_new (hm.perm h.perm.symm) hk hi hnone e.value
  exact ⟨_, hput, ⟨hplaced, hperm.trans (h.perm.cons e), by rw [List.length_cons, ← h.counted]⟩,
    rfl, rfl⟩

omit [LawfulKey K] in
theorem Filled.length (h : Filled b es) {n : ℕ} (hn : b.load = n) : b.dict.length = n := by
  have hlength := h.placed.length
  omega

theorem putAll_filled (depth : ℕ) {n : ℕ} (hn : b.load = n) (h : Filled b es)
    (hnodup : ((xs.reverse ++ es).map name).Nodup) (hroom : es.length + xs.length ≤ n)
    (hhash : ∀ e ∈ xs, ∃ i : ℕ, genHash b.key n e.key = some (i : Int) ∧ i < n) :
    ∃ b', putAll (ensurecapacity depth) b xs = some b' ∧ Filled b' (xs.reverse ++ es) ∧
      b'.key = b.key ∧ b'.load = n := by
  induction xs generalizing b es with
  | nil => exact ⟨b, rfl, h, rfl, hn⟩
  | cons x xs ih =>
    rw [List.reverse_cons, List.append_assoc, List.singleton_append] at hnodup ⊢
    rw [List.length_cons] at hroom
    obtain ⟨i, hi, hlt⟩ := hhash x (by simp)
    rw [← h.length hn] at hi hlt
    have hstep : ((x :: es).map name).Nodup := by
      rw [List.map_append] at hnodup
      exact hnodup.of_append_right
    obtain ⟨b₁, hput, hfilled, hkey, hload⟩ := h.put hstep hi hlt
    have hcap := ensurecapacity_of_lt (d := b) (by rw [hn, h.counted]; omega) depth
    obtain ⟨b', hall, hfilled', hkey', hload'⟩ := ih (hload.trans hn) hfilled hnodup
      (by rw [List.length_cons]; omega) (by rw [hkey]; exact fun e he => hhash e (by simp [he]))
    refine ⟨b', ?_, hfilled', hkey'.trans hkey, hload'⟩
    simp only [putAll, hcap, hput, Option.bind_eq_bind, Option.bind_some, hall]

theorem putAll_inBounds (depth : ℕ) {n : ℕ} (hn : b.load = n) (h : Filled b es)
    (hnodup : ((xs.reverse ++ es).map name).Nodup) (hroom : es.length + xs.length ≤ n)
    (hall : putAll (ensurecapacity depth) b xs = some b') :
    ∀ e ∈ xs, ∃ i : ℕ, genHash b.key n e.key = some (i : Int) ∧ i < n := by
  induction xs generalizing b es with
  | nil => simp
  | cons x xs ih =>
    rw [List.reverse_cons, List.append_assoc, List.singleton_append] at hnodup
    rw [List.length_cons] at hroom
    have hcap := ensurecapacity_of_lt (d := b) (by rw [hn, h.counted]; omega) depth
    simp only [putAll, hcap, Option.bind_eq_bind, Option.bind_some] at hall
    obtain ⟨y, hy, hrest⟩ := Option.bind_eq_some_iff.mp hall
    obtain ⟨i, hi, hlt⟩ := put_inBounds hy
    have hstep : ((x :: es).map name).Nodup := by
      rw [List.map_append] at hnodup
      exact hnodup.of_append_right
    obtain ⟨b₁, hput, hfilled, hkey, hload⟩ := h.put hstep hi hlt
    rw [hput] at hy
    obtain rfl := Option.some.inj hy
    have htail := ih (hload.trans hn) hfilled hnodup (by rw [List.length_cons]; omega) hrest
    rw [h.length hn] at hi hlt
    rw [hkey] at htail
    intro e he
    rcases List.mem_cons.mp he with rfl | he
    · exact ⟨i, hi, hlt⟩
    · exact htail e he

structure Sound (d : Dictionary K V) (m : List UInt16 → Option V) : Prop where
  placed : Placed d
  holds : Holds (entries d.dict) m
  hashable : ∀ e ∈ entries d.dict, Hashable d.key e.key
  counted : (entries d.dict).length ≤ d.size
  size_le : (d.size : Int) ≤ d.load
  load_le : d.load ≤ maxValue

-- What of `Sound` speaks about the table alone, for keys of any hash sum.
structure Shaped (d : Dictionary K V) : Prop where
  placed : Placed d
  distinct : ((entries d.dict).map name).Nodup
  counted : (entries d.dict).length ≤ d.size
  size_le : (d.size : Int) ≤ d.load
  load_le : d.load ≤ maxValue

omit [LawfulKey K] in
theorem Sound.shaped (h : Sound d m) : Shaped d :=
  ⟨h.placed, h.holds.distinct, h.counted, h.size_le, h.load_le⟩

def Answers (d : Dictionary K V) (m : List UInt16 → Option V) : Prop :=
  ∀ k, Hashable d.key k → search d k = some (m (valueOf k))

omit [LawfulKey K] in
theorem Sound.hash (h : Sound d m) {k : K} (hk : Hashable d.key k) :
    ∃ i : ℕ, genHash d.key d.dict.length k = some (i : Int) ∧ i < d.dict.length := by
  have hlength := h.placed.length
  have htwo := h.placed.two_le
  exact genHash_range hk (by omega)

theorem Sound.answers (h : Sound d m) : Answers d m := by
  intro k hk
  obtain ⟨i, hi, hlt⟩ := h.hash hk
  exact h.placed.search_eq h.holds hi hlt

-- Whenever the table is enlarged, every entry is visited, and is hashed alike by both multipliers.
def Retains (d : Dictionary K V) : Prop :=
  d.load ≤ d.size → 0 < getprime (enlarged d.load) ∧ ∀ e ∈ entries d.dict, e ∈ iterate d.dict ∧
    genHash 3 (getprime (enlarged d.load)).toNat e.key =
      genHash d.key (getprime (enlarged d.load)).toNat e.key

omit [LawfulKey K] in
theorem Shaped.getprime_gt (h : Shaped d) :
    (d.load < getprime (enlarged d.load) ∧ getprime (enlarged d.load) ≤ maxValue) ∨
      getprime (enlarged d.load) < 0 := by
  obtain ⟨hge, hmax⟩ := enlarged_ge h.placed.two_le h.load_le
  have htwo := h.placed.two_le
  rcases HashDictionary.getprime_gt (i := enlarged d.load) (by omega) hmax with hgt | hneg
  · exact Or.inl ⟨by omega, hgt.2⟩
  · exact Or.inr hneg

omit [LawfulKey K] in
theorem filled_create {n : ℕ} (hn : 2 ≤ n) (key : Int) :
    ∃ b : Dictionary K V, create key n = some b ∧ Filled b [] ∧ b.key = key ∧ b.load = n := by
  refine ⟨_, if_neg (by omega), ⟨⟨by simp, by simpa using hn, ?_⟩, ?_, rfl⟩, rfl, rfl⟩
  · intro i es hi
    simp only [List.getElem?_replicate] at hi
    split at hi <;> cases hi
  · have hnil : entries (List.replicate (n : Int).toNat (none : Option (List (Entry K V)))) = [] := by
      simp [entries]
    exact List.Perm.of_eq hnil

omit [LawfulKey K] in
theorem Shaped.iterate_nodup (h : Shaped d) :
    (((iterate d.dict).reverse ++ []).map name).Nodup := by
  rw [List.append_nil, List.map_reverse, List.nodup_reverse]
  exact ((iterate_sublist d.dict).map name).nodup h.distinct

omit [LawfulKey K] in
theorem Shaped.iterate_length (h : Shaped d) : (iterate d.dict).length ≤ d.size :=
  (iterate_sublist d.dict).length_le.trans h.counted

-- The backup has its own multiplier and holds what the iterator visits.
structure Backup (d b : Dictionary K V) (n : ℕ) : Prop where
  length : b.dict.length = n
  perm : (entries b.dict).Perm (iterate d.dict)
  hashed : ∀ (i : ℕ) (es : List (Entry K V)), b.dict[i]? = some (some es) →
    ∀ e ∈ es, genHash 3 n e.key = some (i : Int)

theorem Shaped.backup (h : Shaped d) (depth : ℕ) {n : ℕ} (hn : d.load < n) :
    ∃ c, create 3 n = some c ∧
      (∀ b, putAll (ensurecapacity depth) c (iterate d.dict) = some b → Backup d b n) ∧
      ((∀ e ∈ iterate d.dict, ∃ i : ℕ, genHash 3 n e.key = some (i : Int) ∧ i < n) →
        ∃ b, putAll (ensurecapacity depth) c (iterate d.dict) = some b) := by
  have htwo := h.placed.two_le
  have hlen := h.iterate_length
  have hsize := h.size_le
  obtain ⟨c, hcreate, hfilled, hkey, hload⟩ := filled_create (K := K) (V := V) (n := n) (by omega) 3
  refine ⟨c, hcreate, ?_, ?_⟩
  · intro b hput
    have hhash := putAll_inBounds depth hload hfilled h.iterate_nodup (by simp; omega) hput
    obtain ⟨b', hput', hfilled', hkey', hload'⟩ :=
      putAll_filled depth hload hfilled h.iterate_nodup (by simp; omega) hhash
    obtain rfl := Option.some.inj (hput'.symm.trans hput)
    have hlength : b'.dict.length = n := hfilled'.length hload'
    rw [List.append_nil] at hfilled'
    refine ⟨hlength, hfilled'.perm.trans (List.reverse_perm _), ?_⟩
    intro i es hi e he
    have hplaced := hfilled'.placed.hashed i es hi e he
    rwa [hkey', hkey, hlength] at hplaced
  · intro hhash
    obtain ⟨b, hput, -⟩ := putAll_filled depth hload hfilled h.iterate_nodup (by simp; omega)
      (by rw [hkey]; exact hhash)
    exact ⟨b, hput⟩

omit [LawfulKey K] in
theorem Backup.entries_perm {n : ℕ} (hb : Backup d b n) (hn : ((entries d.dict).map name).Nodup)
    (hall : ∀ e ∈ entries d.dict, e ∈ iterate d.dict) :
    (entries b.dict).Perm (entries d.dict) := by
  refine hb.perm.trans ((List.perm_ext_iff_of_nodup ?_ ?_).mpr ?_)
  · exact (iterate_sublist d.dict).nodup (hn.of_map name)
  · exact hn.of_map name
  · exact fun e => ⟨fun he => (iterate_sublist d.dict).subset he, hall e⟩

omit [LawfulKey K] in
theorem Backup.placed {n : ℕ} (hb : Backup d b n) (htwo : 2 ≤ (n : Int))
    (hall : ∀ e ∈ entries d.dict, genHash 3 n e.key = genHash d.key n e.key) :
    Placed { d with load := n, dict := b.dict } where
  length := congrArg _ hb.length
  two_le := htwo
  hashed i es hi e he := by
    have hmem : e ∈ iterate d.dict := hb.perm.mem_iff.mp (mem_entries.mpr ⟨i, es, hi, he⟩)
    simp only [hb.length]
    rw [← hall e ((iterate_sublist d.dict).subset hmem)]
    exact hb.hashed i es hi e he

theorem Sound.ensurecapacity (h : Sound d m) (depth : ℕ) (hkeep : Retains d) :
    ∃ d', ensurecapacity (depth + 1) d = some d' ∧ Sound d' m ∧ (d'.size : Int) < d'.load ∧
      d'.key = d.key := by
  rcases lt_or_ge (d.size : Int) d.load with hlt | hge
  · exact ⟨d, ensurecapacity_of_lt hlt _, h, hlt, rfl⟩
  obtain ⟨hpos, hall⟩ := hkeep hge
  have hprime := h.shaped.getprime_gt
  have htwo := h.placed.two_le
  obtain ⟨n, hn⟩ := Int.eq_ofNat_of_zero_le hpos.le
  rw [hn] at hprime hall
  rw [Int.toNat_natCast] at hall
  obtain ⟨hgt, hmax⟩ : d.load < n ∧ (n : Int) ≤ maxValue := by omega
  obtain ⟨c, hcreate, hbackup, hfill⟩ := h.shaped.backup depth hgt
  obtain ⟨b, hput⟩ := hfill fun e he => by
    have hmem := (iterate_sublist d.dict).subset he
    rw [(hall e hmem).2]
    exact genHash_range (h.hashable e hmem) (by omega)
  have hb := hbackup b hput
  have hperm := hb.entries_perm h.holds.distinct fun e he => (hall e he).1
  refine ⟨{ d with load := n, dict := b.dict }, ?_,
    ⟨hb.placed (htwo.trans hgt.le) fun e he => (hall e he).2, ?_, ?_, ?_, ?_, ?_⟩, ?_, rfl⟩
  · simp only [HashDictionary.ensurecapacity, if_pos hge, hn, hcreate, hput, Option.bind_eq_bind,
      Option.bind_some]
    rfl
  · exact h.holds.perm hperm.symm
  · intro e he
    exact h.hashable e (hperm.mem_iff.mp he)
  · exact hperm.length_eq.le.trans h.counted
  · exact h.size_le.trans hgt.le
  · exact hmax
  · exact lt_of_le_of_lt h.size_le hgt

theorem Backup.alike {n : ℕ} (hb : Backup d b n) (hn : ((entries d.dict).map name).Nodup)
    {e : Entry K V} (he : e ∈ entries d.dict) {v : V}
    (hfound : search { d with load := n, dict := b.dict } e.key = some (some v)) :
    e ∈ iterate d.dict ∧ genHash 3 n e.key = genHash d.key n e.key := by
  unfold search at hfound
  simp only [hb.length] at hfound
  cases hi : genHash d.key n e.key with
  | none => simp [hi] at hfound
  | some i =>
    cases hs : slot b.dict i with
    | none => simp [hi, hs] at hfound
    | some bucket =>
      cases bucket with
      | none => simp [hi, hs] at hfound
      | some es =>
        simp only [hi, hs, Option.some.injEq] at hfound
        obtain ⟨as, f, bs, rfl, hfk, -, -⟩ := find_eq_some hfound
        obtain ⟨j, rfl, hj⟩ := slot_eq_some hs
        have hname : name f = name e := (LawfulKey.equals_iff _ _).mp hfk
        have hiter : f ∈ iterate d.dict :=
          hb.perm.mem_iff.mp (mem_entries.mpr ⟨j, _, hj, by simp⟩)
        obtain rfl : f = e := List.inj_on_of_nodup_map hn
          ((iterate_sublist d.dict).subset hiter) he hname
        exact ⟨hiter, hb.hashed j _ hj f (by simp)⟩

theorem Shaped.enlarge (h : Shaped d) {depth : ℕ} {d' : Dictionary K V} (hge : d.load ≤ d.size)
    (hgrow : HashDictionary.ensurecapacity (depth + 1) d = some d') :
    ∃ (n : ℕ) (b : Dictionary K V), getprime (enlarged d.load) = n ∧ d.load < n ∧
      (n : Int) ≤ maxValue ∧ Backup d b n ∧ d' = { d with load := n, dict := b.dict } := by
  have hprime := h.getprime_gt
  simp only [HashDictionary.ensurecapacity, if_pos hge, Option.bind_eq_bind] at hgrow
  generalize getprime (enlarged d.load) = load at hgrow hprime ⊢
  obtain ⟨c, hcreate, hfill⟩ := Option.bind_eq_some_iff.mp hgrow
  obtain ⟨b, hput, hend⟩ := Option.bind_eq_some_iff.mp hfill
  have hpos : 0 ≤ load := by
    unfold create at hcreate
    split at hcreate
    · cases hcreate
    · omega
  obtain ⟨n, rfl⟩ := Int.eq_ofNat_of_zero_le hpos
  obtain ⟨hgt, hmax⟩ : d.load < n ∧ (n : Int) ≤ maxValue := by omega
  obtain ⟨c', hcreate', hbackup, -⟩ := h.backup depth hgt
  obtain rfl := Option.some.inj (hcreate'.symm.trans hcreate)
  exact ⟨n, b, rfl, hgt, hmax, hbackup b hput, (Option.some.inj hend).symm⟩

theorem Sound.retains (h : Sound d m) {depth : ℕ} {d' : Dictionary K V}
    (hgrow : HashDictionary.ensurecapacity (depth + 1) d = some d') (hans : Answers d' m) :
    Retains d := by
  intro hge
  have htwo := h.placed.two_le
  obtain ⟨n, b, hn, hgt, -, hb, rfl⟩ := h.shaped.enlarge hge hgrow
  rw [hn, Int.toNat_natCast]
  refine ⟨by omega, fun e he => ?_⟩
  have hfound := hans e.key (h.hashable e he)
  have hvalue : m (valueOf e.key) = some e.value := h.holds.value he
  rw [hvalue] at hfound
  exact hb.alike h.holds.distinct he hfound

theorem Sound.put (h : Sound d m) (hroom : (d.size : Int) < d.load) {k : K}
    (hk : Hashable d.key k) (v : V) :
    ∃ d', put d k v = some (d', m (valueOf k)) ∧
      Sound d' (Function.update m (valueOf k) (some v)) ∧ d'.key = d.key := by
  obtain ⟨i, hi, hlt⟩ := h.hash hk
  have hnames : ∀ {dict : List (Option (List (Entry K V)))},
      Holds (entries dict) (Function.update m (valueOf k) (some v)) →
      ∀ e ∈ entries dict, Hashable d.key e.key := by
    intro dict hholds e he
    by_cases hname : name e = valueOf k
    · have hsame : valueOf e.key = valueOf k := hname
      rw [Hashable, hsame]
      exact hk
    · have hvalue := hholds.value he
      rw [Function.update_of_ne hname] at hvalue
      obtain ⟨f, hf, hfname, -⟩ := (h.holds.value_iff _ _).mp hvalue
      have hsame : valueOf f.key = valueOf e.key := hfname
      rw [Hashable, ← hsame]
      exact h.hashable f hf
  cases hold : m (valueOf k) with
  | none =>
    obtain ⟨dict, hput, hplaced, hperm⟩ := h.placed.put_new h.holds hi hlt hold v
    have hholds : Holds (entries dict) (Function.update m (valueOf k) (some v)) :=
      (h.holds.cons (e := ⟨k, v⟩) hold).perm hperm.symm
    refine ⟨_, hput, ⟨hplaced, hholds, hnames hholds, ?_, ?_, h.load_le⟩, rfl⟩
    · rw [hperm.length_eq]
      exact Nat.succ_le_succ h.counted
    · push_cast
      omega
  | some old =>
    obtain ⟨dict, hput, hplaced, hlength, hholds⟩ := h.placed.put_old h.holds hi hlt hold v
    exact ⟨_, hput, ⟨hplaced, hholds, hnames hholds, hlength.le.trans h.counted, h.size_le,
      h.load_le⟩, rfl⟩

theorem Sound.insert (h : Sound d m) (depth : ℕ) (hkeep : Retains d) {k : K}
    (hk : Hashable d.key k) (v : V) :
    ∃ d', insert (depth + 1) d k v = some (d', m (valueOf k)) ∧
      Sound d' (Function.update m (valueOf k) (some v)) ∧ d'.key = d.key := by
  obtain ⟨d₁, hgrow, hsound, hroom, hkey⟩ := h.ensurecapacity depth hkeep
  obtain ⟨d', hput, hsound', hkey'⟩ := hsound.put hroom (hkey ▸ hk) v
  refine ⟨d', ?_, hsound', hkey'.trans hkey⟩
  simp only [HashDictionary.insert, hgrow, hput, Option.bind_eq_bind, Option.bind_some]

theorem Sound.remove (h : Sound d m) {k : K} (hk : Hashable d.key k)
    (hold : m (valueOf k) ≠ none) :
    ∃ d', remove d k = some (d', m (valueOf k)) ∧
      Sound d' (Function.update m (valueOf k) none) ∧ d'.key = d.key := by
  obtain ⟨i, hi, hlt⟩ := h.hash hk
  obtain ⟨old, hold⟩ := Option.ne_none_iff_exists'.mp hold
  obtain ⟨dict, hremove, hplaced, hlength, hholds⟩ := h.placed.remove_old h.holds hi hlt hold
  rw [hold]
  refine ⟨_, hremove, ⟨hplaced, hholds, ?_, hlength.trans h.counted, h.size_le, h.load_le⟩, rfl⟩
  intro e he
  have hne : name e ≠ valueOf k := by
    intro heq
    have hvalue := hholds.value he
    rw [heq, Function.update_self] at hvalue
    cases hvalue
  have hvalue := hholds.value he
  rw [Function.update_of_ne hne] at hvalue
  obtain ⟨f, hf, hfname, -⟩ := (h.holds.value_iff _ _).mp hvalue
  have hsame : valueOf f.key = valueOf e.key := hfname
  rw [Hashable, ← hsame]
  exact h.hashable f hf

end Growth

section Runs

def keyOf : FiniteMap.Call K V → K
  | .insert k _ => k
  | .remove k => k
  | .search k => k

-- The map is keyed by the names, which stand for the keys up to `equals`.
def named : FiniteMap.Call K V → FiniteMap.Call (List UInt16) V
  | .insert k v => .insert (valueOf k) v
  | .remove k => .remove (valueOf k)
  | .search k => .search (valueOf k)

def RemovesPresent : (List UInt16 → Option V) → List (FiniteMap.Call K V) → Prop
  | _, [] => True
  | m, c :: cs => (∀ k, c = .remove k → m (valueOf k) ≠ none) ∧
    RemovesPresent (FiniteMap.call m (named c)).1 cs

-- Every call returns what the map returns, and all keys are answered as in the map between the
-- calls and after every enlargement.
def Keeps (depth : ℕ) : Dictionary K V → (List UInt16 → Option V) →
    List (FiniteMap.Call K V) → Prop
  | d, m, [] => Answers d m
  | d, m, c :: cs => Answers d m ∧
    (∀ k v, c = .insert k v → ∃ d₁, ensurecapacity depth d = some d₁ ∧ Answers d₁ m) ∧
    ∃ d', call depth d c = some (d', (FiniteMap.call m (named c)).2) ∧
      Keeps depth d' (FiniteMap.call m (named c)).1 cs

def EnlargesWell (depth : ℕ) : Dictionary K V → List (FiniteMap.Call K V) → Prop
  | _, [] => True
  | d, c :: cs => (∀ k v, c = .insert k v → Retains d) ∧
    ∀ d' r, call depth d c = some (d', r) → EnlargesWell depth d' cs

variable [LawfulKey K] {d : Dictionary K V} {m : List UInt16 → Option V}

theorem Sound.called (h : Sound d m) (depth : ℕ) {c : FiniteMap.Call K V}
    (hk : Hashable d.key (keyOf c)) (hremove : ∀ k, c = .remove k → m (valueOf k) ≠ none)
    (hkeep : ∀ k v, c = .insert k v → Retains d) :
    ∃ d', call (depth + 1) d c = some (d', (FiniteMap.call m (named c)).2) ∧
      Sound d' (FiniteMap.call m (named c)).1 ∧ d'.key = d.key := by
  cases c with
  | insert k v => exact h.insert depth (hkeep k v rfl) hk v
  | remove k => exact h.remove hk (hremove k rfl)
  | search k =>
    refine ⟨d, ?_, h, rfl⟩
    simp only [HashDictionary.call, h.answers k hk, Option.map_some]
    rfl

theorem Sound.keeps_iff (h : Sound d m) (depth : ℕ) {calls : List (FiniteMap.Call K V)}
    (hk : ∀ c ∈ calls, Hashable d.key (keyOf c)) (hremove : RemovesPresent m calls) :
    Keeps (depth + 1) d m calls ↔ EnlargesWell (depth + 1) d calls := by
  induction calls generalizing d m with
  | nil => exact ⟨fun _ => trivial, fun _ => h.answers⟩
  | cons c cs ih =>
    have hnext : (∀ k v, c = .insert k v → Retains d) →
        ∃ d', call (depth + 1) d c = some (d', (FiniteMap.call m (named c)).2) ∧
          (Keeps (depth + 1) d' (FiniteMap.call m (named c)).1 cs ↔
            EnlargesWell (depth + 1) d' cs) := by
      intro hkeep
      obtain ⟨d', hcall, hsound, hkey⟩ := h.called depth (hk c (by simp)) hremove.1 hkeep
      refine ⟨d', hcall, ih hsound ?_ hremove.2⟩
      rw [hkey]
      exact fun c hc => hk c (by simp [hc])
    constructor
    · rintro ⟨-, hgrow, d', hcall, hrest⟩
      have hkeep : ∀ k v, c = .insert k v → Retains d := by
        intro k v hc
        obtain ⟨d₁, hd₁, hans⟩ := hgrow k v hc
        exact h.retains hd₁ hans
      refine ⟨hkeep, ?_⟩
      intro d₂ r hr
      obtain ⟨d₃, hd₃, hiff⟩ := hnext hkeep
      obtain ⟨rfl, -⟩ := Prod.mk.inj (Option.some.inj (hd₃.symm.trans hr))
      obtain ⟨rfl, -⟩ := Prod.mk.inj (Option.some.inj (hd₃.symm.trans hcall))
      exact hiff.mp hrest
    · rintro ⟨hkeep, hrest⟩
      obtain ⟨d', hcall, hiff⟩ := hnext hkeep
      refine ⟨h.answers, ?_, d', hcall, hiff.mpr (hrest d' _ hcall)⟩
      intro k v hc
      obtain ⟨d₁, hd₁, hsound, -, -⟩ := h.ensurecapacity depth (hkeep k v hc)
      exact ⟨d₁, hd₁, hsound.answers⟩

omit [LawfulKey K] in
theorem sound_create {load : Int} (key : Int) (hlow : 2 ≤ load) (hhigh : load ≤ maxValue) :
    ∃ d : Dictionary K V, create key load = some d ∧ Sound d (fun _ => none) ∧ d.key = key := by
  obtain ⟨n, rfl⟩ := Int.eq_ofNat_of_zero_le (show 0 ≤ load by omega)
  obtain ⟨d, hcreate, hfilled, hkey, hload⟩ :=
    filled_create (K := K) (V := V) (n := n) (by omega) key
  have hempty : entries d.dict = [] := List.perm_nil.mp hfilled.perm
  refine ⟨d, hcreate, ⟨hfilled.placed, ?_, ?_, ?_, ?_, ?_⟩, hkey⟩
  · rw [hempty]
    exact ⟨List.nodup_nil, by simp⟩
  · simp [hempty]
  · simp [hempty]
  · rw [hfilled.counted, hload]
    simp
  · rw [hload]
    exact hhigh

theorem keeps_every_mapping_iff (depth : ℕ) {key load : Int} {calls : List (FiniteMap.Call K V)}
    (hlow : 2 ≤ load) (hhigh : load ≤ maxValue) (hk : ∀ c ∈ calls, Hashable key (keyOf c))
    (hremove : RemovesPresent (fun _ => none) calls) :
    ∃ d : Dictionary K V, create key load = some d ∧
      (Keeps (depth + 1) d (fun _ => none) calls ↔ EnlargesWell (depth + 1) d calls) := by
  obtain ⟨d, hcreate, hsound, hkey⟩ := sound_create (K := K) (V := V) key hlow hhigh
  refine ⟨d, hcreate, hsound.keeps_iff depth ?_ hremove⟩
  rw [hkey]
  exact hk

omit [LawfulKey K] in
theorem Keeps.answers {depth : ℕ} {calls : List (FiniteMap.Call K V)} (h : Keeps depth d m calls) :
    (Refinement.tryRun (call depth) d calls).map (·.2) =
      some (Refinement.run FiniteMap.call m (calls.map named)).2 := by
  induction calls generalizing d m with
  | nil => rfl
  | cons c cs ih =>
    obtain ⟨-, -, d', hcall, hrest⟩ := h
    obtain ⟨x, hx, hanswers⟩ := Option.map_eq_some_iff.mp (ih hrest)
    simp only [Refinement.tryRun, hcall, hx, hanswers, Option.bind_some, Option.map_some,
      List.map_cons, Refinement.run]

instance : Key (List UInt16) where
  valueOf s := s

instance : LawfulKey (List UInt16) :=
  ⟨fun _ _ => beq_iff_eq⟩

instance (key : Int) (k : K) : Decidable (Hashable key k) :=
  inferInstanceAs (Decidable (_ ≠ _))

theorem keeps_two_keys : ∃ d : Dictionary (List UInt16) ℕ, create 3 2 = some d ∧
    (Keeps 1 d (fun _ => none) [.insert [97] 1, .insert [98] 2, .remove [98], .insert [99] 3] ↔
      EnlargesWell 1 d [.insert [97] 1, .insert [98] 2, .remove [98], .insert [99] 3]) :=
  keeps_every_mapping_iff 0 (by decide) (by decide) (by decide)
    (by simp [RemovesPresent, named, FiniteMap.call, valueOf])

-- The first enlargement rehashes with another multiplier, the second stops at an emptied bucket.
theorem mapping_lost :
    (∃ d : Dictionary (List UInt16) ℕ, create 31 5 = some d ∧
      ¬ Keeps 1 d (fun _ => none) [.insert [97, 98] 1, .insert [98] 2, .insert [99] 3,
        .insert [100] 4, .insert [101] 5, .insert [102] 6, .search [97, 98]]) ∧
    ∃ d : Dictionary (List UInt16) ℕ, create 3 3 = some d ∧
      ¬ Keeps 1 d (fun _ => none) [.insert [98] 1, .insert [97] 2, .remove [98], .insert [99] 3,
        .insert [101] 4, .search [97]] := by
  refine ⟨⟨_, rfl, ?_⟩, _, rfl, ?_⟩
  · intro h
    exact absurd h.answers (by decide +kernel)
  · intro h
    exact absurd h.answers (by decide +kernel)

end Runs

end HashDictionary
