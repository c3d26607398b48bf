import HTWGArchive.Dictionary.HashIterator
import Mathlib.Data.Set.Card

namespace HashDictionary

open BinaryTreeDictionary (Entry)
open JavaInt Slots Key

variable {K V : Type*} [Key K]

def bucketOf (d : Dictionary K V) (k : K) : Option (Option (List (Entry K V))) :=
  (genHash d.key d.dict.length k).bind (slot d.dict)

def BucketCreated (d : Dictionary K V) (k : K) : Prop :=
  ∃ es, bucketOf d k = some (some es)

def RemovesExactly (d : Dictionary K V) (k : K) : Prop :=
  ∃ d' old, remove d k = some (d', old) ∧ search d k = some old ∧
    ∀ a, search d' a = if valueOf a = valueOf k then some none else search d a

-- The names of the keys for which `search` returns a value.
def found (d : Dictionary K V) : Set (List UInt16) :=
  {s | ∃ k v, valueOf k = s ∧ search d k = some (some v)}

section Buckets

variable [LawfulKey K] {es : List (Entry K V)} {a k : K} {v : V}

theorem equals_name (e : Entry K V) (k : K) : (e.key == k) = true ↔ name e = valueOf k :=
  LawfulKey.equals_iff e.key k

theorem find_cons (e : Entry K V) (es : List (Entry K V)) (k : K) :
    find (e :: es) k = if name e = valueOf k then some e.value else find es k := by
  by_cases h : name e = valueOf k
  · simp [find, (equals_name e k).mpr h, h]
  · simp [find, mt (equals_name e k).mp h, h]

theorem find_congr (es : List (Entry K V)) (h : valueOf a = valueOf k) : find es a = find es k := by
  induction es with
  | nil => rfl
  | cons e es ih => rw [find_cons, find_cons, h, ih]

theorem find_absent (h : ∀ e ∈ es, name e ≠ valueOf k) : find es k = none :=
  find_eq_none.mpr fun e he hk => h e he ((equals_name e k).mp hk)

omit [LawfulKey K] in
theorem ite_other {A : Type*} {e : Entry K V} (he : name e ≠ valueOf k) (x y z : A) :
    (if name e = valueOf a then x else if valueOf a = valueOf k then y else z) =
      if valueOf a = valueOf k then y else if name e = valueOf a then x else z := by
  by_cases ha : valueOf a = valueOf k
  · rw [if_neg (ha ▸ he), if_pos ha, if_pos ha]
  · rw [if_neg ha, if_neg ha]

theorem find_snoc (h : find es k = none) (a : K) :
    find (es ++ [⟨k, v⟩]) a = if valueOf a = valueOf k then some v else find es a := by
  induction es with
  | nil =>
    rw [List.nil_append, find_cons]
    exact if_congr eq_comm rfl rfl
  | cons e es ih =>
    rw [find_cons] at h
    split_ifs at h with he
    rw [List.cons_append, find_cons, find_cons, ih h, ite_other he]

theorem find_replace (h : find es k ≠ none) (a : K) :
    find (replace k v es) a = if valueOf a = valueOf k then some v else find es a := by
  induction es with
  | nil => exact absurd rfl h
  | cons e es ih =>
    rw [find_cons] at h
    by_cases he : name e = valueOf k
    · rw [replace, if_pos ((equals_name e k).mpr he), find_cons, find_cons]
      have hname : name { e with value := v } = name e := rfl
      rw [hname, he]
      by_cases ha : valueOf a = valueOf k
      · rw [if_pos ha, if_pos ha.symm]
      · rw [if_neg ha, if_neg (Ne.symm ha), if_neg (Ne.symm ha)]
    · rw [if_neg he] at h
      rw [replace, if_neg (mt (equals_name e k).mp he), find_cons, find_cons, ih h, ite_other he]

theorem find_erase (hn : (es.map name).Nodup) (a : K) :
    find (es.eraseP fun e => e.key == k) a = if valueOf a = valueOf k then none else find es a := by
  induction es with
  | nil => simp [find]
  | cons e es ih =>
    obtain ⟨hhead,htail⟩ := List.nodup_cons.mp hn
    by_cases he : name e = valueOf k
    · rw [List.eraseP_cons_of_pos (p := fun e : Entry K V => e.key == k)
        ((equals_name e k).mpr he), find_cons]
      by_cases ha : valueOf a = valueOf k
      · rw [if_pos ha]
        refine find_absent fun f hf hname => hhead ?_
        rw [he, ← ha, ← hname]
        exact List.mem_map_of_mem hf
      · rw [if_neg ha, if_neg (fun h => ha (h.symm.trans he))]
    · rw [List.eraseP_cons_of_neg (p := fun e : Entry K V => e.key == k)
        (mt (equals_name e k).mp he), find_cons, find_cons, ih htail, ite_other he]

end Buckets

section Search

variable {d d' : Dictionary K V} {a k : K} {i : Int} {es : List (Entry K V)}

theorem search_bucketOf (d : Dictionary K V) (k : K) :
    search d k = (bucketOf d k).map fun b => find (b.getD []) k := by
  unfold search bucketOf
  cases hi : genHash d.key d.dict.length k with
  | none => simp
  | some i =>
    cases hs : slot d.dict i with
    | none => simp [hs]
    | some b => cases b <;> simp [hs, find]

-- A call writes the bucket of its key, which the keys of the same index share.
theorem search_write {dict : List (Option (List (Entry K V)))} {n : ℕ}
    (hw : write d.dict i (some es) = some dict) (a : K) :
    search { d with dict := dict, size := n } a =
      if genHash d.key d.dict.length a = some i then some (find es a) else search d a := by
  have hl : dict.length = d.dict.length := write_length hw
  rw [search_bucketOf, search_bucketOf]
  unfold bucketOf
  simp only [hl]
  cases ha : genHash d.key d.dict.length a with
  | none => simp
  | some j =>
    rw [Option.bind_some, slot_write hw]
    by_cases hj : j = i
    · simp [hj]
    · simp [hj]

end Search

section Remove

variable [LawfulKey K] {d d' : Dictionary K V} {k : K} {v : V} {r : Option V}

-- No bucket holds two entries of one name, also where an enlargement has lost or misplaced some.
def Distinct (dict : List (Option (List (Entry K V)))) : Prop :=
  ∀ (i : Int) (es : List (Entry K V)), slot dict i = some (some es) → (es.map name).Nodup

omit [LawfulKey K] in
theorem RemovesExactly.bucketCreated (h : RemovesExactly d k) : BucketCreated d k := by
  obtain ⟨d',old,hr,-,-⟩ := h
  obtain ⟨i,es,hi,hs,-⟩ := remove_inv hr
  exact ⟨es,by rw [bucketOf, hi, Option.bind_some, hs]⟩

theorem Distinct.removesExactly (hd : Distinct d.dict) (h : BucketCreated d k) : RemovesExactly d k := by
  obtain ⟨es,hes⟩ := h
  obtain ⟨i,hi,hs⟩ := Option.bind_eq_some_iff.mp hes
  have hsearch : search d k = some (find es k) := by
    rw [search_bucketOf, hes]
    rfl
  have hsame : ∀ a : K, valueOf a = valueOf k →
      genHash d.key d.dict.length a = some i := fun a ha => (genHash_congr ha).trans hi
  cases hf : find es k with
  | none =>
    refine ⟨d,none,by simp [remove, hi, hs, hf],hf ▸ hsearch,fun a => ?_⟩
    split_ifs with ha
    · rw [search_bucketOf, bucketOf, hsame a ha, Option.bind_some, hs, Option.map_some,
        Option.getD_some, find_congr es ha, hf]
    · rfl
  | some old =>
    obtain ⟨dict,hw⟩ := write_of_slot hs (some (es.eraseP fun e => e.key == k))
    refine ⟨{ d with dict := dict },some old,by simp [remove, hi, hs, hf, hw],hf ▸ hsearch,
      fun a => ?_⟩
    refine (search_write (n := d.size) hw a).trans ?_
    rw [find_erase (hd i es hs)]
    split_ifs with hia ha ha
    · rfl
    · rw [search_bucketOf, bucketOf, hia, Option.bind_some, hs]
      rfl
    · exact absurd (hsame a ha) hia
    · rfl

omit [LawfulKey K] in
theorem replace_names (es : List (Entry K V)) (k : K) (v : V) :
    (replace k v es).map name = es.map name := by
  induction es with
  | nil => rfl
  | cons e es ih =>
    rw [replace]
    split_ifs with he
    · rfl
    · rw [List.map_cons, List.map_cons, ih]

theorem Distinct.put (hd : Distinct d.dict) (h : put d k v = some (d', r)) :
    Distinct d'.dict := by
  obtain ⟨i,b,dict,-,hs,⟨hf,-,hw,rfl⟩ | ⟨es,rfl,-,-,hw,rfl⟩⟩ := put_inv h
  · intro j fs hj
    rw [slot_write hw] at hj
    split_ifs at hj with hji
    · obtain rfl := Option.some.inj (Option.some.inj hj)
      have hn : ((b.getD []).map name).Nodup := by
        cases b with
        | none => exact List.nodup_nil
        | some es => exact hd i es hs
      have hnew : ∀ e ∈ b.getD [], name e ≠ valueOf k := fun e he hname =>
        find_eq_none.mp hf e he ((equals_name e k).mpr hname)
      rw [List.map_append,List.map_singleton,← List.concat_eq_append]
      refine List.Nodup.concat ?_ hn
      intro hs
      obtain ⟨e,he,hname⟩ := List.mem_map.mp hs
      exact hnew e he hname
    · exact hd j fs hj
  · intro j fs hj
    rw [slot_write hw] at hj
    split_ifs at hj with hji
    · obtain rfl := Option.some.inj (Option.some.inj hj)
      rw [replace_names]
      exact hd i es hs
    · exact hd j fs hj

theorem kept_distinct : Kept (Distinct (K := K) (V := V)) where
  create _ hc := by
    unfold HashDictionary.create at hc
    split_ifs at hc
    obtain rfl := Option.some.inj hc
    intro i es hi
    obtain ⟨n,rfl,hn⟩ := slot_eq_some hi
    rw [List.getElem?_replicate] at hn
    split_ifs at hn
    cases hn
  put hp hd := hd.put hp
  remove hr hd := by
    obtain ⟨i,es,-,hs,⟨-,-,rfl⟩ | ⟨old,dict,-,-,hw,rfl⟩⟩ := remove_inv hr
    · exact hd
    · intro j fs hj
      rw [slot_write hw] at hj
      split_ifs at hj with hji
      · obtain rfl := Option.some.inj (Option.some.inj hj)
        exact (List.eraseP_sublist.map name).nodup (hd i es hs)
      · exact hd j fs hj

end Remove

section Found

variable [LawfulKey K] {d d' : Dictionary K V} {k : K} {v : V} {r : Option V}
  {m : List UInt16 → Option V} {es : List (Entry K V)}

theorem search_congr (d : Dictionary K V) {a : K} (h : valueOf a = valueOf k) :
    search d a = search d k := by
  rw [search_bucketOf, search_bucketOf, bucketOf, bucketOf, genHash_congr h]
  exact congrArg (Option.map · _) (funext fun b => find_congr _ h)

theorem mem_found : valueOf k ∈ found d ↔ ∃ v, search d k = some (some v) := by
  constructor
  · rintro ⟨a,v,ha,hv⟩
    exact ⟨v,search_congr d ha ▸ hv⟩
  · rintro ⟨v,hv⟩
    exact ⟨k,v,rfl,hv⟩

theorem found_finite (d : Dictionary K V) : (found d).Finite := by
  refine ((entries d.dict).map name).finite_toSet.subset ?_
  rintro s ⟨k,v,rfl,hv⟩
  rw [search_bucketOf] at hv
  obtain ⟨b,hb,hf⟩ := Option.map_eq_some_iff.mp hv
  obtain ⟨as,e,bs,hsplit,he,-,-⟩ := find_eq_some hf
  obtain ⟨i,-,hs⟩ := Option.bind_eq_some_iff.mp hb
  obtain ⟨n,rfl,hn⟩ := slot_eq_some hs
  refine List.mem_map.mpr ⟨e,mem_entries.mpr ?_,(equals_name e k).mp he⟩
  cases b with
  | none => simp at hsplit
  | some es => exact ⟨n,es,hn,by simp [show es = as ++ e :: bs from hsplit]⟩

theorem search_put (h : put d k v = some (d', r)) (a : K) :
    search d' a = if valueOf a = valueOf k then some (some v) else search d a := by
  obtain ⟨i,b,dict,hi,hs,hcase⟩ := put_inv h
  have hsame : valueOf a = valueOf k → genHash d.key d.dict.length a = some i :=
    fun ha => (genHash_congr ha).trans hi
  have hold : genHash d.key d.dict.length a = some i →
      search d a = some (find (b.getD []) a) := fun hia => by
    rw [search_bucketOf, bucketOf, hia, Option.bind_some, hs]
    rfl
  obtain ⟨hf,-,hw,rfl⟩ | ⟨es,rfl,hf,hr,hw,rfl⟩ := hcase
  · rw [search_write hw, find_snoc hf]
    split_ifs with hia ha ha
    · rfl
    · exact (hold hia).symm
    · exact absurd (hsame ha) hia
    · rfl
  · refine (search_write (n := d.size) hw a).trans ?_
    rw [find_replace (hf ▸ hr)]
    split_ifs with hia ha ha
    · rfl
    · exact (hold hia).symm
    · exact absurd (hsame ha) hia
    · rfl

theorem found_put (h : put d k v = some (d', r)) : found d' = Insert.insert (valueOf k) (found d) := by
  ext s
  constructor
  · rintro ⟨a,w,rfl,hw⟩
    rw [search_put h] at hw
    split_ifs at hw with ha
    · exact .inl ha
    · exact .inr ⟨a,w,rfl,hw⟩
  · rintro (rfl | ⟨a,w,rfl,hw⟩)
    · exact ⟨k,v,rfl,by rw [search_put h, if_pos rfl]⟩
    · by_cases ha : valueOf a = valueOf k
      · exact ⟨a,v,rfl,by rw [search_put h, if_pos ha]⟩
      · exact ⟨a,w,rfl,by rw [search_put h, if_neg ha, hw]⟩

theorem size_put (h : put d k v = some (d', r)) :
    (valueOf k ∉ found d ∧ d'.size = d.size + 1) ∨ (valueOf k ∈ found d ∧ d'.size = d.size) := by
  obtain ⟨i,b,dict,hi,hs,hcase⟩ := put_inv h
  have hold : search d k = some (find (b.getD []) k) := by
    rw [search_bucketOf, bucketOf, hi, Option.bind_some, hs]
    rfl
  obtain ⟨hf,-,-,rfl⟩ | ⟨es,rfl,hf,hr,-,rfl⟩ := hcase
  · refine .inl ⟨fun hmem => ?_,rfl⟩
    obtain ⟨w,hw⟩ := mem_found.mp hmem
    rw [hold, hf] at hw
    cases hw
  · obtain ⟨w,hw⟩ := Option.ne_none_iff_exists'.mp hr
    exact .inr ⟨mem_found.mpr ⟨w,by rw [hold, ← hw, ← hf]; rfl⟩,rfl⟩

def Counts (d : Dictionary K V) : Prop :=
  (found d).ncard = d.size

theorem counts_put (h : put d k v = some (d', r)) : Counts d' ↔ Counts d := by
  rw [Counts, Counts, found_put h]
  rcases size_put h with ⟨hk,hs⟩ | ⟨hk,hs⟩
  · rw [Set.ncard_insert_of_notMem hk (found_finite d), hs, Nat.add_right_cancel_iff]
  · rw [Set.insert_eq_of_mem hk, hs]

omit [LawfulKey K] in
theorem Holds.card (h : Holds es m) : {s | m s ≠ none}.ncard = es.length := by
  classical
  have hset : {s | m s ≠ none} = ((es.map name).toFinset : Set (List UInt16)) := by
    ext s
    rw [List.coe_toFinset, Set.mem_ofPred_eq, Set.mem_ofPred_eq, Option.ne_none_iff_exists',
      List.mem_map]
    constructor
    · rintro ⟨v,hv⟩
      obtain ⟨e,he,hs,-⟩ := (h.value_iff s v).mp hv
      exact ⟨e,he,hs⟩
    · rintro ⟨e,he,rfl⟩
      exact ⟨e.value,h.value he⟩
  rw [hset, Set.ncard_coe_finset, List.toFinset_card_of_nodup h.distinct, List.length_map]

theorem Placed.found_eq (hd : Placed d) (hm : Holds (entries d.dict) m) :
    found d = {s | m s ≠ none} := by
  ext s
  rw [Set.mem_ofPred_eq, Option.ne_none_iff_exists']
  constructor
  · rintro ⟨k,v,rfl,hv⟩
    have hb := hv
    rw [search_bucketOf] at hb
    obtain ⟨b,hb,-⟩ := Option.map_eq_some_iff.mp hb
    obtain ⟨i,hi,hs⟩ := Option.bind_eq_some_iff.mp hb
    obtain ⟨n,rfl,hn⟩ := slot_eq_some hs
    rw [hd.search_eq hm hi (List.getElem?_eq_some_iff.mp hn).1] at hv
    exact ⟨v,Option.some.inj hv⟩
  · rintro ⟨v,hv⟩
    obtain ⟨e,he,rfl,rfl⟩ := (hm.value_iff s v).mp hv
    obtain ⟨i,es,hi,hes⟩ := mem_entries.mp he
    refine ⟨e.key,e.value,rfl,?_⟩
    rw [hd.search_eq hm (hd.hashed i es hi e hes) (List.getElem?_eq_some_iff.mp hi).1]
    exact congrArg some hv

end Found

section Counting

variable [LawfulKey K] {d d' : Dictionary K V} {k : K} {v : V} {r : Option V}
  {m : List UInt16 → Option V} {depth : ℕ}

structure Stored (d : Dictionary K V) (m : List UInt16 → Option V) : Prop where
  placed : Placed d
  holds : Holds (entries d.dict) m
  counted : (entries d.dict).length = d.size
  size_le : (d.size : Int) ≤ d.load
  load_le : d.load ≤ maxValue

omit [LawfulKey K] in
theorem Stored.shaped (h : Stored d m) : Shaped d :=
  ⟨h.placed,h.holds.distinct,h.counted.le,h.size_le,h.load_le⟩

theorem Stored.counts (h : Stored d m) : Counts d := by
  rw [Counts, h.placed.found_eq h.holds, h.holds.card, h.counted]

theorem Stored.put (h : Stored d m) (hroom : (d.size : Int) < d.load)
    (hp : put d k v = some (d', r)) :
    Stored d' (Function.update m (valueOf k) (some v)) := by
  obtain ⟨i,hi,hlt⟩ := put_inBounds hp
  cases hold : m (valueOf k) with
  | none =>
    obtain ⟨dict,hput,hplaced,hperm⟩ := h.placed.put_new h.holds hi hlt hold v
    obtain ⟨rfl,-⟩ := Prod.mk.inj (Option.some.inj (hput.symm.trans hp))
    refine ⟨hplaced,(h.holds.cons (e := ⟨k, v⟩) hold).perm hperm.symm,?_,?_,h.load_le⟩
    · rw [hperm.length_eq, List.length_cons, h.counted]
    · push_cast
      omega
  | some old =>
    obtain ⟨dict,hput,hplaced,hlength,hholds⟩ := h.placed.put_old h.holds hi hlt hold v
    obtain ⟨rfl,-⟩ := Prod.mk.inj (Option.some.inj (hput.symm.trans hp))
    exact ⟨hplaced,hholds,hlength.trans h.counted,h.size_le,h.load_le⟩

theorem Stored.ensurecapacity (h : Stored d m)
    (he : ensurecapacity (depth + 1) d = some d') (hkeep : Retains d) :
    Stored d' m ∧ (d'.size : Int) < d'.load := by
  rcases lt_or_ge (d.size : Int) d.load with hlt | hge
  · obtain rfl := Option.some.inj ((ensurecapacity_of_lt hlt _).symm.trans he)
    exact ⟨h,hlt⟩
  · obtain ⟨n,b,hn,hgt,hmax,hb,rfl⟩ := h.shaped.enlarge hge he
    obtain ⟨-,hall⟩ := hkeep hge
    rw [hn, Int.toNat_natCast] at hall
    have htwo := h.placed.two_le
    have hperm := hb.entries_perm h.holds.distinct fun e he => (hall e he).1
    exact ⟨⟨hb.placed (htwo.trans hgt.le) fun e he => (hall e he).2,h.holds.perm hperm.symm,
      hperm.length_eq.trans h.counted,h.size_le.trans hgt.le,hmax⟩,lt_of_le_of_lt h.size_le hgt⟩

theorem Backup.found_subset {b : Dictionary K V} {n : ℕ} (hb : Backup d b n) :
    found { d with load := n, dict := b.dict } ⊆ {s | ∃ e ∈ entries d.dict, name e = s} := by
  rintro s ⟨k,v,rfl,hv⟩
  rw [search_bucketOf] at hv
  obtain ⟨bucket,hbk,hf⟩ := Option.map_eq_some_iff.mp hv
  obtain ⟨as,e,bs,hsplit,he,-,-⟩ := find_eq_some hf
  obtain ⟨i,-,hs⟩ := Option.bind_eq_some_iff.mp hbk
  obtain ⟨j,rfl,hj⟩ := slot_eq_some hs
  cases bucket with
  | none => simp at hsplit
  | some es =>
    have hmem : e ∈ entries b.dict :=
      mem_entries.mpr ⟨j,es,hj,by simp [show es = as ++ e :: bs from hsplit]⟩
    exact ⟨e,(iterate_sublist d.dict).subset (hb.perm.mem_iff.mp hmem),(equals_name e k).mp he⟩

theorem Stored.retains (h : Stored d m) (he : HashDictionary.ensurecapacity (depth + 1) d = some d')
    (hc : Counts d') : Retains d := by
  intro hge
  have htwo := h.placed.two_le
  obtain ⟨n,b,hn,hgt,-,hb,rfl⟩ := h.shaped.enlarge hge he
  rw [hn, Int.toNat_natCast]
  have hnames : {s | ∃ e ∈ entries d.dict, name e = s} = found d := by
    rw [h.placed.found_eq h.holds]
    ext s
    rw [Set.mem_ofPred_eq, Set.mem_ofPred_eq, Option.ne_none_iff_exists']
    constructor
    · rintro ⟨e,he,rfl⟩
      exact ⟨e.value,h.holds.value he⟩
    · rintro ⟨v,hv⟩
      obtain ⟨e,he,hs,-⟩ := (h.holds.value_iff s v).mp hv
      exact ⟨e,he,hs⟩
  have hsame : found { d with load := n, dict := b.dict } = found d := by
    have hsub := hnames ▸ hb.found_subset
    have hcd : (found d).ncard = d.size := h.counts
    have hcb : (found { d with load := n, dict := b.dict }).ncard = d.size := hc
    exact Set.eq_of_subset_of_ncard_le hsub (by omega) (found_finite d)
  refine ⟨by omega,fun e hmem => ?_⟩
  have hfound : valueOf e.key ∈ found { d with load := n, dict := b.dict } := by
    rw [hsame, ← hnames]
    exact ⟨e,hmem,rfl⟩
  obtain ⟨v,hv⟩ := mem_found.mp hfound
  exact hb.alike h.holds.distinct hmem hv

omit [LawfulKey K] in
theorem Stored.distinct (h : Stored d m) : Distinct d.dict := by
  intro i es hi
  obtain ⟨n,rfl,hn⟩ := slot_eq_some hi
  obtain ⟨rest,hperm,-⟩ := entries_set hn
  have hn := (hperm.map name).nodup_iff.mp h.holds.distinct
  rw [List.map_append] at hn
  exact hn.of_append_left

theorem Stored.remove_cases (h : Stored d m) (hr : remove d k = some (d', r)) :
    (valueOf k ∉ found d ∧ d' = d) ∨ (valueOf k ∈ found d ∧ ¬ Counts d') := by
  obtain ⟨i,es,hi,hs,hcase⟩ := remove_inv hr
  have hcreated : BucketCreated d k := ⟨es,by rw [bucketOf, hi, Option.bind_some, hs]⟩
  have hsearch : search d k = some (find es k) := by
    rw [search_bucketOf, bucketOf, hi, Option.bind_some, hs]
    rfl
  obtain ⟨d₂,old₂,hr₂,-,hall⟩ := h.distinct.removesExactly hcreated
  obtain ⟨rfl,-⟩ := Prod.mk.inj (Option.some.inj (hr₂.symm.trans hr))
  rcases hcase with ⟨hf,-,rfl⟩ | ⟨old,dict,hf,-,-,rfl⟩
  · refine .inl ⟨fun hmem => ?_,rfl⟩
    obtain ⟨v,hv⟩ := mem_found.mp hmem
    rw [hsearch, hf] at hv
    cases hv
  · have hk : valueOf k ∈ found d := mem_found.mpr ⟨old,by rw [hsearch, hf]⟩
    refine .inr ⟨hk,fun hc => ?_⟩
    have hless : found { d with dict := dict } ⊆ found d \ {valueOf k} := by
      rintro s ⟨a,v,rfl,hv⟩
      rw [hall] at hv
      split_ifs at hv with ha
      · cases hv
      · exact ⟨⟨a,v,rfl,hv⟩,ha⟩
    have hle := Set.ncard_le_ncard hless ((found_finite d).subset Set.sdiff_subset)
    have hlt := Set.ncard_sdiff_singleton_lt_of_mem hk (found_finite d)
    have hcd : (found d).ncard = d.size := h.counts
    have hcd' : (found { d with dict := dict }).ncard = d.size := hc
    omega

-- After every call the count is exact; a call that throws ends the run.
def SizeExact (depth : ℕ) : Dictionary K V → List (FiniteMap.Call K V) → Prop
  | d, [] => Counts d
  | d, c :: cs => Counts d ∧ ∀ d' r, call depth d c = some (d', r) → SizeExact depth d' cs

def KeepsCount (depth : ℕ) : Dictionary K V → List (FiniteMap.Call K V) → Prop
  | _, [] => True
  | d, c :: cs => ∀ d' r, call depth d c = some (d', r) →
      (∀ k, c = .remove k → valueOf k ∉ found d) ∧ (∀ k v, c = .insert k v → Retains d) ∧
        KeepsCount depth d' cs

omit [LawfulKey K] in
theorem SizeExact.counts {calls : List (FiniteMap.Call K V)} (h : SizeExact depth d calls) :
    Counts d := by
  cases calls with
  | nil => exact h
  | cons c cs => exact h.1

theorem Stored.call (h : Stored d m) {c : FiniteMap.Call K V}
    (hc : call (depth + 1) d c = some (d', r))
    (hr : ∀ k, c = .remove k → valueOf k ∉ found d) (hi : ∀ k v, c = .insert k v → Retains d) :
    ∃ m', Stored d' m' := by
  cases c with
  | insert k v =>
    obtain ⟨d₁,hd₁,hp⟩ := Option.bind_eq_some_iff.mp hc
    obtain ⟨h₁,hroom⟩ := h.ensurecapacity hd₁ (hi k v rfl)
    exact ⟨_,h₁.put hroom hp⟩
  | remove k =>
    rcases h.remove_cases hc with ⟨-,rfl⟩ | ⟨hk,-⟩
    · exact ⟨m,h⟩
    · exact absurd hk (hr k rfl)
  | search k =>
    obtain ⟨x,-,hx⟩ := Option.map_eq_some_iff.mp hc
    obtain ⟨rfl,-⟩ := Prod.mk.inj hx
    exact ⟨m,h⟩

theorem Stored.call_condition (h : Stored d m) {c : FiniteMap.Call K V}
    (hc : HashDictionary.call (depth + 1) d c = some (d', r)) (hcount : Counts d') :
    (∀ k, c = .remove k → valueOf k ∉ found d) ∧ ∀ k v, c = .insert k v → Retains d := by
  constructor
  · rintro k rfl hk
    rcases h.remove_cases hc with ⟨hn,-⟩ | ⟨-,hn⟩
    · exact hn hk
    · exact hn hcount
  · rintro k v rfl
    obtain ⟨d₁,hd₁,hp⟩ := Option.bind_eq_some_iff.mp hc
    exact h.retains hd₁ ((counts_put hp).mp hcount)

theorem Stored.sizeExact_iff (h : Stored d m) (calls : List (FiniteMap.Call K V)) :
    SizeExact (depth + 1) d calls ↔ KeepsCount (depth + 1) d calls := by
  induction calls generalizing d m with
  | nil => exact iff_of_true h.counts trivial
  | cons c cs ih =>
    constructor
    · rintro ⟨-,hrest⟩ d' r hc
      obtain ⟨hr,hi⟩ := h.call_condition hc (hrest d' r hc).counts
      obtain ⟨m',h'⟩ := h.call hc hr hi
      exact ⟨hr,hi,(ih h').mp (hrest d' r hc)⟩
    · intro hkeep
      refine ⟨h.counts,fun d' r hc => ?_⟩
      obtain ⟨hr,hi,hrest⟩ := hkeep d' r hc
      obtain ⟨m',h'⟩ := h.call hc hr hi
      exact (ih h').mpr hrest

omit [LawfulKey K] in
theorem stored_create (key : Int) {load : Int} (hlow : 2 ≤ load) (hhigh : load ≤ maxValue) :
    ∃ d : Dictionary K V, create key load = some d ∧ Stored d fun _ => none := by
  obtain ⟨n,rfl⟩ := Int.eq_ofNat_of_zero_le (show 0 ≤ load by omega)
  obtain ⟨d,hcreate,hfilled,-,hload⟩ :=
    filled_create (K := K) (V := V) (n := n) (by omega) key
  have hempty : entries d.dict = [] := List.perm_nil.mp hfilled.perm
  refine ⟨d,hcreate,hfilled.placed,?_,?_,?_,?_⟩
  · rw [hempty]
    exact ⟨List.nodup_nil,by simp⟩
  · rw [hempty, hfilled.counted]
  · rw [hfilled.counted, hload]
    simp
  · rw [hload]
    exact hhigh

theorem remove_and_size_iff (depth : ℕ) {key load : Int} (hlow : 2 ≤ load)
    (hhigh : load ≤ maxValue) (calls : List (FiniteMap.Call K V)) :
    ∃ d₀ : Dictionary K V, create key load = some d₀ ∧
      (∀ d rs, Refinement.tryRun (HashDictionary.call (depth + 1)) d₀ calls = some (d, rs) →
        ∀ k, RemovesExactly d k ↔ BucketCreated d k) ∧
      (SizeExact (depth + 1) d₀ calls ↔ KeepsCount (depth + 1) d₀ calls) := by
  obtain ⟨d₀,hc,hs⟩ := stored_create (K := K) (V := V) key hlow hhigh
  refine ⟨d₀,hc,fun d rs hr k => ?_,hs.sizeExact_iff calls⟩
  exact ⟨RemovesExactly.bucketCreated,(kept_distinct.run hhigh hc hr).removesExactly⟩

end Counting

theorem remove_and_size_one_key :
    ∃ d₀ : Dictionary (List UInt16) ℕ, create 3 3 = some d₀ ∧
      (∀ d rs, Refinement.tryRun (call 1) d₀ [.insert [97] 1] = some (d, rs) →
        ∀ k, RemovesExactly d k ↔ BucketCreated d k) ∧
      (SizeExact 1 d₀ [.insert [97] 1] ↔ KeepsCount 1 d₀ [.insert [97] 1]) :=
  remove_and_size_iff 0 (by decide) (by decide) _

-- In the new table no bucket exists, and `size` stays when the only key is removed.
theorem remove_throws_and_size_stays :
    ∃ d₀ : Dictionary (List UInt16) ℕ, create 3 3 = some d₀ ∧ ¬ RemovesExactly d₀ [97] ∧
      ¬ SizeExact 1 d₀ [.insert [97] 1, .remove [97]] := by
  obtain ⟨d₀,hc,hs⟩ := stored_create (K := List UInt16) (V := ℕ) 3
    (show 2 ≤ (3 : Int) by decide) (by decide)
  obtain rfl := Option.some.inj hc
  refine ⟨_,rfl,fun h => ?_,fun h => ?_⟩
  · obtain ⟨es,hes⟩ := h.bucketCreated
    have hnull : bucketOf (⟨3, 0, 3, [none, none, none]⟩ : Dictionary (List UInt16) ℕ) [97] =
        some none := by decide +kernel
    exact absurd (Option.some.inj (hnull.symm.trans hes)) (Option.some_ne_none es).symm
  · obtain ⟨-,-,h⟩ := (hs.sizeExact_iff _).mp h ⟨3, 1, 3, [none, some [⟨[97], 1⟩], none]⟩ none
      (by decide +kernel)
    obtain ⟨hr,-⟩ := h ⟨3, 1, 3, [none, some [], none]⟩ (some 1) (by decide +kernel)
    exact hr [97] rfl (mem_found.mpr ⟨1,by decide +kernel⟩)

end HashDictionary
