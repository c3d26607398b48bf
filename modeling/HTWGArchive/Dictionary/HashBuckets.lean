import HTWGArchive.Dictionary.HashTable

namespace HashDictionary

open BinaryTreeDictionary (Entry)
open JavaInt Slots Key

variable {K V : Type*}

def entries (dict : List (Option (List (Entry K V)))) : List (Entry K V) :=
  dict.flatMap (·.getD [])

theorem entries_append (pre post : List (Option (List (Entry K V)))) :
    entries (pre ++ post) = entries pre ++ entries post := by
  simp [entries]

theorem entries_cons (x : Option (List (Entry K V))) (post : List (Option (List (Entry K V)))) :
    entries (x :: post) = x.getD [] ++ entries post := by
  simp [entries]

theorem mem_entries {dict : List (Option (List (Entry K V)))} {e : Entry K V} :
    e ∈ entries dict ↔ ∃ (i : ℕ) (es : List (Entry K V)), dict[i]? = some (some es) ∧ e ∈ es := by
  constructor
  · intro h
    obtain ⟨x, hx, he⟩ := List.mem_flatMap.mp h
    cases x with
    | none => cases he
    | some es =>
      obtain ⟨i, hi⟩ := List.mem_iff_getElem?.mp hx
      exact ⟨i, es, hi, he⟩
  · rintro ⟨i, es, hi, he⟩
    exact List.mem_flatMap.mpr ⟨some es, List.mem_of_getElem? hi, he⟩

theorem entries_set {dict : List (Option (List (Entry K V)))} {i : ℕ}
    {x : Option (List (Entry K V))} (h : dict[i]? = some x) :
    ∃ rest, (entries dict).Perm (x.getD [] ++ rest) ∧
      ∀ es, (entries (dict.set i (some es))).Perm (es ++ rest) := by
  obtain ⟨hi, rfl⟩ := List.getElem?_eq_some_iff.mp h
  have hsplit : dict = dict.take i ++ dict[i] :: dict.drop (i + 1) := by
    rw [List.getElem_cons_drop, List.take_append_drop]
  have hswap : ∀ as bs cs : List (Entry K V), (as ++ (bs ++ cs)).Perm (bs ++ (as ++ cs)) := by
    intro as bs cs
    rw [← List.append_assoc, ← List.append_assoc]
    exact List.perm_append_comm.append_right cs
  refine ⟨entries (dict.take i) ++ entries (dict.drop (i + 1)), ?_, ?_⟩
  · have hbefore := congrArg entries hsplit
    rw [entries_append, entries_cons] at hbefore
    rw [hbefore]
    exact hswap _ _ _
  · intro es
    rw [List.set_eq_take_append_cons_drop, if_pos hi, entries_append, entries_cons]
    exact hswap _ _ _

theorem iterate_sublist (dict : List (Option (List (Entry K V)))) :
    (iterate dict).Sublist (entries dict) := by
  fun_induction iterate dict with
  | case1 => exact List.Sublist.refl _
  | case2 rest ih =>
    rw [entries_cons]
    exact ih
  | case3 rest => exact List.nil_sublist _
  | case4 e es rest ih =>
    rw [entries_cons]
    exact (List.Sublist.refl (e :: es)).append ih

variable [Key K]

class LawfulKey (K : Type*) [Key K] : Prop where
  equals_iff : ∀ a b : K, a == b ↔ valueOf a = valueOf b

def name (e : Entry K V) : List UInt16 :=
  valueOf e.key

-- The entries, one for each name, make up the map.
structure Holds (es : List (Entry K V)) (m : List UInt16 → Option V) : Prop where
  distinct : (es.map name).Nodup
  value_iff : ∀ s v, m s = some v ↔ ∃ e ∈ es, name e = s ∧ e.value = v

section Holds

variable {es rest : List (Entry K V)} {m : List UInt16 → Option V} {e : Entry K V}

theorem Holds.perm {fs : List (Entry K V)} (h : Holds es m) (hp : es.Perm fs) : Holds fs m where
  distinct := (hp.map name).nodup_iff.mp h.distinct
  value_iff s v := by
    rw [h.value_iff]
    simp only [hp.mem_iff]

theorem Holds.eq_none_iff (h : Holds es m) {s : List UInt16} :
    m s = none ↔ ∀ e ∈ es, name e ≠ s := by
  rw [Option.eq_none_iff_forall_not_mem]
  constructor
  · intro hnone e he hs
    exact hnone e.value ((h.value_iff s e.value).mpr ⟨e, he, hs, rfl⟩)
  · intro hne v hv
    obtain ⟨e, he, hs, -⟩ := (h.value_iff s v).mp hv
    exact hne e he hs

theorem Holds.value (h : Holds es m) (he : e ∈ es) : m (name e) = some e.value :=
  (h.value_iff _ _).mpr ⟨e, he, rfl, rfl⟩

theorem Holds.cons (h : Holds es m) (hnew : m (name e) = none) :
    Holds (e :: es) (Function.update m (name e) (some e.value)) where
  distinct := by
    rw [List.map_cons, List.nodup_cons]
    refine ⟨?_, h.distinct⟩
    intro hmem
    obtain ⟨f, hf, heq⟩ := List.mem_map.mp hmem
    exact h.eq_none_iff.mp hnew f hf heq
  value_iff s v := by
    by_cases hs : s = name e
    · subst hs
      rw [Function.update_self, List.exists_mem_cons_iff]
      constructor
      · intro hv
        exact Or.inl ⟨rfl, Option.some.inj hv⟩
      · rintro (⟨-, rfl⟩ | ⟨f, hf, heq, -⟩)
        · rfl
        · exact absurd heq (h.eq_none_iff.mp hnew f hf)
    · rw [Function.update_of_ne hs, h.value_iff, List.exists_mem_cons_iff]
      constructor
      · exact Or.inr
      · rintro (⟨heq, -⟩ | hrest)
        · exact absurd heq.symm hs
        · exact hrest

theorem Holds.tail (h : Holds (e :: es) m) : Holds es (Function.update m (name e) none) where
  distinct := (List.nodup_cons.mp h.distinct).2
  value_iff s v := by
    have hne : ∀ f ∈ es, name f ≠ name e := by
      intro f hf heq
      exact (List.nodup_cons.mp h.distinct).1 (heq ▸ List.mem_map_of_mem hf)
    by_cases hs : s = name e
    · subst hs
      rw [Function.update_self]
      constructor
      · intro hv
        cases hv
      · rintro ⟨f, hf, heq, -⟩
        exact absurd heq (hne f hf)
    · rw [Function.update_of_ne hs, h.value_iff, List.exists_mem_cons_iff]
      constructor
      · rintro (⟨heq, -⟩ | hrest)
        · exact absurd heq.symm hs
        · exact hrest
      · exact Or.inr

theorem Holds.setValue (h : Holds (e :: es) m) (v : V) :
    Holds ({ e with value := v } :: es) (Function.update m (name e) (some v)) := by
  have hnext := h.tail.cons (e := { e with value := v }) (Function.update_self _ _ _)
  have hname : name { e with value := v } = name e := rfl
  rwa [hname, Function.update_idem] at hnext

end Holds

section Bucket

variable {es : List (Entry K V)} {k : K} {v : V}

theorem find_eq_some (h : find es k = some v) :
    ∃ as e bs, es = as ++ e :: bs ∧ e.key == k ∧ e.value = v ∧ ∀ a ∈ as, ¬ a.key == k := by
  obtain ⟨e, hfind, hv⟩ := Option.map_eq_some_iff.mp h
  obtain ⟨hk, as, bs, hsplit, has⟩ := List.find?_eq_some_iff_append.mp hfind
  exact ⟨as, e, bs, hsplit, hk, hv, fun a ha => by simpa using has a ha⟩

theorem find_eq_none : find es k = none ↔ ∀ e ∈ es, ¬ e.key == k := by
  simp [find, List.find?_eq_none]

theorem replace_middle {as bs : List (Entry K V)} {e : Entry K V} (value : V)
    (has : ∀ a ∈ as, ¬ a.key == k) (he : e.key == k) :
    replace k value (as ++ e :: bs) = as ++ { e with value := value } :: bs := by
  induction as with
  | nil => exact if_pos he
  | cons a as ih =>
    rw [List.cons_append, replace, if_neg (has a (by simp)), ih (fun b hb => has b (by simp [hb]))]
    rfl

theorem eraseP_middle {as bs : List (Entry K V)} {e : Entry K V}
    (has : ∀ a ∈ as, ¬ a.key == k) (he : e.key == k) :
    (as ++ e :: bs).eraseP (fun e => e.key == k) = as ++ bs := by
  rw [List.eraseP_append_right _ has, List.eraseP_cons_of_pos (p := fun e : Entry K V => e.key == k) he]

end Bucket

theorem genHash_congr {key : Int} {length : ℕ} {a b : K} (h : valueOf a = valueOf b) :
    genHash key length a = genHash key length b := by
  simp only [genHash, h]

theorem hashSum_range (key : Int) (s : List UInt16) :
    minValue ≤ hashSum key s ∧ hashSum key s ≤ maxValue := by
  unfold hashSum
  cases s using List.reverseRecOn with
  | nil => exact ⟨by simp [minValue], by simp [maxValue]⟩
  | append_singleton s c =>
    rw [List.foldl_append]
    exact int_range _

-- A hash sum whose negation overflows gives a negative index.
def Hashable (key : Int) (k : K) : Prop :=
  hashSum key (valueOf k) ≠ minValue

theorem genHash_range {key : Int} {length : ℕ} {k : K} (hk : Hashable key k) (hl : 2 ≤ length) :
    ∃ i : ℕ, genHash key length k = some (i : Int) ∧ i < length := by
  have hrange := hashSum_range key (valueOf k)
  have hne : hashSum key (valueOf k) ≠ minValue := hk
  unfold genHash
  simp only
  rw [if_neg (by omega)]
  have hadr : 0 ≤ if hashSum key (valueOf k) < 0 then int (-hashSum key (valueOf k))
      else hashSum key (valueOf k) := by
    split
    · rw [int_eq]
      · omega
      · unfold minValue
        omega
      · unfold minValue at hrange hne
        unfold maxValue
        omega
    · omega
  refine ⟨(Int.tmod (if hashSum key (valueOf k) < 0 then int (-hashSum key (valueOf k))
      else hashSum key (valueOf k)) (length - 1)).toNat, ?_, ?_⟩
  · rw [Int.toNat_of_nonneg (Int.tmod_nonneg _ hadr)]
  · have hlt := Int.tmod_lt_of_pos (if hashSum key (valueOf k) < 0 then int (-hashSum key (valueOf k))
      else hashSum key (valueOf k)) (b := (length : Int) - 1) (by omega)
    omega


structure Placed (d : Dictionary K V) : Prop where
  length : (d.dict.length : Int) = d.load
  two_le : 2 ≤ d.load
  hashed : ∀ (i : ℕ) (es : List (Entry K V)), d.dict[i]? = some (some es) →
    ∀ e ∈ es, genHash d.key d.dict.length e.key = some (i : Int)

section Placed

variable {d : Dictionary K V} {m : List UInt16 → Option V} {k : K} {i : ℕ}

theorem Placed.search_eq (hd : Placed d) [LawfulKey K] (hm : Holds (entries d.dict) m)
    (hk : genHash d.key d.dict.length k = some (i : Int)) (hi : i < d.dict.length) :
    search d k = some (m (valueOf k)) := by
  have hbucket : ∀ e ∈ entries d.dict, name e = valueOf k →
      ∃ es, d.dict[i]? = some (some es) ∧ e ∈ es := by
    intro e he hname
    obtain ⟨j, es, hj, hes⟩ := mem_entries.mp he
    have hhash := hd.hashed j es hj e hes
    rw [genHash_congr hname, hk, Option.some.injEq, Nat.cast_inj] at hhash
    exact ⟨es, hhash ▸ hj, hes⟩
  have hget : d.dict[i]? = some d.dict[i] := List.getElem?_eq_getElem hi
  simp only [search, hk, slot_natCast, hget]
  cases hslot : d.dict[i] with
  | none =>
    rw [hslot] at hget
    have hnone : m (valueOf k) = none := by
      rw [hm.eq_none_iff]
      intro e he hname
      obtain ⟨es, hes, -⟩ := hbucket e he hname
      rw [hes] at hget
      cases hget
    simp only [hnone]
  | some es =>
    rw [hslot] at hget
    simp only [Option.some.injEq]
    cases hfind : find es k with
    | none =>
      symm
      rw [hm.eq_none_iff]
      intro e he hname
      obtain ⟨fs, hfs, hmem⟩ := hbucket e he hname
      rw [hfs, Option.some.injEq, Option.some.injEq] at hget
      subst hget
      exact find_eq_none.mp hfind e hmem ((LawfulKey.equals_iff _ _).mpr hname)
    | some v =>
      obtain ⟨as, e, bs, rfl, hek, rfl, -⟩ := find_eq_some hfind
      have hval := hm.value (e := e) (mem_entries.mpr ⟨i, _, hget, by simp⟩)
      rw [← (LawfulKey.equals_iff _ _).mp hek]
      exact hval.symm

-- What a call writes is one bucket.
theorem Placed.set (hd : Placed d) {es : List (Entry K V)} {n : ℕ}
    (hes : ∀ e ∈ es, genHash d.key d.dict.length e.key = some (i : Int)) :
    Placed { d with dict := d.dict.set i (some es), size := n } where
  length := by simpa using hd.length
  two_le := hd.two_le
  hashed j fs hj e he := by
    simp only [List.length_set]
    simp only [List.getElem?_set] at hj
    split at hj
    · rename_i heq
      split at hj
      · obtain rfl := Option.some.inj (Option.some.inj hj)
        rw [← heq]
        exact hes e he
      · cases hj
    · exact hd.hashed j fs hj e he

theorem search_cases (hk : genHash d.key d.dict.length k = some (i : Int)) {r : Option V}
    (h : search d k = some r) :
    (d.dict[i]? = some none ∧ r = none) ∨ ∃ es, d.dict[i]? = some (some es) ∧ find es k = r := by
  simp only [search, hk, slot_natCast] at h
  cases hslot : d.dict[i]? with
  | none => simp [hslot] at h
  | some x =>
    cases x with
    | none =>
      simp only [hslot, Option.some.injEq] at h
      exact Or.inl ⟨rfl, h.symm⟩
    | some es =>
      simp only [hslot, Option.some.injEq] at h
      exact Or.inr ⟨es, rfl, h⟩

theorem Placed.put_new [LawfulKey K] (hd : Placed d) (hm : Holds (entries d.dict) m)
    (hk : genHash d.key d.dict.length k = some (i : Int)) (hi : i < d.dict.length)
    (hnew : m (valueOf k) = none) (v : V) :
    ∃ dict, put d k v = some ({ d with dict := dict, size := d.size + 1 }, none) ∧
      Placed { d with dict := dict, size := d.size + 1 } ∧
      (entries dict).Perm (⟨k, v⟩ :: entries d.dict) := by
  have hsearch := hd.search_eq hm hk hi
  rw [hnew] at hsearch
  obtain ⟨x, hx⟩ : ∃ x, d.dict[i]? = some x := ⟨_, List.getElem?_eq_getElem hi⟩
  have hin : ∀ e ∈ x.getD [], genHash d.key d.dict.length e.key = some (i : Int) := by
    cases x with
    | none => simp
    | some es => exact hd.hashed i es hx
  obtain ⟨rest, hbefore, hafter⟩ := entries_set hx
  refine ⟨d.dict.set i (some (x.getD [] ++ [⟨k, v⟩])), ?_, hd.set ?_, ?_⟩
  · simp only [put, hk, hsearch, slot_natCast, hx, write_natCast hi, Option.bind_eq_bind,
      Option.bind_some]
    rfl
  · intro e he
    rcases List.mem_append.mp he with he | he
    · exact hin e he
    · rw [List.mem_singleton.mp he]
      exact hk
  · refine (hafter _).trans ?_
    rw [List.append_assoc]
    exact List.perm_middle.trans (hbefore.symm.cons _)

theorem Placed.bucket [LawfulKey K] (hd : Placed d) (hm : Holds (entries d.dict) m)
    (hk : genHash d.key d.dict.length k = some (i : Int)) (hi : i < d.dict.length) {old : V}
    (hold : m (valueOf k) = some old) :
    ∃ as e bs, d.dict[i]? = some (some (as ++ e :: bs)) ∧ e.key == k ∧ e.value = old ∧
      name e = valueOf k ∧ find (as ++ e :: bs) k = some old ∧ ∀ a ∈ as, ¬ a.key == k := by
  have hsearch := hd.search_eq hm hk hi
  rw [hold] at hsearch
  rcases search_cases hk hsearch with ⟨-, hnone⟩ | ⟨es, hes, hfind⟩
  · cases hnone
  · obtain ⟨as, e, bs, rfl, hek, hv, has⟩ := find_eq_some hfind
    exact ⟨as, e, bs, hes, hek, hv, (LawfulKey.equals_iff _ _).mp hek, hfind, has⟩

theorem Placed.put_old [LawfulKey K] (hd : Placed d) (hm : Holds (entries d.dict) m)
    (hk : genHash d.key d.dict.length k = some (i : Int)) (hi : i < d.dict.length) {old : V}
    (hold : m (valueOf k) = some old) (v : V) :
    ∃ dict, put d k v = some ({ d with dict := dict }, some old) ∧ Placed { d with dict := dict } ∧
      (entries dict).length = (entries d.dict).length ∧
      Holds (entries dict) (Function.update m (valueOf k) (some v)) := by
  have hsearch := hd.search_eq hm hk hi
  obtain ⟨as, e, bs, hx, hek, -, hname, hfind, has⟩ := hd.bucket hm hk hi hold
  obtain ⟨rest, hbefore, hafter⟩ := entries_set hx
  have hfront : (entries d.dict).Perm (e :: (as ++ bs ++ rest)) := by
    refine hbefore.trans ?_
    rw [Option.getD_some, List.append_assoc, List.append_assoc]
    exact List.perm_middle
  have hlast : (entries (d.dict.set i (some (as ++ { e with value := v } :: bs)))).Perm
      ({ e with value := v } :: (as ++ bs ++ rest)) := by
    refine (hafter _).trans ?_
    rw [List.append_assoc, List.append_assoc]
    exact List.perm_middle
  refine ⟨d.dict.set i (some (as ++ { e with value := v } :: bs)), ?_, hd.set (n := d.size) ?_, ?_, ?_⟩
  · simp only [put, hk, hsearch, hold, slot_natCast, hx, write_natCast hi, Option.bind_eq_bind,
      Option.bind_some, replace_middle v has hek, hfind]
    rfl
  · intro f hf
    have hall := hd.hashed i _ hx
    rcases List.mem_append.mp hf with hf | hf
    · exact hall f (by simp [hf])
    · rcases List.mem_cons.mp hf with rfl | hf
      · exact hall e (by simp)
      · exact hall f (by simp [hf])
  · rw [hfront.length_eq, hlast.length_eq]
    rfl
  · rw [← hname]
    exact ((hm.perm hfront).setValue v).perm hlast.symm

theorem Placed.remove_old [LawfulKey K] (hd : Placed d) (hm : Holds (entries d.dict) m)
    (hk : genHash d.key d.dict.length k = some (i : Int)) (hi : i < d.dict.length) {old : V}
    (hold : m (valueOf k) = some old) :
    ∃ dict, remove d k = some ({ d with dict := dict }, some old) ∧ Placed { d with dict := dict } ∧
      (entries dict).length ≤ (entries d.dict).length ∧
      Holds (entries dict) (Function.update m (valueOf k) none) := by
  obtain ⟨as, e, bs, hx, hek, -, hname, hfind, has⟩ := hd.bucket hm hk hi hold
  obtain ⟨rest, hbefore, hafter⟩ := entries_set hx
  have hfront : (entries d.dict).Perm (e :: (as ++ bs ++ rest)) := by
    refine hbefore.trans ?_
    rw [Option.getD_some, List.append_assoc, List.append_assoc]
    exact List.perm_middle
  refine ⟨d.dict.set i (some (as ++ bs)), ?_, hd.set (n := d.size) ?_, ?_, ?_⟩
  · simp only [remove, hk, slot_natCast, hx, write_natCast hi, Option.bind_eq_bind,
      Option.bind_some, hfind, eraseP_middle has hek]
    rfl
  · intro f hf
    refine hd.hashed i _ hx f ?_
    rcases List.mem_append.mp hf with hf | hf
    · simp [hf]
    · simp [hf]
  · rw [hfront.length_eq, (hafter _).length_eq, List.length_cons]
    exact Nat.le_succ _
  · rw [← hname]
    exact (hm.perm hfront).tail.perm (hafter _).symm

theorem put_inBounds {v : V} {x : Dictionary K V × Option V} (h : put d k v = some x) :
    ∃ j : ℕ, genHash d.key d.dict.length k = some (j : Int) ∧ j < d.dict.length := by
  unfold put search at h
  cases hhash : genHash d.key d.dict.length k with
  | none => simp [hhash] at h
  | some j =>
    cases hslot : slot d.dict j with
    | none => simp [hhash, hslot] at h
    | some x =>
      obtain ⟨n, rfl, hn⟩ := slot_eq_some hslot
      exact ⟨n, rfl, (List.getElem?_eq_some_iff.mp hn).1⟩

end Placed

section Inversion

variable {d d' : Dictionary K V} {k : K} {v : V} {r : Option V}

theorem put_inv (h : put d k v = some (d', r)) :
    ∃ i b dict, genHash d.key d.dict.length k = some i ∧ slot d.dict i = some b ∧
      (find (b.getD []) k = none ∧ r = none ∧
          write d.dict i (some (b.getD [] ++ [⟨k, v⟩])) = some dict ∧
          d' = { d with dict := dict, size := d.size + 1 } ∨
        ∃ es, b = some es ∧ find es k = r ∧ r ≠ none ∧
          write d.dict i (some (replace k v es)) = some dict ∧ d' = { d with dict := dict }) := by
  unfold put search at h
  cases hi : genHash d.key d.dict.length k with
  | none => simp [hi] at h
  | some i =>
    cases hb : slot d.dict i with
    | none => simp [hi, hb] at h
    | some b =>
      cases b with
      | none =>
        simp only [hi, hb, Option.bind_eq_bind, Option.bind_some, Option.bind_eq_some_iff,
          Option.pure_def, Option.some.injEq, Prod.mk.injEq] at h
        obtain ⟨dict, hw, rfl, rfl⟩ := h
        exact ⟨i, none, dict, rfl, hb, Or.inl ⟨rfl, rfl, hw, rfl⟩⟩
      | some es =>
        cases hf : find es k with
        | none =>
          simp only [hi, hb, hf, Option.bind_eq_bind, Option.bind_some, Option.bind_eq_some_iff,
            Option.pure_def, Option.some.injEq, Prod.mk.injEq] at h
          obtain ⟨dict, hw, rfl, rfl⟩ := h
          exact ⟨i, some es, dict, rfl, hb, Or.inl ⟨hf, rfl, hw, rfl⟩⟩
        | some old =>
          simp only [hi, hb, hf, Option.bind_eq_bind, Option.bind_some, Option.bind_eq_some_iff,
            Option.pure_def, Option.some.injEq, Prod.mk.injEq] at h
          obtain ⟨dict, hw, rfl, rfl⟩ := h
          exact ⟨i, some es, dict, rfl, hb,
            Or.inr ⟨es, rfl, hf, Option.some_ne_none old, hw, rfl⟩⟩

theorem remove_inv (h : remove d k = some (d', r)) :
    ∃ i es, genHash d.key d.dict.length k = some i ∧ slot d.dict i = some (some es) ∧
      (find es k = none ∧ r = none ∧ d' = d ∨
        ∃ old dict, find es k = some old ∧ r = some old ∧
          write d.dict i (some (es.eraseP fun e => e.key == k)) = some dict ∧
          d' = { d with dict := dict }) := by
  unfold remove at h
  cases hi : genHash d.key d.dict.length k with
  | none => simp [hi] at h
  | some i =>
    simp only [hi, Option.bind_eq_bind, Option.bind_eq_some_iff] at h
    obtain ⟨b, hb, es, rfl, h⟩ := h
    cases hf : find es k with
    | none =>
      obtain ⟨rfl, rfl⟩ : d = d' ∧ none = r := by simpa [hf] using h
      exact ⟨i, es, rfl, hb, Or.inl ⟨hf, rfl, rfl⟩⟩
    | some old =>
      simp only [hf, Option.bind_eq_some_iff, Option.pure_def, Option.some.injEq,
        Prod.mk.injEq] at h
      obtain ⟨dict, hw, rfl, rfl⟩ := h
      exact ⟨i, es, rfl, hb, Or.inr ⟨old, dict, hf, rfl, hw, rfl⟩⟩

end Inversion

end HashDictionary
