import HTWGArchive.Dictionary.SortedArray

namespace SortedArrayDictionary

open BinaryTreeDictionary (Entry)
open BinaryTreeDictionary.Entry
open Slots

variable {K V : Type*} [LinearOrder K] {es as bs : List (Entry K V)} {key : K} {c : ℕ}

theorem Descending.key_inj (h : Descending es) {i j : ℕ} (hi : i < es.length) (hj : j < es.length)
    (hk : es[i].key = es[j].key) : i = j := by
  rcases lt_trichotomy i j with hlt | heq | hlt
  · exact absurd hk (List.pairwise_iff_getElem.mp h i j hi hj hlt).ne'
  · exact heq
  · exact absurd hk (List.pairwise_iff_getElem.mp h j i hj hi hlt).ne

theorem Descending.lookup_getElem (h : Descending es) {i : ℕ} (hi : i < es.length) :
    lookup es es[i].key = some es[i].value := by
  have hsplit : es = es.take i ++ es[i] :: es.drop (i + 1) := by
    rw [List.getElem_cons_drop, List.take_append_drop]
  have hne : ∀ a ∈ es.take i, a.key ≠ es[i].key := by
    intro a ha
    obtain ⟨j, hj, rfl⟩ := List.getElem_of_mem ha
    rw [List.length_take] at hj
    rw [List.getElem_take]
    exact (List.pairwise_iff_getElem.mp h j i (by omega) hi (by omega)).ne'
  have hfound : lookup (es.take i ++ es[i] :: es.drop (i + 1)) es[i].key = some es[i].value :=
    lookup_middle hne
  rwa [← hsplit] at hfound

-- Every entry with the key stands between `li` and `re`.
def Enclosed (es : List (Entry K V)) (key : K) (li re : Int) : Prop :=
  ∀ i, ∀ h : i < es.length, es[i].key = key → li ≤ i ∧ (i : Int) ≤ re

omit [LinearOrder K] in
theorem entry_between {li re : Int} (hli : 0 ≤ li) (hre : re < es.length) (h : li ≤ re) :
    ∃ m : ℕ, (li + re) / 2 = m ∧ ∃ hm : m < es.length, entry (slots es c) m = some es[m] := by
  refine ⟨((li + re) / 2).toNat, by omega, by omega, ?_⟩
  exact entry_slots (by omega)

theorem searchLoop_eq (hes : Descending es) {li re : Int} (hli : 0 ≤ li) (hre : re < es.length)
    (henc : Enclosed es key li re) : searchLoop (slots es c) key li re = some (lookup es key) := by
  fun_induction searchLoop (slots es c) key li re with
  | case1 li re hle m hnone =>
    obtain ⟨n, hm, hn, hentry⟩ := entry_between (c := c) hli hre hle
    simp only [m, hm, hentry] at hnone
    cases hnone
  | case2 li re hle m e he hgt ih =>
    obtain ⟨n, hm, hn, hentry⟩ := entry_between (c := c) hli hre hle
    simp only [m, hm, hentry, Option.some.injEq] at he
    subst he
    apply ih hli (by omega)
    intro i hi hk
    obtain ⟨hlow, -⟩ := henc i hi hk
    have hlt := hes.index_lt hi hn (hk ▸ hgt)
    omega
  | case3 li re hle m e he hng hlt ih =>
    obtain ⟨n, hm, hn, hentry⟩ := entry_between (c := c) hli hre hle
    simp only [m, hm, hentry, Option.some.injEq] at he
    subst he
    apply ih (by omega) hre
    intro i hi hk
    obtain ⟨-, hhigh⟩ := henc i hi hk
    have hlt := hes.index_lt hn hi (hk ▸ hlt)
    omega
  | case4 li re hle m e he hng hnl =>
    obtain ⟨n, hm, hn, hentry⟩ := entry_between (c := c) hli hre hle
    simp only [m, hm, hentry, Option.some.injEq] at he
    subst he
    rw [le_antisymm (not_lt.mp hng) (not_lt.mp hnl), hes.lookup_getElem hn]
  | case5 li re hgt =>
    have hnone : lookup es key = none := by
      rw [lookup_eq_none]
      intro e hmem hk
      obtain ⟨i, hi, rfl⟩ := List.getElem_of_mem hmem
      obtain ⟨hlow, hhigh⟩ := henc i hi hk
      omega
    rw [hnone]

theorem removeLoop_eq (hes : Descending es) {i : ℕ} (hi : i < es.length) {m li re : Int}
    (hli : 0 ≤ li) (hre : re < es.length) (henc : li ≤ i ∧ (i : Int) ≤ re) :
    removeLoop (slots es c) es[i].key m li re = some (i : Int) := by
  fun_induction removeLoop (slots es c) es[i].key m li re with
  | case1 m₀ li re hle m hnone =>
    obtain ⟨n, hm, hn, hentry⟩ := entry_between (c := c) hli hre hle
    rw [add_comm] at hm
    simp only [m, hm, hentry] at hnone
    cases hnone
  | case2 m₀ li re hle m e he hgt ih =>
    obtain ⟨n, hm, hn, hentry⟩ := entry_between (c := c) hli hre hle
    rw [add_comm] at hm
    simp only [m, hm, hentry, Option.some.injEq] at he
    subst he
    have hlt := hes.index_lt hn hi hgt
    exact ih (by omega) hre (by omega)
  | case3 m₀ li re hle m e he hng hlt ih =>
    obtain ⟨n, hm, hn, hentry⟩ := entry_between (c := c) hli hre hle
    rw [add_comm] at hm
    simp only [m, hm, hentry, Option.some.injEq] at he
    subst he
    have hlt := hes.index_lt hi hn hlt
    exact ih hli (by omega) (by omega)
  | case4 m₀ li re hle m e he hng hnl =>
    obtain ⟨n, hm, hn, hentry⟩ := entry_between (c := c) hli hre hle
    rw [add_comm] at hm
    simp only [m, hm, hentry, Option.some.injEq] at he
    subst he
    have heq := hes.key_inj hn hi (le_antisymm (not_lt.mp hng) (not_lt.mp hnl))
    simp only [m, hm, heq]
  | case5 m₀ li re hgt => omega


omit [LinearOrder K] in
theorem slots_append (as bs : List (Entry K V)) (c : ℕ) :
    slots (as ++ bs) c = as.map some ++ slots bs c := by
  simp [slots]

omit [LinearOrder K] in
theorem slots_cons (e : Entry K V) (es : List (Entry K V)) (c : ℕ) :
    slots (e :: es) c = some e :: slots es c := rfl

omit [LinearOrder K] in
theorem slots_length (es : List (Entry K V)) (c : ℕ) : (slots es c).length = es.length + c := by
  simp [slots]

omit [LinearOrder K] in
theorem ensurecapacity_eq (es : List (Entry K V)) (hroom : 0 < es.length + c) :
    ∃ c', 0 < c' ∧ ensurecapacity ⟨slots es c, es.length⟩ = some ⟨slots es c', es.length⟩ := by
  unfold ensurecapacity
  simp only [slots_length]
  by_cases hfull : es.length + c ≤ es.length
  · rw [if_pos hfull, if_pos (by omega)]
    refine ⟨c + (es.length * 2 - (es.length + c)), by omega, ?_⟩
    simp only [slots, List.append_assoc, List.replicate_append_replicate]
  · rw [if_neg hfull]
    exact ⟨c, by omega, rfl⟩

theorem replace_none {i : ℕ} (value : V) (habsent : ∀ e ∈ es, e.key ≠ key) :
    replace key value ⟨slots es c, es.length⟩ i = some none := by
  fun_induction replace key value ⟨slots es c, es.length⟩ i with
  | case1 i hlt ih =>
    simp only [entry_slots hlt, Option.bind_eq_bind, Option.bind_some]
    rw [if_neg (habsent _ (List.getElem_mem hlt)), ih]
  | case2 i hge => rfl

theorem replace_found {i : ℕ} {e : Entry K V} (value : V) (has : ∀ a ∈ as, a.key ≠ e.key)
    (hi : i ≤ as.length) :
    replace e.key value ⟨slots (as ++ e :: bs) c, (as ++ e :: bs).length⟩ i =
      some (some (⟨slots (as ++ { e with value := value } :: bs) c, (as ++ e :: bs).length⟩,
        e.value)) := by
  fun_induction replace e.key value ⟨slots (as ++ e :: bs) c, (as ++ e :: bs).length⟩ i with
  | case1 i hlt ih =>
    simp only [entry_slots hlt, Option.bind_eq_bind, Option.bind_some]
    rcases Nat.lt_or_eq_of_le hi with hless | rfl
    · rw [List.getElem_append_left hless, if_neg (has _ (List.getElem_mem hless)), ih hless]
    · have hget : (as ++ e :: bs)[as.length] = e := by simp
      rw [hget, if_pos rfl, slots_append, slots_append, slots_cons, slots_cons]
      have hwrite := write_middle (as.map some) (some e) (some { e with value := value })
        (slots bs c)
      rw [List.length_map] at hwrite
      rw [hwrite]
      rfl
  | case2 i hge =>
    simp only [List.length_append, List.length_cons] at hge
    omega

theorem shift_eq {p q : List (Entry K V)} (hp : ∀ e ∈ p, ¬ e.key < key) (hq : ∀ e ∈ q, e.key < key)
    (x : Option (Entry K V)) (rest : List (Option (Entry K V))) :
    ∃ y, shift key ((p ++ q).map some ++ x :: rest) (p ++ q).length =
      some (p.map some ++ y :: (q.map some ++ rest), p.length) := by
  induction q using List.reverseRecOn generalizing x rest with
  | nil =>
    rw [List.append_nil]
    refine ⟨x, ?_⟩
    cases p using List.reverseRecOn with
    | nil => rfl
    | append_singleton p e =>
      have hentry := entry_middle (e := e) (p.map some) (x :: rest)
      rw [List.length_map] at hentry
      rw [List.length_append, List.length_singleton, shift]
      simp only [List.map_append, List.map_cons, List.map_nil, List.append_assoc, List.cons_append,
        List.nil_append, hentry, Option.bind_eq_bind, Option.bind_some]
      rw [if_neg (hp e (by simp))]
  | append_singleton q e ih =>
    obtain ⟨y, hy⟩ := ih (fun a ha => hq a (by simp [ha])) (some e) (some e :: rest)
    refine ⟨y, ?_⟩
    have hentry := entry_middle (e := e) ((p ++ q).map some) (x :: rest)
    have hwrite := write_middle ((p ++ q).map some ++ [some e]) x (some e) rest
    simp only [List.length_map, List.length_append, List.length_singleton, List.append_assoc,
      List.cons_append, List.nil_append] at hentry hwrite
    rw [← List.append_assoc, List.length_append, List.length_singleton, shift]
    simp only [List.map_append, List.map_cons, List.map_nil, List.append_assoc, List.cons_append,
      List.nil_append, List.length_append, Nat.cast_add, Nat.cast_one] at hy hentry hwrite ⊢
    rw [hentry]
    simp only [Option.bind_eq_bind, Option.bind_some]
    rw [if_pos (hq e (by simp)), hwrite]
    exact hy

theorem Descending.split (hes : Descending es) (key : K) :
    ∃ p q, es = p ++ q ∧ (∀ e ∈ p, key ≤ e.key) ∧ ∀ e ∈ q, e.key < key := by
  induction es with
  | nil => exact ⟨[], [], rfl, by simp, by simp⟩
  | cons e es ih =>
    obtain ⟨hhead, htail⟩ := List.pairwise_cons.mp hes
    rcases lt_or_ge e.key key with hlt | hge
    · refine ⟨[], e :: es, rfl, by simp, ?_⟩
      intro a ha
      rcases List.mem_cons.mp ha with rfl | ha
      · exact hlt
      · exact (hhead a ha).trans hlt
    · obtain ⟨p, q, rfl, hp, hq⟩ := ih htail
      refine ⟨e :: p, q, rfl, ?_, hq⟩
      intro a ha
      rcases List.mem_cons.mp ha with rfl | ha
      · exact hge
      · exact hp a ha

omit [LinearOrder K] in
theorem closeGap_eq {size : ℕ} (pre : List (Option (Entry K V))) (x : Option (Entry K V))
    (qs : List (Entry K V)) (rest : List (Option (Entry K V))) (hsize : size = pre.length + 1 + qs.length) :
    ∃ y, closeGap (pre ++ x :: (qs.map some ++ rest)) size pre.length =
      some (pre ++ qs.map some ++ y :: rest) := by
  induction qs generalizing pre x with
  | nil =>
    refine ⟨x, ?_⟩
    rw [closeGap, if_neg (by simp at hsize; omega)]
    simp
  | cons q qs ih =>
    obtain ⟨y, hy⟩ := ih (pre ++ [some q]) (some q) (by simp at hsize ⊢; omega)
    refine ⟨y, ?_⟩
    have hslot := slot_middle (pre ++ [x]) (some q) (qs.map some ++ rest)
    have hwrite := write_middle pre x (some q) (some q :: (qs.map some ++ rest))
    simp only [List.length_append, List.length_singleton, List.append_assoc, List.cons_append,
      List.nil_append, Nat.cast_add, Nat.cast_one] at hslot hwrite hy
    rw [closeGap, if_pos (by simp at hsize; omega)]
    simp only [List.map_cons, List.cons_append, hslot, hwrite]
    simpa using hy

-- The array holds the entries in descending order, then null, and the entries make up the map.
def Refines (d : Dictionary K V) (m : K → Option V) : Prop :=
  ∃ es c, d = ⟨slots es c, es.length⟩ ∧ Descending es ∧ 0 < es.length + c ∧ m = lookup es

theorem search_eq (hes : Descending es) (key : K) :
    search ⟨slots es c, es.length⟩ key = some (lookup es key) := by
  apply searchLoop_eq hes (le_refl 0) (by simp)
  intro i hi _
  simp only
  omega

theorem exists_of_lookup {v : V} (h : lookup es key = some v) :
    ∃ as e bs, es = as ++ e :: bs ∧ e.key = key ∧ e.value = v ∧ ∀ a ∈ as, a.key ≠ key := by
  obtain ⟨e, hfind, hv⟩ := Option.map_eq_some_iff.mp h
  obtain ⟨hk, as, bs, hsplit, has⟩ := List.find?_eq_some_iff_append.mp hfind
  exact ⟨as, e, bs, hsplit, by simpa using hk, hv, fun a ha => by simpa using has a ha⟩

theorem insert_refines {d : Dictionary K V} {m : K → Option V} (h : Refines d m) (key : K)
    (value : V) : ∃ d', insert d key value = some (d', m key) ∧
      Refines d' (Function.update m key (some value)) := by
  obtain ⟨es, c, rfl, hes, hroom, rfl⟩ := h
  obtain ⟨c, hc, hensure⟩ := ensurecapacity_eq es hroom
  unfold insert
  rw [hensure]
  simp only [Option.bind_eq_bind, Option.bind_some]
  cases hlook : lookup es key with
  | some v =>
    obtain ⟨as, e, bs, rfl, rfl, rfl, has⟩ := exists_of_lookup hlook
    rw [replace_found value has (Nat.zero_le _)]
    refine ⟨_, rfl, as ++ { e with value := value } :: bs, c, by simp, ?_, by simp, ?_⟩
    · simpa [Descending, List.pairwise_append] using hes
    · rw [lookup_insert (e := { e with value := value }) has]
      funext k
      by_cases hk : k = e.key
      · rw [hk, Function.update_self, Function.update_self]
      · rw [Function.update_of_ne hk, Function.update_of_ne hk, lookup_middle_of_ne _ _ (Ne.symm hk)]
  | none =>
    rw [lookup_eq_none] at hlook
    obtain ⟨p, q, rfl, hp, hq⟩ := hes.split key
    have hpk : ∀ e ∈ p, key < e.key := by
      intro e he
      exact lt_of_le_of_ne (hp e he) (Ne.symm (hlook e (by simp [he])))
    rw [replace_none value hlook]
    obtain ⟨c, rfl⟩ := Nat.exists_eq_succ_of_ne_zero hc.ne'
    obtain ⟨y, hy⟩ := shift_eq (fun e he => not_lt.mpr (hp e he)) hq none
      (List.replicate c (none : Option (Entry K V)))
    have hslots : slots (p ++ q) (c + 1) = (p ++ q).map some ++ none :: List.replicate c none := rfl
    have hwrite := write_middle (p.map some) y (some ⟨key, value⟩)
      (q.map some ++ List.replicate c none)
    rw [List.length_map] at hwrite
    simp only [hslots, hy, Option.bind_some, hwrite]
    refine ⟨_, rfl, p ++ ⟨key, value⟩ :: q, c, ?_, ?_, by simp, ?_⟩
    · simp only [slots, List.map_append, List.map_cons, List.append_assoc, List.cons_append,
        List.length_append, List.length_cons, Dictionary.mk.injEq, true_and]
      omega
    · simp only [Descending, List.pairwise_append, List.pairwise_cons, List.forall_mem_cons] at hes ⊢
      exact ⟨hes.1, ⟨hq, hes.2.1⟩, fun e he => ⟨hpk e he, hes.2.2 e he⟩⟩
    · exact (lookup_insert (e := ⟨key, value⟩) (fun e he => (hpk e he).ne')).symm

theorem remove_refines {d : Dictionary K V} {m : K → Option V} (h : Refines d m) (key : K) :
    ∃ d', remove d key = some (d', m key) ∧ Refines d' (Function.update m key none) := by
  obtain ⟨es, c, rfl, hes, hroom, rfl⟩ := h
  unfold remove
  rw [search_eq hes key]
  cases hlook : lookup es key with
  | none =>
    refine ⟨_, rfl, es, c, rfl, hes, hroom, ?_⟩
    rw [← hlook, Function.update_eq_self]
  | some v =>
    obtain ⟨as, e, bs, rfl, rfl, rfl, has⟩ := exists_of_lookup hlook
    have hi : as.length < (as ++ e :: bs).length := by simp
    have hget : (as ++ e :: bs)[as.length] = e := by simp
    have hloop : removeLoop (slots (as ++ e :: bs) c) (as ++ e :: bs)[as.length].key 0 0
        ((as ++ e :: bs).length - 1) = some (as.length : Int) :=
      removeLoop_eq hes hi (le_refl 0) (by omega) (by omega)
    rw [hget] at hloop
    have hsize : (as ++ e :: bs).length = (as.map some).length + 1 + bs.length := by
      simp
      omega
    obtain ⟨y, hy⟩ := closeGap_eq (as.map some) (some e) bs (List.replicate c none) hsize
    have hslots : slots (as ++ e :: bs) c =
        as.map some ++ some e :: (bs.map some ++ List.replicate c none) := by
      simp [slots]
    have hentry := entry_middle (e := e) (as.map some) (bs.map some ++ List.replicate c none)
    have hwrite := write_middle (as.map some ++ bs.map some) y none (List.replicate c none)
    have hlast : (((as ++ e :: bs).length : Int) - 1) = ((as.map some ++ bs.map some).length : ℕ) := by
      simp
      omega
    rw [List.length_map] at hentry hy
    rw [hloop]
    simp only [hslots, Option.bind_eq_bind, Option.bind_some, hentry, hy, hlast, hwrite]
    refine ⟨_, rfl, as ++ bs, c + 1, ?_, ?_, by omega, ?_⟩
    · simp [slots, List.replicate_succ]
    · exact hes.sublist ((List.Sublist.refl as).append (List.sublist_cons_self e bs))
    · apply (lookup_remove _).symm
      intro a ha
      rcases List.mem_append.mp ha with ha | ha
      · exact has a ha
      · exact ((List.pairwise_cons.mp (List.pairwise_append.mp hes).2.1).1 a ha).ne

theorem call_refines {d : Dictionary K V} {m : K → Option V} (h : Refines d m)
    (o : FiniteMap.Call K V) :
    ∃ d', call d o = some (d', (FiniteMap.call m o).2) ∧ Refines d' (FiniteMap.call m o).1 := by
  cases o with
  | insert k v => exact insert_refines h k v
  | remove k => exact remove_refines h k
  | search k =>
    refine ⟨d, ?_, h⟩
    obtain ⟨es, c, rfl, hes, -, rfl⟩ := h
    simp only [call, search_eq hes, Option.map_some, FiniteMap.call]

theorem empty_refines : Refines (Dictionary.empty : Dictionary K V) fun _ => none :=
  ⟨[], defCapacity, rfl, List.Pairwise.nil, by simp [defCapacity], rfl⟩

structure WellFormed (d : Dictionary K V) : Prop where
  bounded : d.size ≤ d.dict.length
  filled : ∀ i < d.size, ∃ e, d.dict[i]? = some (some e)
  descending : ∀ (i j : ℕ) (e f : Entry K V), i < j → d.dict[i]? = some (some e) → d.dict[j]? = some (some f) →
    f.key < e.key
  nulls : ∀ i, d.size ≤ i → i < d.dict.length → d.dict[i]? = some none

theorem Refines.wellFormed {d : Dictionary K V} {m : K → Option V} (h : Refines d m) :
    WellFormed d := by
  obtain ⟨es, c, rfl, hes, -, -⟩ := h
  have hentry : ∀ i e, (slots es c)[i]? = some (some e) → ∃ h : i < es.length, es[i] = e := by
    intro i e he
    rcases Nat.lt_or_ge i es.length with hlt | hge
    · rw [slots, List.getElem?_append_left (by simpa using hlt), List.getElem?_map,
        List.getElem?_eq_getElem hlt] at he
      exact ⟨hlt, by simpa using he⟩
    · rw [slots, List.getElem?_append_right (by simpa using hge), List.getElem?_replicate] at he
      split at he <;> cases he
  refine ⟨by simp [slots_length], ?_, ?_, ?_⟩
  · intro i hi
    exact ⟨es[i], by simp [slots, List.getElem?_append, hi]⟩
  · intro i j e f hij he hf
    obtain ⟨hi, rfl⟩ := hentry i e he
    obtain ⟨hj, rfl⟩ := hentry j f hf
    exact List.pairwise_iff_getElem.mp hes i j hi hj hij
  · intro i hge hlt
    simp only [slots_length] at hge hlt
    rw [slots, List.getElem?_append_right (by simpa using hge), List.getElem?_replicate,
      if_pos (by simp; omega)]

theorem sorted_array_map (calls : List (FiniteMap.Call K V)) :
    ∃ d, Refinement.tryRun call Dictionary.empty calls = some (d, FiniteMap.answers calls) ∧
      WellFormed d := by
  have hstep : ∀ (d : Dictionary K V) (m : K → Option V) (o : FiniteMap.Call K V), Refines d m →
      ∃ d', call d o = some (d', (FiniteMap.call m o).2) ∧ Refines d' (FiniteMap.call m o).1 :=
    fun d m o h => call_refines h o
  obtain ⟨d, hrun, hrefines⟩ := Refinement.tryRun_simulates hstep empty_refines calls
  exact ⟨d, hrun, hrefines.wellFormed⟩

end SortedArrayDictionary
