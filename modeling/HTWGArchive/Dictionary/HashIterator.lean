import HTWGArchive.Dictionary.HashGrowth

namespace HashDictionary

open BinaryTreeDictionary (Entry)
open JavaInt Slots

variable {K V : Type*}

-- `listIterator` is what its list still has to give; the outer `none` is null.
structure Iter (K V : Type*) where
  index : Int
  listIterator : Option (List (Entry K V))

def iterator : Iter K V :=
  ⟨-1, none⟩

-- The `while` loop of `hasNext`; `none` is an index out of bounds.
def advance (dict : List (Option (List (Entry K V)))) : ℕ → Iter K V → Option (Iter K V × Bool)
  | 0, _ => none
  | fuel + 1, it =>
    let index := int (it.index + 1)
    if index < dict.length then
      match slot dict index with
      | none => none
      | some none => advance dict fuel { it with index := index }
      | some (some es) => some (⟨index, some es⟩, !es.isEmpty)
    else some ({ it with index := index }, false)

def hasNext (dict : List (Option (List (Entry K V)))) (it : Iter K V) :
    Option (Iter K V × Bool) :=
  match it.listIterator with
  | some (_ :: _) => some (it, true)
  | _ => advance dict (dict.length + 1) it

-- `none` is a NullPointerException or a NoSuchElementException.
def next (it : Iter K V) : Option (Entry K V × Iter K V) :=
  match it.listIterator with
  | some (e :: es) => some (e, { it with listIterator := some es })
  | _ => none

-- `none` is a call of `hasNext` that is false, or an exception.
def ask (dict : List (Option (List (Entry K V)))) : ℕ → Iter K V → Option (Iter K V)
  | 0, it => some it
  | n + 1, it =>
    match hasNext dict it with
    | some (it', true) => ask dict n it'
    | _ => none

-- The numbers are those of the extra calls of `hasNext` before each call of `next`.
def pull (dict : List (Option (List (Entry K V)))) :
    Iter K V → List ℕ → Option (Iter K V × List (Entry K V))
  | it, [] => some (it, [])
  | it, n :: ns => do
    let it ← ask dict (n + 1) it
    let (e, it) ← next it
    let (it, es) ← pull dict it ns
    some (it, e :: es)

structure Drains (dict : List (Option (List (Entry K V)))) (extra : List ℕ) (it : Iter K V)
    (es : List (Entry K V)) (last : Iter K V) : Prop where
  pulled : pull dict iterator extra = some (it, es)
  all : es.Perm (entries dict)
  ends : hasNext dict it = some (last, false)

def Complete (dict : List (Option (List (Entry K V)))) : Prop :=
  ∀ extra : List ℕ, extra.length = (entries dict).length → ∃ it es last, Drains dict extra it es last

def NoneBehindEmptied (dict : List (Option (List (Entry K V)))) : Prop :=
  ∀ (i j : ℕ) (es : List (Entry K V)), i < j → dict[i]? = some (some []) →
    dict[j]? = some (some es) → es = []

section Position

variable {dict suf : List (Option (List (Entry K V)))} {it : Iter K V} {rest es : List (Entry K V)}
  {e : Entry K V}

-- The entries still to come are `rest` and those of the buckets `suf`.
structure At (dict : List (Option (List (Entry K V)))) (it : Iter K V) (rest : List (Entry K V))
    (suf : List (Option (List (Entry K V)))) : Prop where
  bounded : (dict.length : Int) ≤ maxValue
  split : ∃ pre, dict = pre ++ suf ∧ it.index = pre.length - 1
  left : it.listIterator.getD [] = rest

theorem at_iterator (hd : (dict.length : Int) ≤ maxValue) : At dict iterator [] dict :=
  ⟨hd,⟨[],rfl,rfl⟩,rfl⟩

theorem At.index (h : At dict it rest suf) :
    ∃ pre, dict = pre ++ suf ∧ int (it.index + 1) = (pre.length : Int) := by
  obtain ⟨hb,⟨pre,rfl,hi⟩,-⟩ := h
  refine ⟨pre,rfl,?_⟩
  rw [hi, sub_add_cancel]
  rw [List.length_append] at hb
  push_cast at hb
  exact int_eq (by unfold minValue; omega) (by omega)

theorem At.advance_nil (h : At dict it rest []) (fuel : ℕ) :
    ∃ it', advance dict (fuel + 1) it = some (it', false) := by
  obtain ⟨pre,hp,hi⟩ := h.index
  rw [List.append_nil] at hp
  subst hp
  exact ⟨_,by rw [advance, hi, if_neg (by omega)]⟩

theorem At.advance_null (h : At dict it rest (none :: suf)) (fuel : ℕ) :
    ∃ it', advance dict (fuel + 1) it = advance dict fuel it' ∧ At dict it' rest suf := by
  obtain ⟨pre,rfl,hi⟩ := h.index
  refine ⟨⟨pre.length, it.listIterator⟩,?_,h.bounded,⟨pre ++ [none],by simp,by simp⟩,h.left⟩
  rw [advance, hi, if_pos (by simp), slot_middle]

theorem At.advance_bucket (h : At dict it rest (some es :: suf)) (fuel : ℕ) :
    ∃ it', advance dict (fuel + 1) it = some (it', !es.isEmpty) ∧ At dict it' es suf := by
  obtain ⟨pre,rfl,hi⟩ := h.index
  refine ⟨⟨pre.length, some es⟩,?_,h.bounded,⟨pre ++ [some es],by simp,by simp⟩,rfl⟩
  rw [advance, hi, if_pos (by simp), slot_middle]

theorem entries_eq_nil :
    entries dict = [] ↔ ∀ (j : ℕ) (es : List (Entry K V)), dict[j]? = some (some es) → es = [] := by
  rw [List.eq_nil_iff_forall_not_mem]
  constructor
  · intro h j es hj
    rw [List.eq_nil_iff_forall_not_mem]
    exact fun e he => h e (mem_entries.mpr ⟨j,es,hj,he⟩)
  · intro h e he
    obtain ⟨j,es,hj,he⟩ := mem_entries.mp he
    rw [h j es hj] at he
    cases he

theorem noneBehindEmptied_cons {x : Option (List (Entry K V))} :
    NoneBehindEmptied (x :: suf) ↔ (x = some [] → entries suf = []) ∧ NoneBehindEmptied suf := by
  constructor
  · intro h
    refine ⟨?_,fun i j es hij hi hj => h (i + 1) (j + 1) es (by omega) hi hj⟩
    rintro rfl
    exact entries_eq_nil.mpr fun j es hj => h 0 (j + 1) es (by omega) rfl hj
  · rintro ⟨hx,hrest⟩ i j es hij hi hj
    obtain ⟨j,rfl⟩ := Nat.exists_eq_succ_of_ne_zero (by omega : j ≠ 0)
    cases i with
    | zero => exact entries_eq_nil.mp (hx (Option.some.inj hi)) j es hj
    | succ i => exact hrest i j es (by omega) hi hj

theorem noneBehindEmptied_of_nil (h : entries suf = []) : NoneBehindEmptied suf :=
  fun _ j es _ _ hj => entries_eq_nil.mp h j es hj

-- The step of the iterator: the loop finds the next entries, or stops where it must be the end.
theorem At.advance_cases {fuel : ℕ} (h : At dict it [] suf) (hf : suf.length < fuel) :
    (∃ it' e es suf', advance dict fuel it = some (it', true) ∧ At dict it' (e :: es) suf' ∧
      entries suf = e :: es ++ entries suf' ∧ iterate suf = e :: es ++ iterate suf' ∧
      (NoneBehindEmptied suf ↔ NoneBehindEmptied suf')) ∨
    ∃ it', advance dict fuel it = some (it', false) ∧ iterate suf = [] ∧
      (NoneBehindEmptied suf ↔ entries suf = []) := by
  induction suf generalizing it fuel with
  | nil =>
    obtain ⟨fuel,rfl⟩ := Nat.exists_eq_succ_of_ne_zero (by omega : fuel ≠ 0)
    obtain ⟨it',hit⟩ := h.advance_nil fuel
    exact .inr ⟨it',hit,rfl,iff_of_true (noneBehindEmptied_of_nil rfl) rfl⟩
  | cons x suf ih =>
    obtain ⟨fuel,rfl⟩ := Nat.exists_eq_succ_of_ne_zero (by omega : fuel ≠ 0)
    rw [List.length_cons] at hf
    rw [noneBehindEmptied_cons, entries_cons]
    cases x with
    | none =>
      obtain ⟨it₁,hit,h₁⟩ := h.advance_null fuel
      rw [hit, iterate]
      simpa using ih h₁ (by omega)
    | some es =>
      obtain ⟨it₁,hit,h₁⟩ := h.advance_bucket fuel
      cases es with
      | nil =>
        refine .inr ⟨it₁,hit,rfl,?_⟩
        simpa using fun hnil => noneBehindEmptied_of_nil hnil
      | cons e es => exact .inl ⟨it₁,e,es,suf,hit,h₁,rfl,rfl,by simp⟩

theorem At.hasNext_ready (h : At dict it (e :: es) suf) : hasNext dict it = some (it, true) := by
  have hl := h.left
  unfold hasNext
  cases hli : it.listIterator with
  | none => simp [hli] at hl
  | some fs =>
    obtain rfl : fs = e :: es := by simpa [hli] using hl
    rfl

theorem At.next (h : At dict it (e :: es) suf) :
    ∃ it', next it = some (e, it') ∧ At dict it' es suf := by
  obtain ⟨hb,hs,hl⟩ := h
  cases hli : it.listIterator with
  | none => simp [hli] at hl
  | some fs =>
    obtain rfl : fs = e :: es := by simpa [hli] using hl
    exact ⟨⟨it.index, some es⟩,by rw [HashDictionary.next, hli],hb,hs,rfl⟩

theorem At.hasNext_cases (h : At dict it rest suf) :
    (∃ it' e es suf', hasNext dict it = some (it', true) ∧ At dict it' (e :: es) suf' ∧
      rest ++ entries suf = e :: es ++ entries suf' ∧
      rest ++ iterate suf = e :: es ++ iterate suf' ∧
      (NoneBehindEmptied suf ↔ NoneBehindEmptied suf')) ∨
    ∃ it', hasNext dict it = some (it', false) ∧ rest ++ iterate suf = [] ∧
      (NoneBehindEmptied suf ↔ rest ++ entries suf = []) := by
  cases rest with
  | cons e es => exact .inl ⟨it,e,es,suf,h.hasNext_ready,h,rfl,rfl,Iff.rfl⟩
  | nil =>
    have hfuel : suf.length < dict.length + 1 := by
      obtain ⟨pre,rfl,-⟩ := h.split
      rw [List.length_append]
      omega
    have hmore : hasNext dict it = advance dict (dict.length + 1) it := by
      have hl := h.left
      unfold hasNext
      cases hli : it.listIterator with
      | none => rfl
      | some fs =>
        obtain rfl : fs = [] := by simpa [hli] using hl
        rfl
    rw [hmore]
    exact h.advance_cases hfuel

theorem At.ask_ready (h : At dict it (e :: es) suf) (n : ℕ) : ask dict n it = some it := by
  induction n with
  | zero => rfl
  | succ n ih => simpa [ask, h.hasNext_ready] using ih

theorem At.pull_all {extra : List ℕ} (h : At dict it rest suf) (hs : NoneBehindEmptied suf)
    (hl : extra.length = (rest ++ entries suf).length) :
    ∃ it' last, pull dict it extra = some (it', rest ++ entries suf) ∧
      hasNext dict it' = some (last, false) := by
  induction extra generalizing it rest suf with
  | nil =>
    have hnil : rest ++ entries suf = [] := List.length_eq_zero_iff.mp hl.symm
    rcases h.hasNext_cases with ⟨it',e,es,suf',-,-,heq,-,-⟩ | ⟨last,hlast,-,-⟩
    · rw [hnil] at heq
      cases heq
    · exact ⟨it,last,by rw [hnil]; rfl,hlast⟩
  | cons n extra ih =>
    rcases h.hasNext_cases with ⟨it₁,e,es,suf',hmore,h₁,heq,-,hiff⟩ | ⟨last,-,-,hiff⟩
    · obtain ⟨it₂,hnext,h₂⟩ := h₁.next
      rw [heq] at hl
      obtain ⟨it',last,hpull,hlast⟩ := ih h₂ (hiff.mp hs) (Nat.succ.inj hl)
      refine ⟨it',last,?_,hlast⟩
      simp only [pull, ask, hmore, h₁.ask_ready, hnext, hpull, Option.bind_eq_bind,
        Option.bind_some]
      rw [heq]
      rfl
    · rw [hiff.mp hs] at hl
      cases hl

theorem At.of_pull {extra : List ℕ} (h : At dict it rest suf)
    (hl : extra.length = (rest ++ entries suf).length) {r : Iter K V × List (Entry K V)}
    (hp : pull dict it extra = some r) : NoneBehindEmptied suf := by
  induction extra generalizing it rest suf r with
  | nil =>
    have hnil : rest ++ entries suf = [] := List.length_eq_zero_iff.mp hl.symm
    exact noneBehindEmptied_of_nil (List.append_eq_nil_iff.mp hnil).2
  | cons n extra ih =>
    rcases h.hasNext_cases with ⟨it₁,e,es,suf',hmore,h₁,heq,-,hiff⟩ | ⟨last,hlast,-,-⟩
    · obtain ⟨it₂,hnext,h₂⟩ := h₁.next
      simp only [pull, ask, hmore, h₁.ask_ready, hnext, Option.bind_eq_bind,
        Option.bind_some] at hp
      obtain ⟨r₂,hr₂,-⟩ := Option.bind_eq_some_iff.mp hp
      rw [heq] at hl
      exact hiff.mpr (ih h₂ (Nat.succ.inj hl) hr₂)
    · simp [pull, ask, hlast] at hp

end Position

theorem complete_iff {dict : List (Option (List (Entry K V)))}
    (hd : (dict.length : Int) ≤ maxValue) : Complete dict ↔ NoneBehindEmptied dict := by
  have hstart := at_iterator hd
  constructor
  · intro h
    obtain ⟨it,es,last,hdr⟩ := h (List.replicate (entries dict).length 0) (by simp)
    exact hstart.of_pull (by simp) hdr.pulled
  · intro h extra hl
    obtain ⟨it,last,hpull,hlast⟩ := hstart.pull_all h (by simpa using hl)
    exact ⟨it,_,last,hpull,.refl _,hlast⟩

section ForEach

-- A for-each loop calls `hasNext` once before each `next`.
def forEach (dict : List (Option (List (Entry K V)))) :
    ℕ → Iter K V → Option (List (Entry K V))
  | 0, _ => none
  | fuel + 1, it => do
    let (it, more) ← hasNext dict it
    if more then do
      let (e, it) ← next it
      let es ← forEach dict fuel it
      some (e :: es)
    else some []

variable {dict suf : List (Option (List (Entry K V)))} {it : Iter K V} {rest : List (Entry K V)}

theorem At.forEach {fuel : ℕ} (h : At dict it rest suf)
    (hf : (rest ++ iterate suf).length < fuel) :
    forEach dict fuel it = some (rest ++ iterate suf) := by
  induction fuel generalizing it rest suf with
  | zero => omega
  | succ fuel ih =>
    rcases h.hasNext_cases with ⟨it₁,e,es,suf',hmore,h₁,-,heq,-⟩ | ⟨last,hlast,hnil,-⟩
    · obtain ⟨it₂,hnext,h₂⟩ := h₁.next
      rw [heq, List.cons_append, List.length_cons] at hf
      simp [HashDictionary.forEach, hmore, hnext, ih h₂ (by omega), heq]
    · simp [HashDictionary.forEach, hlast, hnil]

-- The list that `ensurecapacity` copies is what its for-each loop is given.
theorem forEach_iterator (hd : (dict.length : Int) ≤ maxValue) {fuel : ℕ}
    (hf : (entries dict).length < fuel) : HashDictionary.forEach dict fuel iterator =
      some (iterate dict) :=
  (at_iterator hd).forEach (lt_of_le_of_lt (iterate_sublist dict).length_le hf)

end ForEach

section Kept

variable [Key K]

-- What every array of buckets keeps that a run can reach, whatever an enlargement loses.
structure Kept (P : List (Option (List (Entry K V))) → Prop) : Prop where
  create : ∀ {key load : Int} {d : Dictionary K V}, load ≤ maxValue → create key load = some d →
    P d.dict
  put : ∀ {d d' : Dictionary K V} {k : K} {v : V} {r : Option V}, put d k v = some (d', r) →
    P d.dict → P d'.dict
  remove : ∀ {d d' : Dictionary K V} {k : K} {r : Option V}, remove d k = some (d', r) →
    P d.dict → P d'.dict

omit [Key K] in
theorem getprimeFrom_le {fuel : ℕ} {i : Int} (hi : i ≤ maxValue) : getprimeFrom fuel i ≤ maxValue := by
  induction fuel generalizing i with
  | zero => exact hi
  | succ fuel ih =>
    rw [getprimeFrom]
    split_ifs
    · exact (int_range _).2
    · exact ih (int_range _).2

variable {P : List (Option (List (Entry K V))) → Prop} {d d' : Dictionary K V} {depth : ℕ}

theorem Kept.putAll (h : Kept P) {grow : Dictionary K V → Option (Dictionary K V)}
    (hg : ∀ d d', grow d = some d' → P d.dict → P d'.dict) {es : List (Entry K V)}
    (hp : putAll grow d es = some d') (hd : P d.dict) : P d'.dict := by
  induction es generalizing d with
  | nil =>
    obtain rfl := Option.some.inj hp
    exact hd
  | cons e es ih =>
    simp only [HashDictionary.putAll, Option.bind_eq_bind, Option.bind_eq_some_iff] at hp
    obtain ⟨d₁,hd₁,x,hx,hp⟩ := hp
    exact ih hp (h.put hx (hg d d₁ hd₁ hd))

theorem Kept.ensurecapacity (h : Kept P) (he : ensurecapacity depth d = some d') (hd : P d.dict) :
    P d'.dict := by
  induction depth generalizing d d' with
  | zero =>
    unfold HashDictionary.ensurecapacity at he
    split_ifs at he
    obtain rfl := Option.some.inj he
    exact hd
  | succ depth ih =>
    unfold HashDictionary.ensurecapacity at he
    split_ifs at he
    · simp only [Option.bind_eq_bind, Option.bind_eq_some_iff] at he
      obtain ⟨c,hc,b,hb,he⟩ := he
      obtain rfl := Option.some.inj he
      have hmax : getprime (enlarged d.load) ≤ maxValue := getprimeFrom_le (min_le_right _ _)
      have hb : P b.dict := h.putAll (fun d d' hdd hd => ih hdd hd) hb (h.create hmax hc)
      exact hb
    · obtain rfl := Option.some.inj he
      exact hd

theorem Kept.call (h : Kept P) {c : FiniteMap.Call K V} {r : Option V}
    (hc : call depth d c = some (d', r)) (hd : P d.dict) : P d'.dict := by
  cases c with
  | insert k v =>
    obtain ⟨d₁,hd₁,hp⟩ := Option.bind_eq_some_iff.mp hc
    exact h.put hp (h.ensurecapacity hd₁ hd)
  | remove k => exact h.remove hc hd
  | search k =>
    obtain ⟨x,-,hx⟩ := Option.map_eq_some_iff.mp hc
    obtain ⟨rfl,-⟩ := Prod.mk.inj hx
    exact hd

theorem Kept.run (h : Kept P) {key load : Int} (hl : load ≤ maxValue)
    (hc : HashDictionary.create key load = some d) {calls : List (FiniteMap.Call K V)}
    {rs : List (Option V)}
    (hr : Refinement.tryRun (HashDictionary.call depth) d calls = some (d', rs)) : P d'.dict :=
  Refinement.tryRun_inv (fun _ _ _ _ hs hd => h.call hs hd) hr (h.create hl hc)

theorem kept_length :
    Kept fun dict : List (Option (List (Entry K V))) => (dict.length : Int) ≤ maxValue where
  create hl hc := by
    unfold HashDictionary.create at hc
    split_ifs at hc with hneg
    obtain rfl := Option.some.inj hc
    simp only [List.length_replicate]
    omega
  put hp hd := by
    obtain ⟨i,b,dict,-,-,⟨-,-,hw,rfl⟩ | ⟨es,-,-,-,hw,rfl⟩⟩ := put_inv hp
    · exact (write_length hw).symm ▸ hd
    · exact (write_length hw).symm ▸ hd
  remove hr hd := by
    obtain ⟨i,es,-,-,⟨-,-,rfl⟩ | ⟨old,dict,-,-,hw,rfl⟩⟩ := remove_inv hr
    · exact hd
    · exact (write_length hw).symm ▸ hd

end Kept

theorem iteration_complete_iff [Key K] (depth : ℕ) {key load : Int} (hl : load ≤ maxValue)
    {d₀ d : Dictionary K V} (hc : create key load = some d₀) {calls : List (FiniteMap.Call K V)}
    {rs : List (Option V)} (hr : Refinement.tryRun (call depth) d₀ calls = some (d, rs)) :
    Complete d.dict ↔ NoneBehindEmptied d.dict :=
  complete_iff (kept_length.run hl hc hr)

deriving instance DecidableEq for Dictionary

theorem iteration_complete_one_key :
    Complete [none, some [(⟨[97], 2⟩ : Entry (List UInt16) ℕ)], none] := by
  have hr : Refinement.tryRun (call 1) ⟨3, 0, 3, [none, none, none]⟩
      [.insert ([97] : List UInt16) 2] =
        some (⟨3, 1, 3, [none, some [⟨[97], 2⟩], none]⟩, [none]) := by decide +kernel
  refine (iteration_complete_iff 1 (show (3 : Int) ≤ maxValue by decide) rfl hr).mpr ?_
  rintro i j es - hi -
  match i with
  | 0 | 1 | 2 => cases hi
  | i + 3 => cases hi

-- The bucket of "b" is emptied, so that the entry of "a" behind it is not visited.
theorem emptied_bucket_ends_iteration :
    ∃ (d₀ d : Dictionary (List UInt16) ℕ) (rs : List (Option ℕ)), create 3 3 = some d₀ ∧
      Refinement.tryRun (call 1) d₀ [.insert [98] 1, .insert [97] 2, .remove [98]] =
        some (d, rs) ∧ ¬ Complete d.dict := by
  refine ⟨_,⟨3, 2, 3, [some [], some [⟨[97], 2⟩], none]⟩,[none, none, some 1],rfl,by decide +kernel,fun h => ?_⟩
  obtain ⟨it,es,last,h⟩ := h [0] rfl
  cases h.pulled

end HashDictionary
