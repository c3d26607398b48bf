import HTWGArchive.ConditionVariables.BoundedBuffer

namespace BoundedBuffer

open Monitor

variable {o : Options} {s : Shared o} {t u : Thread o} {l : Local}

def mine (history : List (Thread o × ℤ)) (t : Thread o) : List ℤ :=
  (history.filter (fun x => x.1 = t)).map Prod.snd

theorem mine_snoc_self (history : List (Thread o × ℤ)) (t : Thread o) (value : ℤ) :
    mine (history ++ [(t, value)]) t = mine history t ++ [value] := by
  simp [mine]

theorem mine_snoc_of_ne (history : List (Thread o × ℤ)) (h : u ≠ t) (value : ℤ) :
    mine (history ++ [(t, value)]) u = mine history u := by
  simp [mine, h.symm]

def items (o : Options) (id n : ℕ) : List ℤ :=
  (List.range n).map (fun i : ℕ => base o id + i)

theorem items_succ (o : Options) (id n : ℕ) :
    items o id (n + 1) = items o id n ++ [base o id + n] := by
  rw [items, List.range_succ, List.map_append]
  rfl

@[simp] theorem items_length (o : Options) (id n : ℕ) : (items o id n).length = n := by
  simp [items]

def Fits (o : Options) : Prop :=
  o.producers * o.loops ≤ 2 ^ 31

theorem base_eq (hfits : Fits o) {id : ℕ} (hid : id < o.producers) :
    base o id = ((id * o.loops : ℕ) : ℤ) := by
  have hle : id * o.loops ≤ (o.producers - 1) * o.loops :=
    Nat.mul_le_mul_right o.loops (by omega)
  have hsplit : (o.producers - 1) * o.loops + o.loops = o.producers * o.loops := by
    rw [← Nat.succ_mul]
    congr 1
    omega
  have hloops := o.loops_pos
  rw [Fits] at hfits
  unfold base
  exact Int.bmod_eq_of_le (by omega) (by omega)

theorem item_nonneg (hfits : Fits o) {id : ℕ} (hid : id < o.producers) (i : ℕ) :
    0 ≤ base o id + i := by
  rw [base_eq hfits hid]
  omega

structure Good (o : Options) (queue : List ℤ) (s : Shared o) : Prop where
  holds : RingBuffer.Holds empty o.max s.buffer.buffer s.buffer.usePtr s.buffer.fillPtr queue
  numFull : s.buffer.numFull = queue.length
  order : s.filled.map Prod.snd = s.got.map Prod.snd ++ queue
  values : ∀ x ∈ s.filled, x.2 ≠ empty
  fillers : ∀ x ∈ s.filled, ∀ u, x.1 = some u → u.val < o.producers
  getters : ∀ x ∈ s.got, ∃ u : Fin _, x.1 = some u ∧ o.producers ≤ u.val
  markers : ∀ x ∈ s.filled, x.1 ≠ none → x.2 ≠ endOfStream

variable {queue : List ℤ}

theorem Good.fill (h : Good o queue s) (hlt : s.buffer.numFull < o.max) {value : ℤ}
    (hvalue : value ≠ empty) (ht : ∀ u, t = some u → u.val < o.producers)
    (hmark : t ≠ none → value ≠ endOfStream) :
    ∃ buffer, doFill o.max s.buffer value = some buffer ∧
      buffer.numFull = s.buffer.numFull + 1 ∧
      Good o (queue ++ [value])
        { s with buffer := buffer, filled := s.filled ++ [(t, value)] } := by
  have hlength : queue.length < o.max := h.numFull ▸ hlt
  have hempty := h.holds.fill_empty hlength
  refine ⟨_, if_pos hempty, rfl, h.holds.push hlength value, ?_, ?_, ?_, ?_, h.getters, ?_⟩
  · simp [h.numFull]
  · simp [h.order]
  · intro x hx
    rcases List.mem_append.mp hx with hold | hnew
    · exact h.values x hold
    · obtain rfl := List.mem_singleton.mp hnew
      exact hvalue
  · intro x hx
    rcases List.mem_append.mp hx with hold | hnew
    · exact h.fillers x hold
    · obtain rfl := List.mem_singleton.mp hnew
      exact ht
  · intro x hx
    rcases List.mem_append.mp hx with hold | hnew
    · exact h.markers x hold
    · obtain rfl := List.mem_singleton.mp hnew
      exact hmark

theorem Good.get (h : Good o queue s) (hlt : 0 < s.buffer.numFull)
    (ht : ∃ u : Fin _, t = some u ∧ o.producers ≤ u.val) :
    ∃ value buffer rest, doGet o.max s.buffer = some (value, buffer) ∧
      buffer.numFull + 1 = s.buffer.numFull ∧
      Good o rest { s with buffer := buffer, got := s.got ++ [(t, value)] } := by
  rw [h.numFull] at hlt
  obtain ⟨value, rest, rfl⟩ := List.exists_cons_of_length_pos hlt
  obtain ⟨hcell, hholds⟩ := h.holds.pop
  have hmem : value ∈ s.filled.map Prod.snd := by simp [h.order]
  obtain ⟨x, hx, hvalue⟩ := List.mem_map.mp hmem
  have hne : s.buffer.buffer s.buffer.usePtr ≠ empty := by
    rw [hcell, ← hvalue]
    exact h.values x hx
  have hnum := h.numFull
  rw [List.length_cons] at hnum
  refine ⟨value, ⟨Function.update s.buffer.buffer s.buffer.usePtr empty,
    (s.buffer.usePtr + 1) % o.max, s.buffer.fillPtr, s.buffer.numFull - 1⟩, rest, ?_, ?_, hholds,
    ?_, ?_, h.values, h.fillers, ?_, h.markers⟩
  · rw [doGet, if_pos hne, hcell]
  · show s.buffer.numFull - 1 + 1 = s.buffer.numFull
    omega
  · show s.buffer.numFull - 1 = rest.length
    omega
  · simp [h.order]
  · intro x hx
    rcases List.mem_append.mp hx with hold | hnew
    · exact h.getters x hold
    · obtain rfl := List.mem_singleton.mp hnew
      exact ht

def Point.after : Point → ℕ
  | .signal => 1
  | .unlock => 1
  | _ => 0

def Local.inside : Local → Prop
  | .producer _ _ p => p ≠ .loop
  | .consumer _ _ p => p ≠ .loop
  | .endOfStreams _ p => p ≠ .loop
  | _ => False

def Full (s : Shared o) : Prop :=
  ∀ u : Fin (o.producers + o.consumers), u.val < o.producers →
    mine s.filled (some u) = items o u o.loops

def Closed (s : Shared o) (n : ℕ) : Prop :=
  ∃ xs, s.filled = xs ++ List.replicate n (none, endOfStream) ∧ ∀ x ∈ xs, x.1 ≠ none

def Collected (s : Shared o) (u : Thread o) (count : ℤ) : Prop :=
  ∃ ns : List ℤ, mine s.got u = ns ++ [endOfStream] ∧ endOfStream ∉ ns ∧ count = ns.length

-- What a thread has done so far.
def own (o : Options) (t : Thread o) : Local → Shared o → Prop
  | .producer id i p, s => (∃ u : Fin _, t = some u ∧ u.val = id) ∧ id < o.producers ∧
      i + (if p = .loop then 0 else 1) ≤ o.loops ∧ mine s.filled t = items o id (i + p.after)
  | .consumer tmp consumedCount p, s => (∃ u : Fin _, t = some u ∧ o.producers ≤ u.val) ∧
      (p = .test ∨ p = .access → tmp ≠ endOfStream) ∧
      (mine s.got t).length = consumedCount + p.after ∧ ∃ ns,
        mine s.got t = ns ++ (if tmp = endOfStream then [endOfStream] else []) ∧ endOfStream ∉ ns
  | .joinProducers i, s => t = none ∧ i ≤ o.producers ∧ Closed s 0 ∧
      ∀ u : Fin (o.producers + o.consumers), u.val < i → mine s.filled (some u) = items o u o.loops
  | .endOfStreams i p, s => t = none ∧ i + (if p = .loop then 0 else 1) ≤ o.consumers ∧ Full s ∧
      Closed s (i + p.after)
  | .joinConsumers i counts, s => t = none ∧ i ≤ o.consumers ∧ Full s ∧ Closed s o.consumers ∧
      counts.length = i ∧ ∀ (j : ℕ) (hj : j < counts.length) (u : Fin (o.producers + o.consumers)),
        u.val = o.producers + j → Collected s (some u) counts[j]
  | .exited, _ => False

def knows (o : Options) : Local → Shared o → Prop
  | .producer _ _ .access, s => s.buffer.numFull < o.max
  | .endOfStreams _ .access, s => s.buffer.numFull < o.max
  | .consumer _ _ .access, s => 0 < s.buffer.numFull
  | _, _ => True

def spec (o : Options) : Spec (Thread o) Local (Shared o) where
  inside := Local.inside
  good s := ∃ queue, Good o queue s
  own := own o
  knows := knows o

-- Nobody's own facts change when another thread fills, for the producers had to be through
-- before `main` started.
theorem own_fill {k : Local} (h : own o u k s) (hne : u ≠ t)
    (hopen : ∀ w : Fin _, t = some w → w.val < o.producers ∧
      mine s.filled t ≠ items o w o.loops) (buffer : Buffer) (value : ℤ) :
    own o u k { s with buffer := buffer, filled := s.filled ++ [(t, value)] } := by
  have hfull : u = none → ¬ Full s := by
    intro hu hfull
    cases t with
    | none => exact hne hu
    | some w => exact (hopen w rfl).2 (hfull w (hopen w rfl).1)
  cases k with
  | producer id i p =>
    obtain ⟨hid, hlt, hi, hmine⟩ := h
    exact ⟨hid, hlt, hi, (mine_snoc_of_ne _ hne value).trans hmine⟩
  | consumer tmp consumedCount p => exact h
  | joinProducers i =>
    obtain ⟨hu, hi, hclosed, hjoined⟩ := h
    refine ⟨hu, hi, ?_, ?_⟩
    · obtain ⟨xs, hxs, htags⟩ := hclosed
      refine ⟨xs ++ [(t, value)], ?_, ?_⟩
      · simpa using hxs
      · intro x hx
        rcases List.mem_append.mp hx with hold | hnew
        · exact htags x hold
        · obtain rfl := List.mem_singleton.mp hnew
          exact fun ht => hne (hu.trans ht.symm)
    · intro w hw
      have hw' : some w ≠ t := fun heq => (hopen w heq.symm).2 (heq ▸ hjoined w hw)
      exact (mine_snoc_of_ne _ hw' value).trans (hjoined w hw)
  | endOfStreams i p => exact absurd h.2.2.1 (hfull h.1)
  | joinConsumers i counts => exact absurd h.2.2.1 (hfull h.1)
  | exited => exact h

theorem own_get {k : Local} (h : own o u k s) (hne : u ≠ t) (hopen : endOfStream ∉ mine s.got t)
    (buffer : Buffer) (value : ℤ) :
    own o u k { s with buffer := buffer, got := s.got ++ [(t, value)] } := by
  cases k with
  | consumer tmp consumedCount p =>
    obtain ⟨hid, hp, hlength, ns, hmine, hns⟩ := h
    have hsame := mine_snoc_of_ne s.got hne value
    refine ⟨hid, hp, ?_, ns, hsame.trans hmine, hns⟩
    show (mine (s.got ++ [(t, value)]) u).length = _
    rw [hsame]
    exact hlength
  | joinConsumers i counts =>
    obtain ⟨hu, hi, hfull, hclosed, hlength, hcounts⟩ := h
    refine ⟨hu, hi, hfull, hclosed, hlength, ?_⟩
    intro j hj w hw
    obtain ⟨ns, hmine, hns, hcount⟩ := hcounts j hj w hw
    have hw' : some w ≠ t := by
      rintro rfl
      rw [hmine] at hopen
      exact hopen (List.mem_append_right _ List.mem_cons_self)
    exact ⟨ns, (mine_snoc_of_ne _ hw' value).trans hmine, hns, hcount⟩
  | _ => exact h

theorem closed_snoc {n : ℕ} (h : Closed s n) (buffer : Buffer) :
    Closed { s with buffer := buffer, filled := s.filled ++ [(none, endOfStream)] } (n + 1) := by
  obtain ⟨xs, hxs, htags⟩ := h
  refine ⟨xs, ?_, htags⟩
  show s.filled ++ _ = _
  rw [hxs, List.append_assoc, List.replicate_succ']

theorem full_snoc (h : Full s) (buffer : Buffer) (value : ℤ) :
    Full { s with buffer := buffer, filled := s.filled ++ [(none, value)] } := by
  intro u hu
  exact (mine_snoc_of_ne s.filled (Option.some_ne_none u) value).trans (h u hu)

theorem endOfStream_ne : endOfStream ≠ empty := by decide

-- A thread in the body that fills: `done` tells what it has filled before and after.
structure Filler (t : Thread o) (value : ℤ) (here : Point → Local) (next : Local)
    (done : ℕ → Shared o → Prop) : Prop where
  inside : ∀ p, (here p).inside ↔ p ≠ .loop
  leaves : ¬ next.inside
  filled : value ≠ empty
  tag : ∀ u, t = some u → u.val < o.producers
  marks : t ≠ none → value ≠ endOfStream
  knows : ∀ p s, knows o (here p) s ↔ (p = .access → s.buffer.numFull < o.max)
  own : ∀ p s, p ≠ .loop → (own o t (here p) s ↔ done p.after s)
  fills : ∀ s buffer, done 0 s →
    done 1 { s with buffer := buffer, filled := s.filled ++ [(t, value)] }
  next : ∀ s, done 1 s → BoundedBuffer.own o t next s
  opens : ∀ s, done 0 s → ∀ w : Fin _, t = some w → mine s.filled t ≠ items o w o.loops

variable {value : ℤ} {here : Point → Local} {next : Local} {done : ℕ → Shared o → Prop} {p : Point}

theorem Filler.entry (h : Filler t value here next done) : (spec o).entry (here .test) := by
  refine ⟨(h.inside .test).mpr (by simp), ?_⟩
  intro s _
  exact (h.knows .test s).mpr (by simp)

theorem Filler.allows (h : Filler t value here next done) (hp : p ≠ .loop)
    (hat : (spec o).At t (here p) s) :
    (spec o).Allows (act o) t (here p) s (filling t value here next s p) := by
  obtain ⟨⟨queue, hgood⟩, hown, hknows⟩ := hat
  have hin : (here p).inside := (h.inside p).mpr hp
  have hdone := (h.own p s hp).mp hown
  cases p with
  | loop => exact absurd rfl hp
  | test =>
    simp only [filling]
    split
    · exact ⟨hin, h.entry, hown⟩
    · rename_i hfull
      refine ⟨?_, Or.inl hin, ⟨queue, hgood⟩, ?_, (h.own .access s (by simp)).mpr hdone,
        fun _ _ _ hu => hu⟩
      · exact iff_of_true ((h.inside .access).mpr (by simp)) hin
      · intro _
        refine (h.knows .access s).mpr (fun _ => ?_)
        have hle := hgood.holds.length_le
        rw [← hgood.numFull] at hle
        exact lt_of_le_of_ne hle hfull
  | access =>
    have hlt := (h.knows .access s).mp (hknows hin) rfl
    obtain ⟨buffer, hfill, -, hgood'⟩ := hgood.fill hlt h.filled h.tag h.marks
    simp only [filling, hfill]
    refine ⟨?_, Or.inl hin, ⟨_, hgood'⟩, ?_, ?_, ?_⟩
    · exact iff_of_true ((h.inside .signal).mpr (by simp)) hin
    · intro _
      exact (h.knows .signal _).mpr (by simp)
    · exact (h.own .signal _ (by simp)).mpr (h.fills s buffer hdone)
    · intro u k hne hu
      exact own_fill hu hne (fun w hw => ⟨h.tag w hw, h.opens s hdone w hw⟩) buffer value
  | signal =>
    refine ⟨hin, (h.inside .unlock).mpr (by simp), (h.knows .unlock s).mpr (by simp), ?_⟩
    exact (h.own .unlock s (by simp)).mpr hdone
  | unlock => exact ⟨hin, h.leaves, h.next s hdone⟩

theorem producer_filler (hfits : Fits o) (u : Fin (o.producers + o.consumers))
    (hu : u.val < o.producers) {i : ℕ} (hi : i < o.loops) :
    Filler (some u) (base o u + i) (.producer u i) (.producer u (i + 1) .loop)
      (fun n s => mine s.filled (some u) = items o u (i + n)) := by
  have hnonneg := item_nonneg hfits hu i
  refine ⟨fun _ => Iff.rfl, fun hin => hin rfl, ?_, ?_, ?_, ?_, ?_, ?_, ?_, ?_⟩
  · simp only [empty]
    omega
  · intro w hw
    cases hw
    exact hu
  · intro _
    simp only [endOfStream]
    omega
  · intro p s
    cases p <;> simp [knows]
  · intro p s hp
    have hi' : i + 1 ≤ o.loops := hi
    simp [own, hp, hu, hi']
  · intro s buffer hmine
    rw [items_succ]
    exact (mine_snoc_self s.filled _ _).trans (congrArg (· ++ _) hmine)
  · intro s hmine
    exact ⟨⟨u, rfl, rfl⟩, hu, hi, hmine⟩
  · intro s hmine w hw heq
    cases hw
    have hlength := congrArg List.length (hmine.symm.trans heq)
    simp only [items_length, Nat.add_zero] at hlength
    omega

theorem endOfStreams_filler {i : ℕ} (hi : i < o.consumers) :
    Filler (none : Thread o) endOfStream (.endOfStreams i) (.endOfStreams (i + 1) .loop)
      (fun n s => Full s ∧ Closed s (i + n)) := by
  refine ⟨fun _ => Iff.rfl, fun hin => hin rfl, by decide, ?_, ?_, ?_, ?_, ?_, ?_, ?_⟩
  · intro w hw
    cases hw
  · intro hnone
    exact absurd rfl hnone
  · intro p s
    cases p <;> simp [knows]
  · intro p s hp
    have hi' : i + 1 ≤ o.consumers := hi
    simp [own, hp, hi']
  · intro s buffer hdone
    exact ⟨full_snoc hdone.1 buffer _, closed_snoc hdone.2 buffer⟩
  · intro s hdone
    exact ⟨rfl, hi, hdone⟩
  · intro s _ w hw
    cases hw

theorem producer_allows (hfits : Fits o) {id i : ℕ} (h : (spec o).At t (.producer id i p) s) :
    (spec o).Allows (act o) t (.producer id i p) s (producer t id i s p) := by
  obtain ⟨⟨u, rfl, rfl⟩, hlt, hi, hmine⟩ := h.own
  by_cases hp : p = .loop
  · subst hp
    unfold producer
    split
    · exact fun hin => hin rfl
    · rename_i hmore
      have hmore' : i < o.loops := by simpa using hmore
      exact ⟨fun hin => hin rfl, (producer_filler hfits u hlt hmore').entry, ⟨u, rfl, rfl⟩, hlt,
        hmore', hmine⟩
  · have hi' : i < o.loops := by
      rw [if_neg hp] at hi
      exact hi
    rw [producer, if_neg (fun hend => hp hend.1)]
    exact (producer_filler hfits u hlt hi').allows hp h

theorem endOfStreams_allows {i : ℕ} (h : (spec o).At t (.endOfStreams i p) s) :
    (spec o).Allows (act o) t (.endOfStreams i p) s (act o t (.endOfStreams i p) s) := by
  obtain ⟨rfl, hi, hfull, hclosed⟩ := h.own
  by_cases hp : p = .loop
  · subst hp
    simp only [act]
    split
    · rename_i hend
      have heq : i = o.consumers := le_antisymm hi hend.2
      subst heq
      refine ⟨?_, Or.inr rfl, h.good, fun hin => hin.elim, ?_, fun _ _ _ hu => hu⟩
      · exact iff_of_false id (fun hin => hin rfl)
      · refine ⟨rfl, Nat.zero_le _, hfull, hclosed, rfl, ?_⟩
        intro j hj
        exact absurd hj (Nat.not_lt_zero j)
    · rename_i hmore
      have hmore' : i < o.consumers := by simpa using hmore
      exact ⟨fun hin => hin rfl, (endOfStreams_filler hmore').entry, rfl, hmore', hfull, hclosed⟩
  · have hi' : i < o.consumers := by
      rw [if_neg hp] at hi
      exact hi
    simp only [act]
    rw [if_neg (fun hend => hp hend.1)]
    exact (endOfStreams_filler hi').allows hp h

theorem consumer_allows {tmp : ℤ} {consumedCount : ℕ}
    (h : (spec o).At t (.consumer tmp consumedCount p) s) :
    (spec o).Allows (act o) t (.consumer tmp consumedCount p) s
      (consumer t tmp consumedCount s p) := by
  obtain ⟨⟨queue, hgood⟩, ⟨hid, htmp, hlength, ns, hmine, hns⟩, hknows⟩ := h
  have hentry : (spec o).entry (.consumer tmp consumedCount .test) := by
    simp [Spec.entry, spec, Local.inside, knows]
  cases p with
  | loop =>
    simp only [consumer]
    split
    · rename_i hmore
      exact ⟨fun hin => hin rfl, hentry, hid, fun _ => hmore, hlength, ns, hmine, hns⟩
    · exact fun hin => hin rfl
  | test =>
    have hmore := htmp (Or.inl rfl)
    simp only [consumer]
    split
    · exact ⟨by simp [spec, Local.inside], hentry, hid, fun _ => hmore, hlength, ns, hmine, hns⟩
    · rename_i hsome
      refine ⟨?_, Or.inr rfl, ⟨queue, hgood⟩, fun _ => Nat.pos_of_ne_zero hsome, ?_,
        fun _ _ _ hu => hu⟩
      · simp [spec, Local.inside]
      · exact ⟨hid, fun _ => hmore, hlength, ns, hmine, hns⟩
  | access =>
    have hmore := htmp (Or.inr rfl)
    rw [if_neg hmore, List.append_nil] at hmine
    have hlt : 0 < s.buffer.numFull := hknows (by simp [spec, Local.inside])
    obtain ⟨value, buffer, rest, hget, -, hgood'⟩ := hgood.get hlt hid
    have hnew := mine_snoc_self s.got t value
    simp only [consumer, hget]
    refine ⟨?_, Or.inl ?_, ⟨rest, hgood'⟩, fun _ => trivial, ⟨hid, ?_, ?_, ?_⟩, ?_⟩
    · simp [spec, Local.inside]
    · simp [spec, Local.inside]
    · simp
    · show (mine (s.got ++ [(t, value)]) t).length = _
      rw [hnew, List.length_append, hlength]
      rfl
    · show ∃ ns, mine (s.got ++ [(t, value)]) t = _ ∧ _
      rw [hnew, hmine]
      by_cases hvalue : value = endOfStream
      · exact ⟨ns, by rw [if_pos hvalue, hvalue], hns⟩
      · refine ⟨ns ++ [value], by rw [if_neg hvalue, List.append_nil], ?_⟩
        intro hmem
        rcases List.mem_append.mp hmem with hold | heq
        · exact hns hold
        · exact hvalue (List.mem_singleton.mp heq).symm
    · intro u k hne hu
      exact own_get hu hne (hmine ▸ hns) buffer value
  | signal =>
    refine ⟨?_, ?_, trivial, hid, ?_, hlength, ns, hmine, hns⟩
    · simp [spec, Local.inside]
    · simp [spec, Local.inside]
    · simp
  | unlock =>
    refine ⟨?_, ?_, hid, ?_, hlength, ns, hmine, hns⟩
    · simp [spec, Local.inside]
    · simp [spec, Local.inside]
    · simp

theorem filling_ne_ended (t : Thread o) (value : ℤ) (here : Point → Local) (next : Local)
    (s : Shared o) (p : Point) : filling t value here next s p ≠ .ended := by
  cases p with
  | test =>
    simp only [filling]
    split <;> simp
  | access =>
    simp only [filling]
    split <;> simp
  | _ => simp [filling]

-- A producer that has ended has filled all its items.
theorem producer_ended {k : Local} (hu : ∃ w : Fin _, u = some w ∧ w.val < o.producers)
    (hended : act o u k s = .ended) (hown : own o u k s) :
    ∃ w : Fin _, u = some w ∧ mine s.filled u = items o w o.loops := by
  obtain ⟨w, rfl, hw⟩ := hu
  cases k with
  | producer id i p =>
    obtain ⟨⟨w', heq, rfl⟩, -, hi, hmine⟩ := hown
    obtain rfl := Option.some.inj heq
    refine ⟨w, rfl, ?_⟩
    by_cases hend : p = .loop ∧ o.loops ≤ i
    · obtain ⟨rfl, hle⟩ := hend
      have hi' : i = o.loops := le_antisymm hi hle
      subst hi'
      exact hmine
    · simp only [act, producer, if_neg hend] at hended
      exact absurd hended (filling_ne_ended _ _ _ _ _ _)
  | consumer tmp consumedCount p =>
    obtain ⟨⟨w', heq, hle⟩, -⟩ := hown
    cases heq
    omega
  | joinProducers i => exact absurd hown.1 (Option.some_ne_none w)
  | endOfStreams i p => exact absurd hown.1 (Option.some_ne_none w)
  | joinConsumers i counts => exact absurd hown.1 (Option.some_ne_none w)
  | exited => exact hown.elim

theorem consumer_ended {k : Local} {w : Fin (o.producers + o.consumers)} (hw : o.producers ≤ w.val)
    (hended : act o (some w) k s = .ended) (hown : own o (some w) k s) :
    Collected s (some w) k.result := by
  cases k with
  | consumer tmp consumedCount p =>
    obtain ⟨-, -, hlength, ns, hmine, hns⟩ := hown
    cases p with
    | loop =>
      simp only [act, consumer] at hended
      split at hended
      · exact absurd hended (by simp)
      · rename_i htmp
        rw [if_pos (not_not.mp htmp)] at hmine
        refine ⟨ns, hmine, hns, ?_⟩
        rw [hmine, List.length_append, List.length_singleton] at hlength
        simp only [Point.after] at hlength
        simp only [Local.result]
        omega
    | test =>
      simp only [act, consumer] at hended
      split at hended <;> exact absurd hended (by simp)
    | access =>
      simp only [act, consumer] at hended
      split at hended <;> exact absurd hended (by simp)
    | signal => exact absurd hended (by simp [act, consumer])
    | unlock => exact absurd hended (by simp [act, consumer])
  | producer id i p =>
    obtain ⟨⟨w', heq, rfl⟩, hlt, -⟩ := hown
    cases heq
    omega
  | joinProducers i => exact absurd hown.1 (Option.some_ne_none w)
  | endOfStreams i p => exact absurd hown.1 (Option.some_ne_none w)
  | joinConsumers i counts => exact absurd hown.1 (Option.some_ne_none w)
  | exited => exact hown.elim

theorem joinProducers_allows {i : ℕ} (h : (spec o).At t (.joinProducers i) s) :
    (spec o).Allows (act o) t (.joinProducers i) s (act o t (.joinProducers i) s) := by
  obtain ⟨rfl, hi, hclosed, hjoined⟩ := h.own
  simp only [act]
  split
  · rename_i hmore
    refine ⟨id, ?_⟩
    intro k hended hown
    obtain ⟨w, hw, hmine⟩ := producer_ended ⟨_, rfl, hmore⟩ hended hown
    cases hw
    refine ⟨id, rfl, hmore, hclosed, ?_⟩
    intro u hu
    rcases Nat.lt_succ_iff_lt_or_eq.mp hu with hold | hnew
    · exact hjoined u hold
    · have heq : u = ⟨i, by omega⟩ := Fin.ext hnew
      rw [heq]
      exact hmine
  · rename_i hall
    have heq : i = o.producers := le_antisymm hi (Nat.not_lt.mp hall)
    refine ⟨?_, Or.inr rfl, h.good, fun hin => absurd rfl hin, ?_, fun _ _ _ hu => hu⟩
    · exact iff_of_false (fun hin => hin rfl) id
    · refine ⟨rfl, Nat.zero_le _, ?_, hclosed⟩
      intro u hu
      exact hjoined u (heq ▸ hu)

theorem joinConsumers_allows {i : ℕ} {counts : List ℤ}
    (h : (spec o).At t (.joinConsumers i counts) s) :
    (spec o).Allows (act o) t (.joinConsumers i counts) s
      (act o t (.joinConsumers i counts) s) := by
  obtain ⟨rfl, hi, hfull, hclosed, hlength, hcounts⟩ := h.own
  simp only [act]
  split
  · rename_i hmore
    refine ⟨id, ?_⟩
    intro k hended hown
    have hcollected := consumer_ended (Nat.le_add_right _ _) hended hown
    refine ⟨id, rfl, hmore, hfull, hclosed, ?_, ?_⟩
    · rw [List.length_append, List.length_singleton, hlength]
    · intro j hj u hu
      rw [List.length_append, List.length_singleton] at hj
      rcases Nat.lt_succ_iff_lt_or_eq.mp hj with hold | rfl
      · rw [List.getElem_append_left hold]
        exact hcounts j hold u hu
      · rw [List.getElem_concat_length rfl]
        have heq : u = ⟨o.producers + i, by omega⟩ := Fin.ext (hlength ▸ hu)
        rw [heq]
        exact hcollected
  · exact id

theorem keeps (hfits : Fits o) : (spec o).Keeps (act o) := by
  intro t l s h
  cases l with
  | producer id i p => exact producer_allows hfits h
  | consumer tmp consumedCount p => exact consumer_allows h
  | joinProducers i => exact joinProducers_allows h
  | endOfStreams i p => exact endOfStreams_allows h
  | joinConsumers i counts => exact joinConsumers_allows h
  | exited => exact h.own.elim

theorem invariant_start (o : Options) : (spec o).Invariant (start o) := by
  have hthreads : ∀ t : Thread o, ∃ l, (start o).threads t = .running l ∧ ¬ l.inside ∧
      own o t l (start o).shared := by
    intro t
    cases t with
    | none => exact ⟨.joinProducers 0, rfl, id, rfl, Nat.zero_le _, ⟨[], rfl, by simp⟩, by simp⟩
    | some u =>
      by_cases hu : u.val < o.producers
      · refine ⟨.producer u 0 .loop, if_pos hu, fun hin => hin rfl, ⟨u, rfl, rfl⟩, hu, ?_, rfl⟩
        exact Nat.zero_le _
      · refine ⟨.consumer 0 0 .loop, if_neg hu, fun hin => hin rfl, ⟨u, rfl, Nat.not_lt.mp hu⟩, ?_,
          rfl, [], rfl, by simp⟩
        simp
  refine ⟨?_, ?_, ⟨[], ?_⟩, ?_, ?_⟩
  · intro t
    obtain ⟨l, ht, hout, -⟩ := hthreads t
    rw [ht]
    exact iff_of_false hout (Option.some_ne_none t).symm
  · intro t
    obtain ⟨l, ht, -⟩ := hthreads t
    rw [ht]
    trivial
  · refine ⟨RingBuffer.Holds.nil o.max_pos (fun _ _ => rfl), rfl, rfl, ?_, ?_, ?_, ?_⟩
    · simp [start]
    · simp [start]
    · simp [start]
    · simp [start]
  · intro t
    obtain ⟨l, ht, -, hown⟩ := hthreads t
    rw [ht]
    exact hown
  · intro t l ht hin
    obtain ⟨l', ht', hout, -⟩ := hthreads t
    rw [ht'] at ht
    cases ht
    exact absurd hin hout

end BoundedBuffer
