import HTWGArchive.ConditionVariables.BufferInvariant
import Mathlib.Algebra.BigOperators.Group.List.Basic
import Mathlib.Algebra.Ring.Int.Defs
import Mathlib.Data.List.FinRange

namespace BoundedBuffer

open Monitor

variable {o : Options} {s : Shared o}

-- A history is the shuffle of what each of its threads did.
theorem mine_perm {history : List (Thread o × ℤ)} {ts : List (Thread o)} (hnodup : ts.Nodup)
    (hts : ∀ x ∈ history, x.1 ∈ ts) :
    (history.map Prod.snd).Perm (ts.flatMap (mine history)) := by
  induction ts generalizing history with
  | nil =>
    cases history with
    | nil => exact List.Perm.refl _
    | cons x history => exact absurd (hts x List.mem_cons_self) List.not_mem_nil
  | cons t ts ih =>
    obtain ⟨hnew, hnodup⟩ := List.nodup_cons.mp hnodup
    have hrest : ((history.filter (fun x => !decide (x.1 = t))).map Prod.snd).Perm
        (ts.flatMap (mine (history.filter (fun x => !decide (x.1 = t))))) := by
      apply ih hnodup
      intro x hx
      obtain ⟨hmem, hne⟩ := List.mem_filter.mp hx
      exact (List.mem_cons.mp (hts x hmem)).resolve_left (by simpa using hne)
    have hsame : ts.flatMap (mine (history.filter (fun x => !decide (x.1 = t)))) =
        ts.flatMap (mine history) := by
      apply List.flatMap_congr
      intro u hu
      rw [mine, List.filter_filter]
      congr 1
      apply List.filter_congr
      intro x _
      have hne : u ≠ t := fun heq => hnew (heq ▸ hu)
      by_cases hx : x.1 = u
      · simp [hx, hne]
      · simp [hx]
    rw [List.flatMap_cons, ← hsame]
    have hsplit := (List.filter_append_perm (fun x => decide (x.1 = t)) history).symm.map Prod.snd
    rw [List.map_append] at hsplit
    exact hsplit.trans (hrest.append_left _)

def producerThreads (o : Options) : List (Thread o) :=
  (List.finRange o.producers).map (fun u => some (Fin.castAdd o.consumers u))

def consumerThreads (o : Options) : List (Thread o) :=
  (List.finRange o.consumers).map (fun u => some (Fin.natAdd o.producers u))

theorem producerThreads_nodup (o : Options) : (producerThreads o).Nodup := by
  refine (List.nodup_finRange _).map ?_
  exact (Option.some_injective _).comp (Fin.castAdd_injective _ _)

theorem consumerThreads_nodup (o : Options) : (consumerThreads o).Nodup := by
  refine (List.nodup_finRange _).map ?_
  exact (Option.some_injective _).comp (Fin.natAdd_injective _ _)

theorem range_mul (n m : ℕ) :
    (List.range n).flatMap (fun id => (List.range m).map (fun i => id * m + i)) =
      List.range (n * m) := by
  induction n with
  | zero => simp
  | succ n ih =>
    rw [List.range_succ, List.flatMap_append, ih, List.flatMap_cons, List.flatMap_nil,
      List.append_nil, Nat.succ_mul, List.range_add]

theorem items_eq (hfits : Fits o) {id : ℕ} (hid : id < o.producers) (n : ℕ) :
    items o id n = ((List.range n).map (fun i => id * o.loops + i)).map Nat.cast := by
  rw [items, base_eq hfits hid, List.map_map]
  apply List.map_congr_left
  intro i _
  exact (Int.natCast_add _ _).symm

-- The values before the end markers.
theorem filled_perm (hfits : Fits o) {xs : List (Thread o × ℤ)} (hfull : ∀ u : Fin o.producers,
    mine xs (some (Fin.castAdd o.consumers u)) = items o u o.loops)
    (htags : ∀ x ∈ xs, ∃ u : Fin (o.producers + o.consumers), x.1 = some u ∧ u.val < o.producers) :
    (xs.map Prod.snd).Perm ((List.range (o.producers * o.loops)).map Nat.cast) := by
  have hmem : ∀ x ∈ xs, x.1 ∈ producerThreads o := by
    intro x hx
    obtain ⟨u, hu, hlt⟩ := htags x hx
    rw [hu]
    exact List.mem_map.mpr ⟨⟨u.val, hlt⟩, List.mem_finRange _, rfl⟩
  refine (mine_perm (producerThreads_nodup o) hmem).trans (List.Perm.of_eq ?_)
  have hitems : ∀ u ∈ List.finRange o.producers,
      mine xs (some (Fin.castAdd o.consumers u)) =
        ((List.range o.loops).map (fun i => u.val * o.loops + i)).map Nat.cast := by
    intro u _
    rw [hfull u, items_eq hfits u.isLt]
  rw [producerThreads, List.flatMap_map, List.flatMap_congr hitems, ← range_mul,
    ← List.map_coe_finRange_eq_range (n := o.producers), List.flatMap_map, List.map_flatMap]

theorem sum_map_pred {J : Type*} (l : List J) (a : J → ℕ) :
    (l.map (fun j => (a j : ℤ) - 1)).sum + l.length = ((l.map a).sum : ℕ) := by
  induction l with
  | nil => rfl
  | cons j l ih =>
    simp only [List.map_cons, List.sum_cons, List.length_cons]
    omega

theorem got_perm (htags : ∀ x ∈ s.got, ∃ u : Fin _, x.1 = some u ∧ o.producers ≤ u.val) :
    (s.got.map Prod.snd).Perm ((List.finRange o.consumers).flatMap
      (fun j => mine s.got (some (Fin.natAdd o.producers j)))) := by
  have hmem : ∀ x ∈ s.got, x.1 ∈ consumerThreads o := by
    intro x hx
    obtain ⟨u, hu, hle⟩ := htags x hx
    rw [hu]
    refine List.mem_map.mpr ⟨⟨u.val - o.producers, by omega⟩, List.mem_finRange _, ?_⟩
    exact congrArg some (Fin.ext (Nat.add_sub_cancel' hle))
  have hperm := mine_perm (consumerThreads_nodup o) hmem
  rwa [consumerThreads, List.flatMap_map] at hperm

theorem count_mine_of_collected {u : Thread o} {count : ℤ} (h : Collected s u count) :
    (mine s.got u).count endOfStream = 1 := by
  obtain ⟨ns, hmine, hns, -⟩ := h
  rw [hmine, List.count_append, List.count_eq_zero_of_not_mem hns, List.count_singleton_self]

theorem count_got (htags : ∀ x ∈ s.got, ∃ u : Fin _, x.1 = some u ∧ o.producers ≤ u.val)
    (hcollected : ∀ j : Fin o.consumers, ∃ count,
      Collected s (some (Fin.natAdd o.producers j)) count) :
    (s.got.map Prod.snd).count endOfStream = o.consumers := by
  have hone : ∀ j ∈ List.finRange o.consumers,
      (List.count endOfStream ∘ fun j => mine s.got (some (Fin.natAdd o.producers j))) j = 1 := by
    intro j _
    obtain ⟨count, hcount⟩ := hcollected j
    exact count_mine_of_collected hcount
  rw [(got_perm htags).count_eq, List.count_flatMap, List.map_congr_left hone]
  simp

theorem sum_counts {counts : List ℤ} (hlength : counts.length = o.consumers)
    (hcounts : ∀ (j : Fin o.consumers) (hj : j.val < counts.length),
      Collected s (some (Fin.natAdd o.producers j)) counts[j.val])
    (htags : ∀ x ∈ s.got, ∃ u : Fin _, x.1 = some u ∧ o.producers ≤ u.val) :
    counts.sum + o.consumers = (s.got.map Prod.snd).length := by
  have heq : counts = (List.finRange o.consumers).map
      (fun j => ((mine s.got (some (Fin.natAdd o.producers j))).length : ℤ) - 1) := by
    apply List.ext_getElem
    · simp [hlength]
    · intro j hj hj'
      obtain ⟨ns, hmine, -, hcount⟩ := hcounts ⟨j, hlength ▸ hj⟩ hj
      rw [List.getElem_map, List.getElem_finRange, Fin.cast_mk, hmine, List.length_append]
      simpa using hcount
  have hsum := sum_map_pred (List.finRange o.consumers)
    (fun j => (mine s.got (some (Fin.natAdd o.producers j))).length)
  rw [List.length_finRange] at hsum
  rw [(got_perm htags).length_eq, List.length_flatMap, heq]
  exact hsum

structure Delivered (o : Options) (s : Shared o) (counts : List ℤ) : Prop where
  got : ∃ xs : List ℤ, s.got.map Prod.snd = xs ++ List.replicate o.consumers endOfStream ∧
    xs.Perm ((List.range (o.producers * o.loops)).map Nat.cast) ∧
      ∀ id, id < o.producers →
        (((List.range o.loops).map (fun i => id * o.loops + i)).map Nat.cast).Sublist xs
  length : counts.length = o.consumers
  sum : counts.sum = o.producers * o.loops

theorem mine_append (history history' : List (Thread o × ℤ)) (t : Thread o) :
    mine (history ++ history') t = mine history t ++ mine history' t := by
  simp [mine]

theorem mine_replicate_none (n : ℕ) (value : ℤ) (u : Fin (o.producers + o.consumers)) :
    mine (List.replicate n (none, value)) (some u) = [] := by
  simp [mine]

-- Only `main` fills end markers.
theorem Good.count_filled {queue : List ℤ} (h : Good o queue s) {n : ℕ} (hclosed : Closed s n) :
    (s.filled.map Prod.snd).count endOfStream = n := by
  obtain ⟨xs, hxs, htags⟩ := hclosed
  have hclean : endOfStream ∉ xs.map Prod.snd := by
    intro hmem
    obtain ⟨x, hx, hvalue⟩ := List.mem_map.mp hmem
    exact h.markers x (hxs ▸ List.mem_append_left _ hx) (htags x hx) hvalue
  rw [hxs, List.map_append, List.map_replicate, List.count_append,
    List.count_eq_zero_of_not_mem hclean, List.count_replicate_self, Nat.zero_add]

theorem delivered (hfits : Fits o) {queue : List ℤ} (hgood : Good o queue s) {counts : List ℤ}
    (hown : own o none (.joinConsumers o.consumers counts) s) (hconsumers : 0 < o.consumers) :
    Delivered o s counts := by
  obtain ⟨-, -, hfull, ⟨xs, hxs, hxtags⟩, hlength, hcounts⟩ := hown
  have htags : ∀ x ∈ xs, ∃ u : Fin _, x.1 = some u ∧ u.val < o.producers := by
    intro x hx
    obtain ⟨u, hu⟩ := Option.ne_none_iff_exists'.mp (hxtags x hx)
    exact ⟨u, hu, hgood.fillers x (hxs ▸ List.mem_append_left _ hx) u hu⟩
  have hmine : ∀ u : Fin (o.producers + o.consumers), u.val < o.producers →
      mine xs (some u) = items o u o.loops := by
    intro u hu
    rw [← hfull u hu, hxs, mine_append, mine_replicate_none, List.append_nil]
  have hperm := filled_perm hfits (fun u => hmine (Fin.castAdd o.consumers u) u.isLt) htags
  have hvalues : s.got.map Prod.snd ++ queue =
      xs.map Prod.snd ++ List.replicate o.consumers endOfStream := by
    rw [← hgood.order, hxs, List.map_append, List.map_replicate]
  have hcollected : ∀ (j : Fin o.consumers) (hj : j.val < counts.length),
      Collected s (some (Fin.natAdd o.producers j)) counts[j.val] :=
    fun j hj => hcounts j.val hj _ rfl
  have hcount : (s.got.map Prod.snd).count endOfStream = o.consumers := by
    apply count_got hgood.getters
    intro j
    have hj : j.val < counts.length := by
      rw [hlength]
      exact j.isLt
    exact ⟨_, hcollected j hj⟩
  have hsum := sum_counts hlength hcollected hgood.getters
  -- The last value filled is an end marker, so it is not left in the buffer.
  have hempty : queue = [] := by
    by_contra hne
    have hlast : queue.getLast hne = endOfStream := by
      have heq := congrArg List.getLast? hvalues
      rw [List.getLast?_append_of_ne_nil _ hne, List.getLast?_append_of_ne_nil _ (by simp; omega),
        List.getLast?_replicate, if_neg hconsumers.ne', List.getLast?_eq_some_getLast hne] at heq
      exact Option.some.inj heq
    have hleft : 0 < queue.count endOfStream :=
      List.count_pos_iff.mpr (hlast ▸ List.getLast_mem hne)
    have hall := hgood.count_filled ⟨xs, hxs, hxtags⟩
    rw [hgood.order, List.count_append, hcount] at hall
    omega
  rw [hempty, List.append_nil] at hvalues
  refine ⟨⟨xs.map Prod.snd, hvalues, hperm, ?_⟩, hlength, ?_⟩
  · intro id hid
    rw [← items_eq hfits hid, ← hmine ⟨id, by omega⟩ hid, mine]
    exact List.filter_sublist.map _
  · rw [hvalues, List.length_append, List.length_replicate, hperm.length_eq, List.length_map,
      List.length_range] at hsum
    rw [← Int.natCast_mul]
    omega

def single : Options where
  loops := 1
  max := 1
  producers := 1
  consumers := 1
  loops_pos := Nat.one_pos
  max_pos := Nat.one_pos
  producers_le := by decide
  consumers_le := by decide

end BoundedBuffer
