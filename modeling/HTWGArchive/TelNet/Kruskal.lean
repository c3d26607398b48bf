import HTWGArchive.TelNet.TelNet

namespace TelNetApplication

open Collections Components SpanningForest
open UnionFind (Forest forest_new)

instance : Finite TelKnoten :=
  Finite.of_injective (fun k => (k.x, k.y)) (fun a b h => by
    cases a
    cases b
    obtain ⟨rfl, rfl⟩ := Prod.mk.inj h
    rfl)

def network : SpanningForest.Graph TelKnoten TelVerbindung where
  ends e := (e.u, e.v)
  cost e := e.c

def Connected (ks : List TelKnoten) (es : List TelVerbindung) : Prop :=
  ks ≠ [] ∧ ∀ a ∈ ks, ∀ b ∈ ks, network.Joins es a b

theorem Connected.mono {ks : List TelKnoten} {es fs : List TelVerbindung} (h : Connected ks es)
    (hsub : es ⊆ fs) : Connected ks fs :=
  ⟨h.1, fun a ha b hb => (h.2 a ha b hb).mono hsub⟩

namespace TelNet

variable {Q : Type*}

def knots (t : TelNet Q) : List TelKnoten :=
  t.telMap.map Prod.fst

structure Numbered (t : TelNet Q) : Prop where
  distinct : t.knots.Nodup
  numbers : (t.telMap.map Prod.snd).Perm (List.range t.size)

-- The knot with each number.
structure Names (t : TelNet Q) (knot : Fin t.size → TelKnoten) : Prop where
  number : ∀ i, get t.telMap (knot i) = some (i : ℕ)
  named : ∀ k, k ∈ t.knots ↔ ∃ i, knot i = k

theorem get_of_mem {m : List (TelKnoten × ℕ)} (hm : (m.map Prod.fst).Nodup) {k : TelKnoten} {i : ℕ}
    (h : (k, i) ∈ m) : get m k = some i := by
  induction m with
  | nil => cases h
  | cons e m ih =>
    obtain ⟨hhead, htail⟩ := List.nodup_cons.mp hm
    rcases List.mem_cons.mp h with rfl | hmem
    · simp [get]
    · have hne : e.1 ≠ k := fun heq => hhead (List.mem_map.mpr ⟨(k, i), hmem, heq.symm⟩)
      have hrest := ih htail hmem
      simpa [get, hne] using hrest

theorem Numbered.names {t : TelNet Q} (h : t.Numbered) : ∃ knot, t.Names knot := by
  have hentry : ∀ i : Fin t.size, ∃ k, (k, (i : ℕ)) ∈ t.telMap := by
    intro i
    have hmem := h.numbers.mem_iff.mpr (List.mem_range.mpr i.isLt)
    obtain ⟨⟨k, j⟩, hk, hj⟩ := List.mem_map.mp hmem
    obtain rfl : j = (i : ℕ) := hj
    exact ⟨k, hk⟩
  choose knot hknot using hentry
  refine ⟨knot, fun i => get_of_mem h.distinct (hknot i), ?_⟩
  intro k
  constructor
  · intro hk
    obtain ⟨⟨k', j⟩, hmem, rfl⟩ := List.mem_map.mp hk
    have hj : j < t.size := by
      have hrange := h.numbers.mem_iff.mp (List.mem_map_of_mem hmem)
      exact List.mem_range.mp hrange
    have hnodup : (t.telMap.map Prod.snd).Nodup := h.numbers.nodup_iff.mpr List.nodup_range
    have heq := List.inj_on_of_nodup_map hnodup (hknot ⟨j, hj⟩) hmem rfl
    exact ⟨⟨j, hj⟩, congrArg Prod.fst heq⟩
  · rintro ⟨i, rfl⟩
    exact List.mem_map_of_mem (hknot i)

theorem Names.injective {t : TelNet Q} {knot : Fin t.size → TelKnoten} (h : t.Names knot) :
    Function.Injective knot := by
  intro i j hij
  have hi := h.number i
  rw [hij, h.number j, Option.some.injEq] at hi
  exact Fin.ext hi.symm

variable [Collections Q]

-- What the loop has done with the connections polled so far.
structure Progress {n : ℕ} (knot : Fin n → TelKnoten) (forest : UnionFind)
    (polled added : List TelVerbindung) : Prop where
  partition : ∃ ps root rank, Forest forest n ps root rank ∧
    ∀ i j, Joined ps i j ↔ network.Joins added (knot i) (knot j)
  greedy : network.Greedy polled added
  sorted : network.Sorted polled
  counted : forest.size + added.length = n

section Loop

variable {n : ℕ} {knot : Fin n → TelKnoten} {forest : UnionFind} {polled added : List TelVerbindung}

theorem progress_new (hknot : Function.Injective knot) : Progress knot (UnionFind.new n) [] [] where
  partition := by
    refine ⟨[], _, _, forest_new n, ?_⟩
    intro i j
    rw [joined_nil]
    exact ⟨fun h => h ▸ Components.Joined.refl _ _, fun h => hknot (joined_nil.mp h)⟩
  greedy := Graph.Greedy.nil
  sorted := List.Pairwise.nil
  counted := by simp [UnionFind.new]

theorem Progress.sorted_snoc (h : Progress knot forest polled added) {e : TelVerbindung}
    (hle : ∀ f ∈ polled, f.c ≤ e.c) : network.Sorted (polled ++ [e]) := by
  refine List.pairwise_append.mpr ⟨h.sorted, List.pairwise_singleton _ _, ?_⟩
  intro f hf w hw
  rw [List.mem_singleton.mp hw]
  exact hle f hf

theorem Progress.next (h : Progress knot forest polled added) {e : TelVerbindung} {i j : Fin n}
    (hu : knot i = e.u) (hv : knot j = e.v) (hle : ∀ f ∈ polled, f.c ≤ e.c) :
    ∃ t1 t2, forest.find (i : ℕ) = some t1 ∧ forest.find (j : ℕ) = some t2 ∧
      ((t1 = t2 ∧ Progress knot forest (polled ++ [e]) added) ∨
        (t1 ≠ t2 ∧ ∃ forest', forest.union t1 t2 = some forest' ∧
          Progress knot forest' (polled ++ [e]) (added ++ [e]))) := by
  obtain ⟨ps, root, rank, hforest, hjoins⟩ := h.partition
  refine ⟨_, _, hforest.find_eq i, hforest.find_eq j, ?_⟩
  have hends : network.Joins added (network.ends e).1 (network.ends e).2 ↔ root i = root j := by
    have hpair : network.ends e = (knot i, knot j) := by rw [hu, hv]; rfl
    rw [hpair, hforest.joined, hjoins]
  by_cases hroot : root i = root j
  · left
    refine ⟨by rw [hroot], ⟨ps, root, rank, hforest, hjoins⟩, ?_, h.sorted_snoc hle, h.counted⟩
    exact h.greedy.skip (hends.mpr hroot)
  · right
    refine ⟨fun heq => hroot (Fin.ext (by exact_mod_cast heq)), ?_⟩
    obtain ⟨forest', root', rank', hunion, hforest'⟩ :=
      hforest.union_roots hroot (hforest.idem i) (hforest.idem j)
    have hsize : forest'.size + 1 = forest.size := by
      have hapart : ¬ Joined ps (root i) (root j) := by
        rw [← hforest.joined, hforest.idem, hforest.idem]
        exact hroot
      have hclasses := classes_cons_of_not_joined hapart
      rw [hforest'.counted, hforest.counted, ← hclasses]
      push_cast
      rfl
    refine ⟨forest', hunion, ⟨_, root', rank', hforest', ?_⟩, ?_, h.sorted_snoc hle, ?_⟩
    · intro a b
      have hi : ∀ x, Joined ps x (root i) ↔ Joined ps x i := by
        intro x
        rw [← hforest.joined, ← hforest.joined, hforest.idem]
      have hj : ∀ x, Joined ps x (root j) ↔ Joined ps x j := by
        intro x
        rw [← hforest.joined, ← hforest.joined, hforest.idem]
      have hsym : ∀ x y, Joined ps x y ↔ Joined ps y x :=
        fun x y => ⟨Components.Joined.symm, Components.Joined.symm⟩
      have hperm : (added ++ [e]).Perm (e :: added) := List.perm_append_comm
      have hcons : network.Joins (e :: added) (knot a) (knot b) ↔
          network.Joins added (knot a) (knot b) ∨
            (network.Joins added (knot a) e.u ∧ network.Joins added e.v (knot b)) ∨
            (network.Joins added (knot a) e.v ∧ network.Joins added e.u (knot b)) := joined_cons
      rw [Graph.joins_perm hperm, hcons, joined_cons, hi, hj, hsym (root j), hsym (root i), hi, hj,
        hsym b, hsym b, ← hu, ← hv, hjoins, hjoins, hjoins, hjoins, hjoins]
    · exact h.greedy.take (fun hj => hroot (hends.mp hj))
    · have hcounted := h.counted
      rw [List.length_append, List.length_singleton]
      push_cast
      omega

theorem loop_eq {telMap : List (TelKnoten × ℕ)} (hnumber : ∀ i, get telMap (knot i) = some (i : ℕ))
    (start : List TelVerbindung) {fuel : ℕ} {queue : Q} (h : Progress knot forest polled added)
    (hfuel : (content queue).length ≤ fuel)
    (hle : ∀ f ∈ polled, ∀ w ∈ content queue, f.c ≤ w.c)
    (hends : ∀ w ∈ content queue, (∃ i, knot i = w.u) ∧ ∃ j, knot j = w.v) :
    ∃ forest' queue' polled' added',
      loop telMap fuel forest queue (start ++ added) = some (forest', queue', start ++ added') ∧
      Progress knot forest' polled' added' ∧
      (polled ++ content queue).Perm (polled' ++ content queue') ∧
      (∀ f ∈ polled', ∀ w ∈ content queue', f.c ≤ w.c) ∧
      (forest'.size = 1 ∨ content queue' = []) := by
  induction fuel generalizing forest queue polled added with
  | zero =>
    have hempty : content queue = [] := List.length_eq_zero_iff.mp (Nat.le_zero.mp hfuel)
    refine ⟨forest, queue, polled, added, if_neg (fun hrun => hrun.2 hempty), h, List.Perm.refl _,
      hle, Or.inr hempty⟩
  | succ fuel ih =>
    by_cases hrun : forest.size ≠ 1 ∧ content queue ≠ []
    · cases hpoll : poll queue with
      | none => exact absurd (poll_none queue hpoll) hrun.2
      | some x =>
        obtain ⟨min, rest⟩ := x
        obtain ⟨hperm, hmin⟩ := poll_some queue min rest hpoll
        have hmem : min ∈ content queue := hperm.mem_iff.mpr (List.mem_cons_self ..)
        have hsub : ∀ w ∈ content rest, w ∈ content queue :=
          fun w hw => hperm.mem_iff.mpr (List.mem_cons_of_mem _ hw)
        obtain ⟨⟨i, hi⟩, j, hj⟩ := hends min hmem
        have hnumi := hnumber i
        have hnumj := hnumber j
        rw [hi] at hnumi
        rw [hj] at hnumj
        have hfuel' : (content rest).length ≤ fuel := by
          have hlength := hperm.length_eq
          rw [List.length_cons] at hlength
          omega
        have hle' : ∀ f ∈ polled ++ [min], ∀ w ∈ content rest, f.c ≤ w.c := by
          intro f hf w hw
          rcases List.mem_append.mp hf with hf | hf
          · exact hle f hf w (hsub w hw)
          · rw [List.mem_singleton.mp hf]
            exact hmin w (hsub w hw)
        have hends' : ∀ w ∈ content rest, (∃ i, knot i = w.u) ∧ ∃ j, knot j = w.v :=
          fun w hw => hends w (hsub w hw)
        have htrans : ∀ {polled' : List TelVerbindung} {queue' : Q},
            (polled ++ [min] ++ content rest).Perm (polled' ++ content queue') →
            (polled ++ content queue).Perm (polled' ++ content queue') := by
          intro polled' queue' hp
          rw [List.append_assoc] at hp
          exact (hperm.append_left polled).trans hp
        obtain ⟨t1, t2, ht1, ht2, hcase⟩ := h.next hi hj (fun f hf => hle f hf min hmem)
        rw [loop, if_pos hrun]
        simp only [hpoll, hnumi, hnumj, ht1, ht2]
        rcases hcase with ⟨heq, hnext⟩ | ⟨hne, forest₁, hunion, hnext⟩
        · rw [if_neg (not_not.mpr heq)]
          obtain ⟨forest', queue', polled', added', hloop, hprog, hp, hlast, hend⟩ :=
            ih hnext hfuel' hle' hends'
          exact ⟨forest', queue', polled', added', hloop, hprog, htrans hp, hlast, hend⟩
        · rw [if_pos hne]
          simp only [hunion, List.append_assoc]
          obtain ⟨forest', queue', polled', added', hloop, hprog, hp, hlast, hend⟩ :=
            ih hnext hfuel' hle' hends'
          exact ⟨forest', queue', polled', added', hloop, hprog, htrans hp, hlast, hend⟩
    · refine ⟨forest, queue, polled, added, if_neg hrun, h, List.Perm.refl _, hle, ?_⟩
      rw [not_and_or, not_not, not_not] at hrun
      exact hrun

-- Once a single class is left, the connections still in the queue would all be skipped.
theorem Progress.extend (h : Progress knot forest polled added) (hone : forest.size = 1)
    {es : List TelVerbindung} (hends : ∀ w ∈ es, (∃ i, knot i = w.u) ∧ ∃ j, knot j = w.v) :
    network.Greedy (polled ++ es) added := by
  obtain ⟨ps, root, rank, hforest, hjoins⟩ := h.partition
  have hall : ∀ i j, network.Joins added (knot i) (knot j) := by
    have hclasses : classes ps = 1 := by
      have hcounted := hforest.counted
      rw [hone] at hcounted
      omega
    intro i j
    rw [← hjoins]
    exact (classes_eq_one.mp hclasses).2 i j
  induction es using List.reverseRecOn with
  | nil =>
    rw [List.append_nil]
    exact h.greedy
  | append_singleton es e ih =>
    rw [← List.append_assoc]
    refine (ih (fun w hw => hends w (List.mem_append_left _ hw))).skip ?_
    obtain ⟨⟨i, hi⟩, j, hj⟩ := hends e (by simp)
    have hjoin := hall i j
    rw [hi, hj] at hjoin
    exact hjoin

end Loop

-- The connections of the queue in the order Kruskal's algorithm takes them, and what it adds.
structure Computed (t t' : TelNet Q) (r : Bool) (order added : List TelVerbindung) : Prop where
  runs : computeOptTelNet t = some (t', r)
  net : t' = { t with telQueue := t'.telQueue, optTelNet := t.optTelNet ++ added }
  perm : order.Perm (content t.telQueue)
  sorted : network.Sorted order
  greedy : network.Greedy order added
  rest : ∃ polled, (content t.telQueue).Perm (polled ++ content t'.telQueue) ∧
    network.Greedy polled added ∧ network.Sorted polled
  result : r = true ↔ Connected t.knots (content t.telQueue)
  length : r = true → added.length + 1 = t.size

def WellFormed (t : TelNet Q) : Prop :=
  t.Numbered ∧ ∀ w ∈ content t.telQueue, w.u ∈ t.knots ∧ w.v ∈ t.knots

omit [Collections Q] in
theorem Progress.size_eq_one_iff {t : TelNet Q} {knot : Fin t.size → TelKnoten}
    {forest : UnionFind} {polled added : List TelVerbindung}
    (h : Progress knot forest polled added) (hknot : t.Names knot) :
    forest.size = 1 ↔ Connected t.knots added := by
  obtain ⟨ps, root, rank, hforest, hjoins⟩ := h.partition
  have hsize : forest.size = 1 ↔ classes ps = 1 := by
    rw [hforest.counted]
    exact_mod_cast Iff.rfl
  rw [hsize, classes_eq_one]
  constructor
  · rintro ⟨⟨i⟩, hj⟩
    refine ⟨List.ne_nil_of_mem ((hknot.named _).mpr ⟨i, rfl⟩), ?_⟩
    intro a ha b hb
    obtain ⟨i, rfl⟩ := (hknot.named a).mp ha
    obtain ⟨j, rfl⟩ := (hknot.named b).mp hb
    exact (hjoins i j).mp (hj i j)
  · rintro ⟨hne, hj⟩
    obtain ⟨k, hk⟩ := List.exists_mem_of_ne_nil _ hne
    obtain ⟨i, -⟩ := (hknot.named k).mp hk
    refine ⟨⟨i⟩, ?_⟩
    intro i j
    exact (hjoins i j).mpr (hj _ ((hknot.named _).mpr ⟨i, rfl⟩) _ ((hknot.named _).mpr ⟨j, rfl⟩))

theorem computed (t : TelNet Q) (h : t.WellFormed) : ∃ t' r order added, Computed t t' r order added := by
  obtain ⟨knot, hknot⟩ := h.1.names
  have hends : ∀ w ∈ content t.telQueue, (∃ i, knot i = w.u) ∧ ∃ j, knot j = w.v :=
    fun w hw => ⟨(hknot.named _).mp (h.2 w hw).1, (hknot.named _).mp (h.2 w hw).2⟩
  obtain ⟨forest, queue, polled, added, hloop, hprog, hperm, hle, hend⟩ :=
    loop_eq hknot.number t.optTelNet (progress_new hknot.injective) (le_refl _) (by simp) hends
  rw [List.append_nil] at hloop
  rw [List.nil_append] at hperm
  have hfin : (forest.size = 1 ∧ (!(content queue).isEmpty || forest.size == 1) = true) ∨
      (forest.size ≠ 1 ∧ content queue = [] ∧
        (!(content queue).isEmpty || forest.size == 1) = false) := by
    rcases eq_or_ne forest.size 1 with hone | hone
    · exact Or.inl ⟨hone, by simp [hone]⟩
    · have hempty := hend.resolve_left hone
      exact Or.inr ⟨hone, hempty, by simp [hone, hempty]⟩
  have hsort := List.perm_insertionSort (fun e f : TelVerbindung => e.c ≤ f.c) (content queue)
  refine ⟨_, _, polled ++ (content queue).insertionSort (fun e f => e.c ≤ f.c), added,
    ⟨by rw [computeOptTelNet, hloop], rfl, ?_, ?_, ?_, ?_, ?_, ?_⟩⟩
  · exact (hsort.append_left polled).trans hperm.symm
  · refine List.pairwise_append.mpr ⟨hprog.sorted, LeastFirst.pairwise_insertionSort _ _, ?_⟩
    intro f hf w hw
    exact hle f hf w (hsort.mem_iff.mp hw)
  · rcases hfin with ⟨hone, -⟩ | ⟨-, hempty, -⟩
    · refine hprog.extend hone ?_
      intro w hw
      exact hends w (hperm.mem_iff.mpr (List.mem_append_right _ (hsort.mem_iff.mp hw)))
    · rw [hempty]
      simpa using hprog.greedy
  · exact ⟨polled, hperm, hprog.greedy, hprog.sorted⟩
  · have hsize := hprog.size_eq_one_iff hknot
    rcases hfin with ⟨hone, hr⟩ | ⟨hone, hempty, hr⟩
    · rw [hr]
      simp only [true_iff]
      refine (hsize.mp hone).mono ?_
      intro w hw
      exact hperm.mem_iff.mpr (List.mem_append_left _ (hprog.greedy.sublist.subset hw))
    · rw [hr]
      simp only [Bool.false_eq_true, false_iff]
      intro hconn
      rw [hempty, List.append_nil] at hperm
      apply hone
      rw [hsize]
      refine ⟨hconn.1, fun a ha b hb => ?_⟩
      rw [hprog.greedy.joins_iff]
      exact (hconn.2 a ha b hb).mono hperm.subset
  · intro hr
    rcases hfin with ⟨hone, -⟩ | ⟨-, -, hfalse⟩
    · have hcounted := hprog.counted
      rw [hone] at hcounted
      omega
    · rw [hfalse] at hr
      cases hr

theorem kruskal (t : TelNet Q) (h : t.WellFormed) (hfirst : t.optTelNet = []) :
    ∃ t' r, computeOptTelNet t = some (t', r) ∧
      network.Minimum (content t.telQueue) t'.optTelNet ∧
      (r = true ↔ Connected t.knots (content t.telQueue)) ∧
      (r = true → t'.optTelNet.length + 1 = t.size) := by
  obtain ⟨t', r, order, added, hc⟩ := computed t h
  have hopt : t'.optTelNet = added := by
    rw [hc.net, hfirst]
    rfl
  refine ⟨t', r, hc.runs, ?_, hc.result, ?_⟩
  · rw [hopt]
    exact (hc.greedy.spanning.minimum (hc.greedy.dominant hc.sorted)).perm hc.perm
  · rw [hopt]
    exact hc.length

theorem kruskal_two_knots :
    ∃ t : TelNet (List TelVerbindung), t.lbg = 3 ∧ t.size = 2 ∧
      ∃ t' r, computeOptTelNet t = some (t', r) ∧
        network.Minimum (content t.telQueue) t'.optTelNet ∧
        (r = true ↔ Connected t.knots (content t.telQueue)) ∧
        (r = true → t'.optTelNet.length + 1 = t.size) :=
  let a : TelKnoten := ⟨⟨1, by decide⟩, ⟨1, by decide⟩⟩
  let b : TelKnoten := ⟨⟨2, by decide⟩, ⟨3, by decide⟩⟩
  ⟨{ lbg := 3, telMap := [(a, 0), (b, 1)], telQueue := [⟨0, 3, a, b⟩, ⟨1, 3, b, a⟩],
     optTelNet := [], size := 2, created := [⟨0, 3, a, b⟩, ⟨1, 3, b, a⟩] }, rfl, rfl,
    kruskal _ ⟨⟨by decide, by decide⟩, by decide⟩ rfl⟩

end TelNet

end TelNetApplication
