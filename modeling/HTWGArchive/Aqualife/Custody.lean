import HTWGArchive.Aqualife.Assembly
import HTWGArchive.Library.Update

namespace Aqualife

structure Place where
  tank : InetSocketAddress
  ref : ℕ
  id : FishId
  x : ℤ
  direction : Direction
  deriving DecidableEq, Repr

def FishObject.place (a : InetSocketAddress) (o : FishObject) : Place :=
  ⟨a, o.ref, o.fish.id, o.fish.x, o.fish.direction⟩

-- Past the edge and on its way out of sight.
def Place.Leaves (p : Place) : Prop :=
  (p.direction = .left ∧ -99 ≤ p.x ∧ p.x ≤ 0) ∨ (p.direction = .right ∧ 500 ≤ p.x ∧ p.x ≤ 599)

section Positions

variable (t : TankModel) (a : InetSocketAddress) {o : FishObject}

theorem updateFish_id (discreteSin : ℤ) (fish : FishModel) : (t.updateFish discreteSin fish).1.id = fish.id := by
  rw [TankModel.updateFish]
  split
  · split
    · rfl
    · rfl
  · rfl

theorem update_hitsEdge (discreteSin : ℤ) (fish : FishModel) :
    (fish.update discreteSin).hitsEdge = true ↔
      (fish.direction = .left ∧ fish.x = 1) ∨ (fish.direction = .right ∧ fish.x = 499) := by
  obtain ⟨id, x, y, direction, toggled⟩ := fish
  cases direction <;>
    simp [FishModel.hitsEdge, FishModel.update, Direction.vector, tankWidth, FishModel.xSize] <;> omega

theorem disappears_iff (fish : FishModel) :
    fish.disappears = true ↔
      (fish.direction = .left ∧ fish.x = -100) ∨ (fish.direction = .right ∧ fish.x = 600) := by
  rw [FishModel.disappears, Bool.or_eq_true, Bool.and_eq_true, Bool.and_eq_true, decide_eq_true_eq,
    decide_eq_true_eq, decide_eq_true_eq, decide_eq_true_eq]
  exact Iff.rfl

theorem updateFish_hits {discreteSin : ℤ} {fish : FishModel}
    (h : (t.updateFish discreteSin fish).2 ≠ []) :
    (t.updateFish discreteSin fish).1 = fish.update discreteSin ∧
      ((fish.direction = .left ∧ fish.x = 1) ∨ (fish.direction = .right ∧ fish.x = 499)) := by
  obtain ⟨m, hm⟩ := List.exists_mem_of_ne_nil _ h
  obtain ⟨-, hedge, -, hfish, -⟩ := TankModel.updateFish_sends t hm
  exact ⟨hfish, (update_hitsEdge discreteSin fish).mp hedge⟩

theorem updateFish_handsOff {discreteSin : ℤ} (h : (t.updateFish discreteSin o.fish).2 ≠ []) :
    (t.updateFish discreteSin o.fish).1.disappears = false ∧
      (FishObject.place a ⟨o.ref, (t.updateFish discreteSin o.fish).1⟩).Leaves := by
  obtain ⟨hupdate, hat⟩ := updateFish_hits t h
  obtain ⟨ref, id, x, y, direction, toggled⟩ := o
  rw [hupdate, ← Bool.not_eq_true, disappears_iff]
  simp only [Place.Leaves, FishObject.place]
  cases direction <;> simp [FishModel.update, Direction.vector] at hat ⊢ <;> omega

theorem updateFish_leaves (discreteSin : ℤ) (h : (o.place a).Leaves) :
    (t.updateFish discreteSin o.fish).2 = [] ∧
      ((t.updateFish discreteSin o.fish).1.disappears = false →
        (FishObject.place a ⟨o.ref, (t.updateFish discreteSin o.fish).1⟩).Leaves) := by
  have hedge := update_hitsEdge discreteSin o.fish
  obtain ⟨ref, id, x, y, direction, toggled⟩ := o
  simp only [Place.Leaves, FishObject.place] at h ⊢
  have hmiss : ¬((FishModel.mk id x y direction toggled).update discreteSin).hitsEdge = true := by
    rw [hedge]
    cases direction <;> simp at h ⊢ <;> omega
  rw [TankModel.updateFish, if_neg hmiss]
  refine ⟨rfl, fun hstays => ?_⟩
  rw [← Bool.not_eq_true, disappears_iff] at hstays
  cases direction <;> simp [FishModel.update, Direction.vector] at h hstays ⊢ <;> omega

end Positions

def remaining (handed : List ℕ) (places : List Place) : List FishId :=
  (places.filter (fun p => p.ref ∉ handed)).map Place.id

-- The fish still in their tanks, the fish in flight and the fish lost are the fish created.
structure Accounted (places : List Place) (handed : List ℕ) (carried lost created : List FishId) :
    Prop where
  refs : (places.map Place.ref).Nodup
  leaves : ∀ p ∈ places, p.ref ∈ handed → p.Leaves
  balance : (remaining handed places ++ (carried ++ lost)).Perm created

theorem remaining_append (handed : List ℕ) (places places' : List Place) :
    remaining handed (places ++ places') = remaining handed places ++ remaining handed places' := by
  simp [remaining]

theorem remaining_eq_flatMap (handed : List ℕ) (places : List Place) :
    remaining handed places = places.flatMap (fun p => if p.ref ∈ handed then [] else [p.id]) := by
  induction places with
  | nil => rfl
  | cons p places ih =>
    rw [List.flatMap_cons, ← ih, remaining, remaining, List.filter_cons]
    split
    · rename_i hnew
      rw [if_neg (of_decide_eq_true hnew)]
      rfl
    · rename_i hold
      rw [if_pos (by simpa using hold)]
      rfl

namespace Accounted

variable {places places' rest : List Place} {handed : List ℕ}
  {carried carried' lost created : List FishId}

theorem perm (h : Accounted places handed carried lost created) (hplaces : places.Perm places')
    (hcarried : carried.Perm carried') : Accounted places' handed carried' lost created := by
  refine ⟨(hplaces.map Place.ref).nodup_iff.mp h.refs, ?_, ?_⟩
  · exact fun p hp => h.leaves p (hplaces.mem_iff.mpr hp)
  · have hremaining : (remaining handed places).Perm (remaining handed places') :=
      (hplaces.filter _).map Place.id
    exact (hremaining.append (hcarried.append_right lost)).symm.trans h.balance

theorem arrive {p : Place} (h : Accounted places handed (p.id :: carried) lost created)
    (hfresh : p.ref ∉ places.map Place.ref) (hnew : p.ref ∉ handed) :
    Accounted (places ++ [p]) handed carried lost created := by
  refine ⟨?_, ?_, ?_⟩
  · rw [List.map_append, List.map_singleton, ← List.concat_eq_append]
    exact List.Nodup.concat hfresh h.refs
  · rw [List.forall_mem_append, List.forall_mem_singleton]
    exact ⟨h.leaves, fun hhanded => absurd hhanded hnew⟩
  · have hsingle : remaining handed [p] = [p.id] := by
      simp [remaining, hnew]
    rw [remaining_append, hsingle, List.append_assoc]
    exact h.balance

theorem enter {p : Place} (h : Accounted places handed carried lost created)
    (hfresh : p.ref ∉ places.map Place.ref) (hnew : p.ref ∉ handed) :
    Accounted (places ++ [p]) handed carried lost (created ++ [p.id]) := by
  have hopen : Accounted places handed (p.id :: carried) lost (created ++ [p.id]) := by
    refine ⟨h.refs, h.leaves, ?_⟩
    refine List.perm_middle.trans ?_
    exact (h.balance.cons p.id).trans (List.perm_append_singleton p.id created).symm
  exact hopen.arrive hfresh hnew

theorem moved_remaining {α : Type} {L : List α} {before after : α → Place} {hands gone : α → Bool}
    {H : List ℕ} (href : ∀ o ∈ L, (after o).ref = (before o).ref)
    (hid : ∀ o ∈ L, (after o).id = (before o).id)
    (hH : ∀ o ∈ L, (before o).ref ∈ H ↔ hands o = true)
    (hstays : ∀ o ∈ L, hands o = true → gone o = false)
    (hwent : ∀ o ∈ L, (before o).ref ∈ handed → hands o = false) :
    (remaining (handed ++ H) ((L.filter (fun o => !gone o)).map after) ++
      ((L.filter hands).map (fun o => (before o).id) ++
        (L.filter (fun o => gone o && (before o).ref ∉ handed)).map (fun o => (before o).id))).Perm
          (remaining handed (L.map before)) := by
  induction L with
  | nil => exact List.Perm.refl _
  | cons o L ih =>
    rw [List.forall_mem_cons] at href hid hH hstays hwent
    have hrest := ih href.2 hid.2 hH.2 hstays.2 hwent.2
    have hcons : ∀ p : Place, ∀ ps, remaining (handed ++ H) (p :: ps) =
        (if p.ref ∈ handed ++ H then [] else [p.id]) ++ remaining (handed ++ H) ps := by
      intro p ps
      rw [remaining_eq_flatMap, List.flatMap_cons, ← remaining_eq_flatMap]
    have hcons' : ∀ p : Place, ∀ ps, remaining handed (p :: ps) =
        (if p.ref ∈ handed then [] else [p.id]) ++ remaining handed ps := by
      intro p ps
      rw [remaining_eq_flatMap, List.flatMap_cons, ← remaining_eq_flatMap]
    rw [List.map_cons, hcons']
    rw [List.perm_iff_count] at hrest ⊢
    intro id
    have hcount := hrest id
    simp only [List.count_append, List.filter_cons] at hcount ⊢
    rcases Classical.em ((before o).ref ∈ handed) with hold | hnew
    · have hin : (after o).ref ∈ handed ++ H := by
        rw [href.1]
        exact List.mem_append_left H hold
      cases hgone : gone o with
      | true => simp [hold, hwent.1 hold, ← hcount]
      | false => simp [hold, hwent.1 hold, hcons, hin, ← hcount]
    · cases hhands : hands o with
      | true =>
        have hin : (after o).ref ∈ handed ++ H := by
          rw [href.1]
          exact List.mem_append_right handed (hH.1.mpr hhands)
        simp [hnew, hstays.1 hhands, hcons, hin, List.count_cons, ← hcount]
        omega
      | false =>
        have hout : (after o).ref ∉ handed ++ H := by
          rw [href.1, List.mem_append, not_or, hH.1, hhands]
          exact ⟨hnew, Bool.false_ne_true⟩
        cases hgone : gone o with
        | true =>
          simp [hnew, List.count_cons, ← hcount]
          omega
        | false =>
          simp [hnew, hcons, hout, hid.1, List.count_cons, ← hcount]
          omega

-- Every object of one tank moves; some are handed off, some are gone.
theorem move {α : Type} {L : List α} {before after : α → Place} (hands gone : α → Bool)
    (h : Accounted places handed carried lost created) (hplaces : places.Perm (L.map before ++ rest))
    (hplaces' : places'.Perm ((L.filter (fun o => !gone o)).map after ++ rest))
    (href : ∀ o ∈ L, (after o).ref = (before o).ref) (hid : ∀ o ∈ L, (after o).id = (before o).id)
    (hgoes : ∀ o ∈ L, hands o = true → gone o = false ∧ (after o).Leaves)
    (hleaves : ∀ o ∈ L, (before o).Leaves → hands o = false ∧ (gone o = false → (after o).Leaves)) :
    Accounted places' (handed ++ (L.filter hands).map (fun o => (before o).ref))
      (carried ++ (L.filter hands).map (fun o => (before o).id))
      (lost ++ (L.filter (fun o => gone o && (before o).ref ∉ handed)).map (fun o => (before o).id))
      created := by
  have hbefore := h.perm hplaces (List.Perm.refl carried)
  have hnodup := hbefore.refs
  rw [List.map_append, List.map_map, List.nodup_append] at hnodup
  obtain ⟨hL, hrest, hapart⟩ := hnodup
  have hhands : ∀ o ∈ L,
      (before o).ref ∈ (L.filter hands).map (fun o => (before o).ref) ↔ hands o = true := by
    intro o ho
    rw [List.mem_map]
    constructor
    · rintro ⟨o', ho', heq⟩
      obtain ⟨hmem, hyes⟩ := List.mem_filter.mp ho'
      rw [← List.inj_on_of_nodup_map hL hmem ho heq]
      exact hyes
    · exact fun hyes => ⟨o, List.mem_filter.mpr ⟨ho, hyes⟩, rfl⟩
  have hother : ∀ p ∈ rest, p.ref ∉ (L.filter hands).map (fun o => (before o).ref) := by
    intro p hp hmem
    obtain ⟨o, ho, heq⟩ := List.mem_map.mp hmem
    exact hapart _ (List.mem_map_of_mem (List.mem_of_mem_filter ho)) _ (List.mem_map_of_mem hp) heq
  have hwent : ∀ o ∈ L, (before o).ref ∈ handed → (before o).Leaves :=
    fun o ho => hbefore.leaves _ (List.mem_append_left _ (List.mem_map_of_mem ho))
  have hafter : Accounted ((L.filter (fun o => !gone o)).map after ++ rest)
      (handed ++ (L.filter hands).map (fun o => (before o).ref))
      (carried ++ (L.filter hands).map (fun o => (before o).id))
      (lost ++ (L.filter (fun o => gone o && (before o).ref ∉ handed)).map (fun o => (before o).id))
      created := by
    refine ⟨?_, ?_, ?_⟩
    · have hsame : ((L.filter (fun o => !gone o)).map after).map Place.ref =
          (L.filter (fun o => !gone o)).map (Place.ref ∘ before) := by
        rw [List.map_map]
        exact List.map_congr_left (fun o ho => href o (List.mem_of_mem_filter ho))
      rw [List.map_append, hsame, List.nodup_append]
      refine ⟨hL.sublist (List.filter_sublist.map _), hrest, ?_⟩
      exact fun r hr r' hr' => hapart r ((List.filter_sublist.map _).subset hr) r' hr'
    · intro p hp hin
      rcases List.mem_append.mp hp with hp | hp
      · obtain ⟨o, ho, rfl⟩ := List.mem_map.mp hp
        obtain ⟨hmem, hstays⟩ := List.mem_filter.mp ho
        rw [List.mem_append, href o hmem, hhands o hmem] at hin
        rcases hin with hold | hyes
        · exact (hleaves o hmem (hwent o hmem hold)).2 (by simpa using hstays)
        · exact (hgoes o hmem hyes).2
      · rcases List.mem_append.mp hin with hold | hnew
        · exact hbefore.leaves p (List.mem_append_right _ hp) hold
        · exact absurd hnew (hother p hp)
    · have hkept : remaining (handed ++ (L.filter hands).map (fun o => (before o).ref)) rest =
          remaining handed rest := by
        rw [remaining, remaining]
        congr 1
        apply List.filter_congr
        intro p hp
        have hnot := hother p hp
        simp only [List.mem_append, hnot, or_false]
      have hmoved := moved_remaining href hid hhands (fun o ho hyes => (hgoes o ho hyes).1)
        (fun o ho hold => (hleaves o ho (hwent o ho hold)).1)
      have hbalance := hbefore.balance
      rw [remaining_append] at hbalance
      rw [remaining_append, hkept]
      rw [List.perm_iff_count] at hmoved hbalance ⊢
      intro id
      have hcount := hmoved id
      have hcount' := hbalance id
      simp only [List.count_append] at hcount hcount' ⊢
      omega
  exact hafter.perm hplaces'.symm (List.Perm.refl _)

end Accounted

def Occurrence.created (o : Occurrence) : List FishId :=
  match o.event with
  | .newFish a _ _ _ =>
    ((o.after.tanks a).fishies.drop (o.before.tanks a).fishies.length).map (fun x => x.fish.id)
  | _ => []

def TankModel.handsOff (t : TankModel) (discreteSin : ℕ → ℤ) (o : FishObject) : Bool :=
  !(t.updateFish (discreteSin o.ref) o.fish).2.isEmpty

-- The objects whose tank sends them to a neighbour.
def Occurrence.handedOff (o : Occurrence) : List ℕ :=
  match o.event with
  | .update a discreteSin =>
    ((o.before.tanks a).fishies.filter ((o.before.tanks a).handsOff discreteSin)).map FishObject.ref
  | _ => []

-- The fish that disappear from their tank without having been handed off.
def Occurrence.lost (handed : List ℕ) (o : Occurrence) : List FishId :=
  match o.event with
  | .update a discreteSin =>
    ((o.before.tanks a).fishies.filter (fun x =>
      ((o.before.tanks a).updateFish (discreteSin x.ref) x.fish).1.disappears &&
        x.ref ∉ handed)).map (fun x => x.fish.id)
  | _ => []

def createdFish (os : List Occurrence) : List FishId :=
  os.flatMap Occurrence.created

def handedOff (os : List Occurrence) : List ℕ :=
  os.flatMap Occurrence.handedOff

def lostFrom (handed : List ℕ) : List Occurrence → List FishId
  | [] => []
  | o :: os => o.lost handed ++ lostFrom (handed ++ o.handedOff) os

def lostFish (os : List Occurrence) : List FishId :=
  lostFrom [] os

def carriedFish (p : Packet) : Option FishId :=
  match p.payload with
  | .handoffRequest fish => some fish.id
  | _ => none

def System.carried (s : System) : List FishId :=
  s.network.filterMap carriedFish

def System.places (s : System) : List Place :=
  s.hosts.flatMap (fun a => (s.tanks a).fishies.map (FishObject.place a))

structure Conserved (os : List Occurrence) (s : System) : Prop where
  assembled : Assembled s
  accounted : Accounted s.places (handedOff os) s.carried (lostFish os) (createdFish os)
  placed : ∀ p ∈ s.places, p.ref < s.fresh
  handed : ∀ r ∈ handedOff os, r < s.fresh
  numbered : ∀ id ∈ createdFish os, ∃ a ∈ s.hosts, (s.tanks a).id = some id.tank ∧
    id.num ≤ (s.tanks a).fishCounter
  once : (createdFish os).Nodup

section Fish

variable {s : System} {e : Event} {a : InetSocketAddress} {r : TankModel × List Send} {created : ℕ}

theorem toggle_place (fishId : FishId) (a : InetSocketAddress) (os : List FishObject) :
    (TankModel.toggleFirst fishId os).map (FishObject.place a) = os.map (FishObject.place a) := by
  induction os with
  | nil => rfl
  | cons o os ih =>
    rw [TankModel.toggleFirst]
    split
    · rfl
    · rw [List.map_cons, List.map_cons, ih]

theorem Acts.fish (h : Acts s e a r created) :
    (∃ x y direction, e = .newFish a x y direction) ∨ (∃ discreteSin, e = .update a discreteSin) ∨
      ((∀ b x y direction, e ≠ .newFish b x y direction) ∧ (∀ b discreteSin, e ≠ .update b discreteSin) ∧
        r.1.fishies.map (FishObject.place a) = (s.tanks a).fishies.map (FishObject.place a) ∧
        r.1.fishCounter = (s.tanks a).fishCounter ∧
        ∀ m ∈ r.2, ∀ fish, m.2 ≠ .handoffRequest fish) := by
  cases h with
  | newFish _ x y direction => exact Or.inl ⟨x, y, direction, rfl⟩
  | update _ discreteSin => exact Or.inr (Or.inl ⟨discreteSin, rfl⟩)
  | register => exact Or.inr (Or.inr ⟨by simp, by simp, rfl, rfl, by simp⟩)
  | finish => exact Or.inr (Or.inr ⟨by simp, by simp, rfl, rfl, by simp⟩)
  | initiateSnapshot =>
    refine Or.inr (Or.inr ⟨by simp, by simp, rfl, rfl, ?_⟩)
    rw [(s.tanks a).initiateSnapshot_sends]
    simp
  | locateFishGlobally _ fishId =>
    refine Or.inr (Or.inr ⟨by simp, by simp, toggle_place fishId a _, rfl, ?_⟩)
    intro m hm fish
    rw [(s.tanks a).locateFishGlobally_sends hm]
    simp
  | tokenTimer _ _ =>
    exact Or.inr (Or.inr ⟨by simp, by simp, rfl, rfl, by simp [TankModel.giveBackToken]⟩)

theorem created_eq_nil {o : Occurrence} (h : ∀ b x y direction, o.event ≠ .newFish b x y direction) :
    o.created = [] := by
  rw [Occurrence.created]
  split
  · exact absurd ‹_› (h _ _ _ _)
  · rfl

theorem handedOff_eq_nil {o : Occurrence} (h : ∀ b discreteSin, o.event ≠ .update b discreteSin) :
    o.handedOff = [] := by
  rw [Occurrence.handedOff]
  split
  · exact absurd ‹_› (h _ _)
  · rfl

theorem lost_eq_nil {o : Occurrence} (handed : List ℕ)
    (h : ∀ b discreteSin, o.event ≠ .update b discreteSin) : o.lost handed = [] := by
  rw [Occurrence.lost]
  split
  · exact absurd ‹_› (h _ _)
  · rfl

theorem newFish_room {t : TankModel} (hroom : t.fishies.length < TankModel.maxFishies) (fresh : ℕ)
    (x y : ℤ) (direction : Direction) :
    ∃ o, (t.newFish fresh x y direction).fishies = t.fishies ++ [o] ∧ o.ref = fresh ∧
      o.fish.id = ⟨t.fishCounter + 1, t.id.getD "null"⟩ ∧
      (t.newFish fresh x y direction).fishCounter = t.fishCounter + 1 := by
  rw [TankModel.newFish, if_pos hroom]
  exact ⟨_, rfl, rfl, rfl, rfl⟩

theorem receive_fish (t : TankModel) (fresh : ℕ) (sender : InetSocketAddress) (objects : ℕ × ℕ)
    (a : InetSocketAddress) {payload : Payload} (hother : ∀ fish, payload ≠ .handoffRequest fish) :
    (t.receive fresh sender objects payload).1.fishies.map (FishObject.place a) =
        t.fishies.map (FishObject.place a) ∧
      (t.receive fresh sender objects payload).1.fishCounter = t.fishCounter := by
  cases payload with
  | handoffRequest fish => exact absurd rfl (hother fish)
  | snapshotMarker =>
    obtain ⟨_, _, _, _, _, _, hframe⟩ := t.receiveMarker_frame ⟨objects.1, sender⟩
    rw [TankModel.receive, hframe]
    exact ⟨rfl, rfl⟩
  | collectToken globalState =>
    obtain ⟨_, _, _, _, hframe⟩ := t.receiveGlobalState_frame fresh globalState
    rw [TankModel.receive, hframe]
    exact ⟨rfl, rfl⟩
  | neighbourUpdate neighbour direction => cases direction <;> exact ⟨rfl, rfl⟩
  | locationRequest fishId => exact ⟨toggle_place fishId a _, rfl⟩
  | _ => exact ⟨rfl, rfl⟩

theorem receive_handoffs (t : TankModel) (fresh : ℕ) (sender : InetSocketAddress)
    (objects : ℕ × ℕ) (payload : Payload) :
    ∀ m ∈ (t.receive fresh sender objects payload).2, ∀ fish, m.2 ≠ .handoffRequest fish := by
  intro m hm fish heq
  cases payload with
  | handoffRequest fish =>
    rw [t.receiveFish_sends hm] at heq
    cases heq
  | snapshotMarker =>
    rcases t.receiveMarker_sends hm with ⟨hsend, _⟩ | ⟨_, rfl⟩
    · rw [hsend] at heq
      cases heq
    · cases heq
  | nameResolutionResponse response requestId =>
    rw [List.mem_singleton.mp hm] at heq
    cases heq
  | _ => exact absurd hm List.not_mem_nil

theorem packetsFrom_append (src : InetSocketAddress) (sends sends' : List Send) :
    packetsFrom src (sends ++ sends') = packetsFrom src sends ++ packetsFrom src sends' :=
  List.filterMap_append

theorem carriedFish_eq_none {src dst : InetSocketAddress} {payload : Payload}
    (h : ∀ fish, payload ≠ .handoffRequest fish) : carriedFish ⟨src, dst, payload⟩ = none := by
  rw [carriedFish]
  split
  · rename_i fish heq
    exact absurd heq (h fish)
  · rfl

theorem carried_packetsFrom (src : InetSocketAddress) {sends : List Send}
    (h : ∀ m ∈ sends, ∀ fish, m.2 ≠ .handoffRequest fish) :
    (packetsFrom src sends).filterMap carriedFish = [] := by
  rw [List.filterMap_eq_nil_iff]
  intro p hp
  exact carriedFish_eq_none (h _ (mem_packetsFrom.mp hp).2)

end Fish

theorem createdFish_snoc (os : List Occurrence) (o : Occurrence) :
    createdFish (os ++ [o]) = createdFish os ++ o.created := by
  simp [createdFish]

theorem handedOff_snoc (os : List Occurrence) (o : Occurrence) :
    handedOff (os ++ [o]) = handedOff os ++ o.handedOff := by
  simp [handedOff]

theorem lostFish_snoc (os : List Occurrence) (o : Occurrence) :
    lostFish (os ++ [o]) = lostFish os ++ o.lost (handedOff os) := by
  have hfrom : ∀ handed, lostFrom handed (os ++ [o]) =
      lostFrom handed os ++ o.lost (handed ++ handedOff os) := by
    induction os with
    | nil =>
      intro handed
      simp [lostFrom, handedOff]
    | cons x os ih =>
      intro handed
      rw [List.cons_append, lostFrom, lostFrom, ih, handedOff, handedOff, List.flatMap_cons,
        List.append_assoc, List.append_assoc]
  exact hfrom []

theorem createdFish_same (os : List Occurrence) {o : Occurrence} (h : o.created = []) :
    createdFish (os ++ [o]) = createdFish os := by
  rw [createdFish_snoc, h, List.append_nil]

theorem handedOff_same (os : List Occurrence) {o : Occurrence} (h : o.handedOff = []) :
    handedOff (os ++ [o]) = handedOff os := by
  rw [handedOff_snoc, h, List.append_nil]

theorem lostFish_same (os : List Occurrence) {o : Occurrence} (h : o.lost (handedOff os) = []) :
    lostFish (os ++ [o]) = lostFish os := by
  rw [lostFish_snoc, h, List.append_nil]

theorem carried_deliver {s : System} {src dst : InetSocketAddress} {payload : Payload}
    {network : List Packet} (hdel : Network.deliver src dst s.network = some (payload, network)) :
    s.carried.Perm ((carriedFish ⟨src, dst, payload⟩).toList ++ network.filterMap carriedFish) := by
  refine ((Network.deliver_perm hdel).filterMap carriedFish).trans (List.Perm.of_eq ?_)
  rw [List.filterMap_cons]
  cases carriedFish ⟨src, dst, payload⟩ <;> rfl

theorem places_atTank {s : System} (hl : s.hosts.Nodup) (network : List Packet)
    {a : InetSocketAddress} (ha : a ∈ s.hosts) (r : TankModel × List Send) (created : ℕ) :
    ∃ rest, s.places.Perm ((s.tanks a).fishies.map (FishObject.place a) ++ rest) ∧
      ({ s with network := network }.atTank a r created).1.places.Perm
        (r.1.fishies.map (FishObject.place a) ++ rest) :=
  Update.flatMap_perm hl ha s.tanks r.1 (fun a t => t.fishies.map (FishObject.place a))

theorem places_atTank_same {s : System} (hl : s.hosts.Nodup) {network : List Packet}
    {a : InetSocketAddress} (ha : a ∈ s.hosts) {r : TankModel × List Send} (created : ℕ)
    (hsame : r.1.fishies.map (FishObject.place a) = (s.tanks a).fishies.map (FishObject.place a)) :
    s.places.Perm ({ s with network := network }.atTank a r created).1.places := by
  obtain ⟨rest, hbefore, hafter⟩ := places_atTank hl network ha r created
  rw [hsame] at hafter
  exact hbefore.trans hafter.symm

theorem places_entered {s : System} (hl : s.hosts.Nodup) {network : List Packet}
    {a : InetSocketAddress} (ha : a ∈ s.hosts) {r : TankModel × List Send} (created : ℕ)
    {x : FishObject} (hfishies : r.1.fishies = (s.tanks a).fishies ++ [x]) :
    ({ s with network := network }.atTank a r created).1.places.Perm (s.places ++ [x.place a]) := by
  obtain ⟨rest, hbefore, hafter⟩ := places_atTank hl network ha r created
  refine hafter.trans ?_
  rw [hfishies, List.map_append, List.map_singleton, List.append_assoc]
  refine (List.perm_append_comm.append_left _).trans ?_
  rw [← List.append_assoc]
  exact hbefore.symm.append_right _

theorem counters_atTank {s : System} {network : List Packet} {a : InetSocketAddress}
    {r : TankModel × List Send} (created : ℕ) (hcount : (s.tanks a).fishCounter ≤ r.1.fishCounter)
    (b : InetSocketAddress) : (s.tanks b).fishCounter ≤
      (({ s with network := network }.atTank a r created).1.tanks b).fishCounter := by
  rcases eq_or_ne b a with rfl | hb
  · simpa only [System.atTank, Function.update_self] using hcount
  · simp only [System.atTank, Function.update_of_ne hb, le_refl]

theorem Assembled.named {s : System} (h : Assembled s) {a : InetSocketAddress} (ha : a ∈ s.hosts) :
    ∃ id, (s.tanks a).id = some id ∧ s.broker.nameService id = some a := by
  obtain ⟨c, hc, rfl⟩ := List.mem_map.mp ((h.members a).mpr ha)
  exact ⟨c.id, h.identified c hc, h.names.stored c hc⟩

theorem Assembled.id_inj {s : System} (h : Assembled s) {a b : InetSocketAddress} (ha : a ∈ s.hosts)
    (hb : b ∈ s.hosts) (heq : (s.tanks a).id = (s.tanks b).id) : a = b := by
  obtain ⟨id, hid, hstored⟩ := h.named ha
  obtain ⟨id', hid', hstored'⟩ := h.named hb
  rw [hid, hid', Option.some_inj] at heq
  rw [heq, hstored'] at hstored
  exact (Option.some_inj.mp hstored).symm

theorem updateFish_sent (t : TankModel) (discreteSin : ℤ) (fish : FishModel) :
    (t.updateFish discreteSin fish).2 = [] ∨
      ∃ receiver, (receiver = t.left ∨ receiver = t.right) ∧
        (t.updateFish discreteSin fish).2 =
          [(receiver, .handoffRequest (t.updateFish discreteSin fish).1)] := by
  rw [TankModel.updateFish]
  split
  · split
    · refine Or.inr ⟨_, ?_, rfl⟩
      split
      · exact Or.inr rfl
      · exact Or.inl rfl
    · exact Or.inl rfl
  · exact Or.inl rfl

theorem carried_update {t : TankModel} {a left right : InetSocketAddress} (hleft : t.left = some left)
    (hright : t.right = some right) (discreteSin : ℕ → ℤ) :
    (packetsFrom a (t.update discreteSin).2).filterMap carriedFish =
      (t.fishies.filter (t.handsOff discreteSin)).map (fun o => o.fish.id) := by
  have hfish : (t.updateFishies discreteSin).2 =
      t.fishies.flatMap (fun o => (t.updateFish (discreteSin o.ref) o.fish).2) := by
    rw [TankModel.updateFishies, List.flatMap_map]
  have hsends : (t.update discreteSin).2 =
      (t.updateFishies discreteSin).2 ++ (t.updateFishies discreteSin).1.passOnGs.2 := rfl
  have hpassed : (packetsFrom a (t.updateFishies discreteSin).1.passOnGs.2).filterMap carriedFish =
      [] := by
    apply carried_packetsFrom
    intro m hm fish
    obtain ⟨_, rfl⟩ := TankModel.passOnGs_sends _ hm
    exact Payload.noConfusion
  rw [hsends, packetsFrom_append, List.filterMap_append, hpassed, List.append_nil, hfish]
  generalize t.fishies = fishies
  induction fishies with
  | nil => rfl
  | cons o fishies ih =>
    rw [List.flatMap_cons, packetsFrom_append, List.filterMap_append, ih]
    have hid := updateFish_id t (discreteSin o.ref) o.fish
    rcases updateFish_sent t (discreteSin o.ref) o.fish with hnone | ⟨receiver, hreceiver, hsent⟩
    · have hstays : (o :: fishies).filter (t.handsOff discreteSin) =
          fishies.filter (t.handsOff discreteSin) :=
        List.filter_cons_of_neg (by simp [TankModel.handsOff, hnone])
      rw [hnone, hstays]
      rfl
    · have hgoes : (o :: fishies).filter (t.handsOff discreteSin) =
          o :: fishies.filter (t.handsOff discreteSin) :=
        List.filter_cons_of_pos (by simp [TankModel.handsOff, hsent])
      rw [hsent, hgoes, List.map_cons, ← hid]
      rw [hleft, hright] at hreceiver
      rcases hreceiver with rfl | rfl
      · rfl
      · rfl

namespace Conserved

variable {os : List Occurrence} {s s' : System} {o : Occurrence}

theorem numbered_kept (h : Conserved os s) (hkept : Assembled.Kept s s')
    (hcounter : ∀ a, (s.tanks a).fishCounter ≤ (s'.tanks a).fishCounter) :
    ∀ id ∈ createdFish os, ∃ a ∈ s'.hosts, (s'.tanks a).id = some id.tank ∧
      id.num ≤ (s'.tanks a).fishCounter := by
  intro id hid
  obtain ⟨a, ha, htank, hnum⟩ := h.numbered id hid
  exact ⟨a, hkept.hosts ▸ ha, (hkept.id a).trans htank, le_trans hnum (hcounter a)⟩

theorem handed_kept (h : Conserved os s) (hfresh : s.fresh ≤ s'.fresh) :
    ∀ r ∈ handedOff os, r < s'.fresh :=
  fun r hr => Nat.lt_of_lt_of_le (h.handed r hr) hfresh

theorem quiet (h : Conserved os s) (hassembled : Assembled s') (hkept : Assembled.Kept s s')
    (hplaces : s.places.Perm s'.places) (hcarried : s.carried.Perm s'.carried)
    (hfresh : s.fresh ≤ s'.fresh)
    (hcounter : ∀ a, (s.tanks a).fishCounter ≤ (s'.tanks a).fishCounter)
    (hcreated : o.created = []) (hhanded : o.handedOff = []) (hlost : o.lost (handedOff os) = []) :
    Conserved (os ++ [o]) s' := by
  have hc := createdFish_same os hcreated
  have hh := handedOff_same os hhanded
  refine ⟨hassembled, ?_, ?_, ?_, ?_, ?_⟩
  · rw [hc, hh, lostFish_same os hlost]
    exact h.accounted.perm hplaces hcarried
  · exact fun p hp => Nat.lt_of_lt_of_le (h.placed p (hplaces.mem_iff.mpr hp)) hfresh
  · rw [hh]
    exact h.handed_kept hfresh
  · rw [hc]
    exact h.numbered_kept hkept hcounter
  · rw [hc]
    exact h.once

theorem unused (h : Conserved os s) : s.fresh ∉ s.places.map Place.ref ∧ s.fresh ∉ handedOff os := by
  refine ⟨?_, fun hmem => Nat.lt_irrefl _ (h.handed _ hmem)⟩
  intro hmem
  obtain ⟨p, hp, heq⟩ := List.mem_map.mp hmem
  have hlt := h.placed p hp
  rw [heq] at hlt
  exact Nat.lt_irrefl _ hlt

theorem placed_snoc (h : Conserved os s) {p : Place} (hnew : s'.places.Perm (s.places ++ [p]))
    (href : p.ref = s.fresh) (hfresh : s'.fresh = s.fresh + 1) : ∀ q ∈ s'.places, q.ref < s'.fresh := by
  intro q hq
  rw [hfresh]
  rcases List.mem_append.mp (hnew.mem_iff.mp hq) with hold | hadded
  · exact Nat.lt_succ_of_lt (h.placed q hold)
  · rw [List.mem_singleton.mp hadded, href]
    exact Nat.lt_succ_self _

theorem launch_room (h : Conserved os s) (hassembled : Assembled s') (hkept : Assembled.Kept s s')
    {a : InetSocketAddress} {x y : ℤ} {direction : Direction} (ha : a ∈ s.hosts)
    (hroom : (s.tanks a).fishies.length < TankModel.maxFishies)
    (hnext : s' = (s.atTank a ((s.tanks a).newFish s.fresh x y direction, []) 1).1)
    (hcarried : s.carried = s'.carried)
    (hcreated : o.created = (((s.tanks a).newFish s.fresh x y direction).fishies.drop
      (s.tanks a).fishies.length).map (fun x => x.fish.id))
    (hhanded : o.handedOff = []) (hlost : o.lost (handedOff os) = []) :
    Conserved (os ++ [o]) s' := by
  obtain ⟨x', hfishies, href, hid, hcount⟩ := newFish_room hroom s.fresh x y direction
  obtain ⟨name, hname, _⟩ := h.assembled.named ha
  rw [hname, Option.getD_some] at hid
  rw [hfishies, List.drop_left, List.map_singleton, hid] at hcreated
  have hc := createdFish_snoc os o
  rw [hcreated] at hc
  have hh := handedOff_same os hhanded
  have hfresh : s'.fresh = s.fresh + 1 := by
    rw [hnext]
    rfl
  have hnew : s'.places.Perm (s.places ++ [x'.place a]) := by
    rw [hnext]
    exact places_entered h.assembled.distinct ha 1 hfishies
  have hplaceref : (x'.place a).ref = s.fresh := href
  have hentered := h.accounted.enter (hplaceref ▸ h.unused.1) (hplaceref ▸ h.unused.2)
  have hunknown : (⟨(s.tanks a).fishCounter + 1, name⟩ : FishId) ∉ createdFish os := by
    intro hmem
    obtain ⟨b, hb, htank', hnum⟩ := h.numbered _ hmem
    obtain rfl := h.assembled.id_inj hb ha (htank'.trans hname.symm)
    exact Nat.not_succ_le_self _ hnum
  have hcounter : (s'.tanks a).fishCounter = (s.tanks a).fishCounter + 1 := by
    rw [hnext]
    simp only [System.atTank, Function.update_self, hcount]
  have hcounters : ∀ b, (s.tanks b).fishCounter ≤ (s'.tanks b).fishCounter := by
    rw [hnext]
    exact counters_atTank 1 (hcount.symm ▸ Nat.le_succ _)
  refine ⟨hassembled, ?_, h.placed_snoc hnew hplaceref hfresh, ?_, ?_, ?_⟩
  · rw [hc, hh, lostFish_same os hlost, ← hcarried]
    have hplace : (x'.place a).id = ⟨(s.tanks a).fishCounter + 1, name⟩ := hid
    rw [hplace] at hentered
    exact hentered.perm hnew.symm (List.Perm.refl _)
  · rw [hh]
    exact h.handed_kept (hfresh ▸ Nat.le_succ _)
  · rw [hc, List.forall_mem_append, List.forall_mem_singleton]
    exact ⟨h.numbered_kept hkept hcounters, a, hkept.hosts ▸ ha, (hkept.id a).trans hname,
      hcounter.ge⟩
  · rw [hc, ← List.concat_eq_append]
    exact List.Nodup.concat hunknown h.once

theorem launch (h : Conserved os s) (hassembled : Assembled s') (hkept : Assembled.Kept s s')
    {a : InetSocketAddress} {x y : ℤ} {direction : Direction} (ha : a ∈ s.hosts)
    (hbefore : o.before = s) (hafter : o.after = s') (hevent : o.event = .newFish a x y direction)
    (hnext : s' = (s.atTank a ((s.tanks a).newFish s.fresh x y direction, []) 1).1) :
    Conserved (os ++ [o]) s' := by
  have hhanded : o.handedOff = [] := handedOff_eq_nil (by simp [hevent])
  have hlost : o.lost (handedOff os) = [] := lost_eq_nil _ (by simp [hevent])
  have htank : s'.tanks a = (s.tanks a).newFish s.fresh x y direction := by
    rw [hnext]
    exact Function.update_self _ _ _
  have hcreated : o.created = (((s.tanks a).newFish s.fresh x y direction).fishies.drop
      (s.tanks a).fishies.length).map (fun x => x.fish.id) := by
    rw [Occurrence.created, hevent]
    simp only [hbefore, hafter, htank]
  have hcarried : s.carried = s'.carried := by
    rw [hnext]
    simp [System.carried, System.atTank, packetsFrom]
  rcases Nat.lt_or_ge (s.tanks a).fishies.length TankModel.maxFishies with hroom | hfull
  · exact h.launch_room hassembled hkept ha hroom hnext hcarried hcreated hhanded hlost
  · have hsame : (s.tanks a).newFish s.fresh x y direction = s.tanks a := by
      rw [TankModel.newFish, if_neg (Nat.not_lt.mpr hfull)]
    rw [hsame] at hcreated hnext
    refine h.quiet hassembled hkept ?_ (List.Perm.of_eq hcarried) ?_ ?_ ?_ hhanded hlost
    · rw [hnext]
      exact places_atTank_same h.assembled.distinct ha 1 rfl
    · rw [hnext]
      exact Nat.le_succ _
    · intro b
      rw [hnext]
      simp only [System.atTank, Function.update_eq_self, le_refl]
    · rw [hcreated, List.drop_length, List.map_nil]

theorem swim (h : Conserved os s) (hassembled : Assembled s') (hkept : Assembled.Kept s s')
    {a : InetSocketAddress} {discreteSin : ℕ → ℤ} (ha : a ∈ s.hosts) (hbefore : o.before = s)
    (hevent : o.event = .update a discreteSin)
    (hnext : s' = (s.atTank a ((s.tanks a).update discreteSin) 0).1) :
    Conserved (os ++ [o]) s' := by
  have hcreated : o.created = [] := by
    rw [Occurrence.created, hevent]
  have hhanded : o.handedOff = ((s.tanks a).fishies.filter ((s.tanks a).handsOff discreteSin)).map
      FishObject.ref := by
    rw [Occurrence.handedOff, hevent]
    simp only [hbefore]
  have hlost : o.lost (handedOff os) = ((s.tanks a).fishies.filter (fun x =>
      ((s.tanks a).updateFish (discreteSin x.ref) x.fish).1.disappears &&
        x.ref ∉ handedOff os)).map (fun x => x.fish.id) := by
    rw [Occurrence.lost, hevent]
    simp only [hbefore]
  have hc := createdFish_same os hcreated
  have hh := handedOff_snoc os o
  have hl := lostFish_snoc os o
  rw [hhanded] at hh
  rw [hlost] at hl
  obtain ⟨rest, hplaces, hplaces'⟩ := places_atTank h.assembled.distinct s.network ha
    ((s.tanks a).update discreteSin) 0
  have hfishies : ((s.tanks a).update discreteSin).1.fishies =
      ((s.tanks a).fishies.map (fun x => FishObject.mk x.ref
        ((s.tanks a).updateFish (discreteSin x.ref) x.fish).1)).filter
          (fun x => !x.fish.disappears) := by
    obtain ⟨_, _, hframe⟩ := (s.tanks a).update_frame discreteSin
    rw [hframe, TankModel.updateFishies, List.map_map]
    rfl
  rw [hfishies, List.filter_map, List.map_map, ← hnext] at hplaces'
  have hfresh : s'.fresh = s.fresh := by
    rw [hnext]
    rfl
  have hcounter : ∀ b, (s'.tanks b).fishCounter = (s.tanks b).fishCounter := by
    intro b
    rw [hnext]
    rcases eq_or_ne b a with rfl | hb
    · obtain ⟨_, _, hframe⟩ := (s.tanks b).update_frame discreteSin
      simp only [System.atTank, Function.update_self, hframe, TankModel.updateFishies]
    · simp only [System.atTank, Function.update_of_ne hb]
  have hcarried : s'.carried = s.carried ++
      ((s.tanks a).fishies.filter ((s.tanks a).handsOff discreteSin)).map (fun x => x.fish.id) := by
    rw [hnext, System.carried, System.atTank, List.filterMap_append,
      carried_update (h.assembled.left_eq ha) (h.assembled.right_eq ha)]
    rfl
  have hmoved := Accounted.move ((s.tanks a).handsOff discreteSin)
    (fun x => ((s.tanks a).updateFish (discreteSin x.ref) x.fish).1.disappears) h.accounted
    hplaces hplaces' (fun _ _ => rfl) (fun _ _ => updateFish_id _ _ _) ?_ ?_
  · refine ⟨hassembled, ?_, ?_, ?_, ?_, ?_⟩
    · rw [hc, hh, hl, hcarried]
      exact hmoved
    · intro p hp
      rw [hfresh]
      rcases List.mem_append.mp (hplaces'.mem_iff.mp hp) with hhere | hrest
      · obtain ⟨x, hx, rfl⟩ := List.mem_map.mp hhere
        exact h.placed (x.place a) (hplaces.mem_iff.mpr (List.mem_append_left _
          (List.mem_map_of_mem (List.mem_of_mem_filter hx))))
      · exact h.placed p (hplaces.mem_iff.mpr (List.mem_append_right _ hrest))
    · rw [hh, hfresh, List.forall_mem_append]
      refine ⟨h.handed, ?_⟩
      intro r hr
      obtain ⟨x, hx, rfl⟩ := List.mem_map.mp hr
      exact h.placed (x.place a) (hplaces.mem_iff.mpr (List.mem_append_left _
        (List.mem_map_of_mem (List.mem_of_mem_filter hx))))
    · rw [hc]
      exact h.numbered_kept hkept (fun b => (hcounter b).ge)
    · rw [hc]
      exact h.once
  · intro x _ hgoes
    have hsends : ((s.tanks a).updateFish (discreteSin x.ref) x.fish).2 ≠ [] := by
      simpa [TankModel.handsOff] using hgoes
    exact updateFish_handsOff (s.tanks a) a hsends
  · intro x _ hleaves
    obtain ⟨hsends, hstays⟩ :=
      updateFish_leaves (s.tanks a) a (discreteSin x.ref) hleaves
    exact ⟨by simp [TankModel.handsOff, hsends], hstays⟩

theorem arrive (h : Conserved os s) (hassembled : Assembled s') (hkept : Assembled.Kept s s')
    {src dst : InetSocketAddress} {objects : ℕ × ℕ} {fish : FishModel} {network : List Packet}
    (hhost : dst ∈ s.hosts) (hevent : o.event = .deliver src dst objects)
    (hdel : Network.deliver src dst s.network = some (.handoffRequest fish, network))
    (hnext : s' = ({ s with network := network }.atTank dst
      ((s.tanks dst).receive s.fresh src objects (.handoffRequest fish)) 1).1) :
    Conserved (os ++ [o]) s' := by
  have hcreated : o.created = [] := by
    rw [Occurrence.created, hevent]
  have hhanded : o.handedOff = [] := handedOff_eq_nil (by simp [hevent])
  have hlost : o.lost (handedOff os) = [] := lost_eq_nil _ (by simp [hevent])
  have hc := createdFish_same os hcreated
  have hh := handedOff_same os hhanded
  have hfresh : s'.fresh = s.fresh + 1 := by
    rw [hnext]
    rfl
  obtain ⟨_, _, _, hframe⟩ := (s.tanks dst).receiveFish_frame s.fresh fish
  generalize hx : FishObject.mk s.fresh fish.setToStart = x at hframe
  have hnew : s'.places.Perm (s.places ++ [x.place dst]) := by
    rw [hnext]
    apply places_entered h.assembled.distinct hhost 1
    rw [TankModel.receive, hframe]
  have hcarried : s.carried.Perm (fish.id :: s'.carried) := by
    have hnone := carried_packetsFrom dst
      (receive_handoffs (s.tanks dst) s.fresh src objects (.handoffRequest fish))
    rw [hnext, System.carried, System.carried, System.atTank, List.filterMap_append, hnone,
      List.append_nil]
    exact carried_deliver hdel
  have href : (x.place dst).ref = s.fresh := by
    rw [← hx]
    rfl
  have hid : (x.place dst).id = fish.id := by
    rw [← hx]
    rfl
  have haccounted := h.accounted.perm (List.Perm.refl _) hcarried
  rw [← hid] at haccounted
  refine ⟨hassembled, ?_, h.placed_snoc hnew href hfresh, ?_, ?_, ?_⟩
  · rw [hc, hh, lostFish_same os hlost]
    exact (haccounted.arrive (href ▸ h.unused.1) (href ▸ h.unused.2)).perm hnew.symm
      (List.Perm.refl _)
  · rw [hh]
    exact h.handed_kept (hfresh ▸ Nat.le_succ _)
  · rw [hc]
    apply h.numbered_kept hkept
    rw [hnext]
    apply counters_atTank
    rw [TankModel.receive, hframe]
  · rw [hc]
    exact h.once

theorem next (h : Conserved os s) (hstep : Step s o s') (hstay : Stays o) :
    Conserved (os ++ [o]) s' := by
  have hassembled := h.assembled.next hstep hstay
  have hkept := h.assembled.kept hstep
  obtain ⟨rfl, rfl, hstep⟩ := hstep
  cases step_cases hstep with
  | tankActs a r created ha hacts heq =>
    have hnext : o.after = (o.before.atTank a r created).1 := congrArg Prod.fst heq
    rcases hacts.fish with ⟨x, y, direction, he⟩ | ⟨discreteSin, he⟩ |
        ⟨hnew, hupdate, hplaces, hcount, hsends⟩
    · rw [he] at hacts
      cases hacts
      exact h.launch hassembled hkept ha rfl rfl he hnext
    · rw [he] at hacts
      cases hacts
      exact h.swim hassembled hkept ha rfl he hnext
    · refine h.quiet hassembled hkept ?_ ?_ ?_ ?_ (created_eq_nil hnew) (handedOff_eq_nil hupdate)
        (lost_eq_nil _ hupdate)
      · rw [hnext]
        exact places_atTank_same h.assembled.distinct ha created hplaces
      · rw [hnext, System.carried, System.carried, System.atTank, List.filterMap_append,
          carried_packetsFrom _ hsends, List.append_nil]
      · rw [hnext]
        exact Nat.le_add_right _ _
      · rw [hnext]
        exact counters_atTank created hcount.ge
  | brokerReceives src objects payload network he hdel heq =>
    have hnext : o.after = ({ o.before with network := network }.atBroker
        (o.before.broker.receive src payload)).1 := congrArg Prod.fst heq
    have hother : ∀ fish, payload ≠ .handoffRequest fish := by
      rintro fish rfl
      exact h.assembled.broker ((h.assembled.orderly _ (Network.deliver_mem hdel)).ring rfl)
    refine h.quiet hassembled hkept ?_ ?_ ?_ ?_ (created_eq_nil (by simp [he]))
      (handedOff_eq_nil (by simp [he])) (lost_eq_nil _ (by simp [he]))
    · rw [hnext]
      exact List.Perm.refl _
    · have hsends : ∀ m ∈ (o.before.broker.receive src payload).2, ∀ fish,
          m.2 ≠ .handoffRequest fish := by
        intro m hm fish heq
        rcases Broker.receive_sends hm with hfrom | hfrom
        · rw [heq] at hfrom
          cases hfrom
        · rw [heq] at hfrom
          cases hfrom
      have hcarried : o.after.carried = network.filterMap carriedFish := by
        rw [hnext, System.carried]
        refine List.filterMap_append.trans ?_
        rw [carried_packetsFrom _ hsends, List.append_nil]
      rw [hcarried]
      exact (carried_deliver hdel).trans (List.Perm.of_eq (by rw [carriedFish_eq_none hother]; rfl))
    · rw [hnext]
      exact le_refl _
    · rw [hnext]
      exact fun _ => le_refl _
  | tankReceives src dst objects payload network he hdst hhost hdel heq =>
    have hnext : o.after = ({ o.before with network := network }.atTank dst
        ((o.before.tanks dst).receive o.before.fresh src objects payload) payload.objects).1 :=
      congrArg Prod.fst heq
    rcases Classical.em (∃ fish, payload = .handoffRequest fish) with ⟨fish, rfl⟩ | hnone
    · exact h.arrive hassembled hkept hhost he hdel hnext
    · have hother : ∀ fish, payload ≠ .handoffRequest fish := fun fish heq => hnone ⟨fish, heq⟩
      obtain ⟨hplaces, hcount⟩ := receive_fish (o.before.tanks dst) o.before.fresh src objects dst
        hother
      refine h.quiet hassembled hkept ?_ ?_ ?_ ?_ (created_eq_nil (by simp [he]))
        (handedOff_eq_nil (by simp [he])) (lost_eq_nil _ (by simp [he]))
      · rw [hnext]
        exact places_atTank_same h.assembled.distinct hhost _ hplaces
      · have hcarried : o.after.carried = network.filterMap carriedFish := by
          rw [hnext, System.carried]
          refine List.filterMap_append.trans ?_
          rw [carried_packetsFrom _ (receive_handoffs _ _ _ _ _), List.append_nil]
        rw [hcarried]
        exact (carried_deliver hdel).trans (List.Perm.of_eq (by rw [carriedFish_eq_none hother]; rfl))
      · rw [hnext]
        exact Nat.le_add_right _ _
      · rw [hnext]
        exact counters_atTank _ hcount.ge

-- A ring without fish.
theorem init {s : System} (hassembled : Assembled s) (hempty : s.places = [] ∧ s.carried = []) :
    Conserved [] s := by
  refine ⟨hassembled, ⟨?_, ?_, ?_⟩, ?_, ?_, ?_, List.nodup_nil⟩
  · rw [hempty.1]
    exact List.nodup_nil
  · rw [hempty.1]
    exact fun p hp => absurd hp List.not_mem_nil
  · rw [hempty.1, hempty.2]
    exact List.Perm.refl _
  · rw [hempty.1]
    exact fun p hp => absurd hp List.not_mem_nil
  · exact fun r hr => absurd hr List.not_mem_nil
  · exact fun id hid => absurd hid List.not_mem_nil

end Conserved

-- Where the fish of a place comes from in a step.
inductive Origin (s : System) (o : Occurrence) (p : Place) : Prop where
  | stayed : p ∈ s.places → Origin s o p
  | launched (a : InetSocketAddress) (x y : ℤ) (direction : Direction) (fish : FishObject) :
      o.event = .newFish a x y direction → a ∈ s.hosts →
      (s.tanks a).fishies.length < TankModel.maxFishies →
      ((s.tanks a).newFish s.fresh x y direction).fishies = (s.tanks a).fishies ++ [fish] →
      p = fish.place a → Origin s o p
  | moved (a : InetSocketAddress) (discreteSin : ℕ → ℤ) (fish : FishObject) :
      o.event = .update a discreteSin → a ∈ s.hosts → fish ∈ (s.tanks a).fishies →
      p = FishObject.place a
        ⟨fish.ref, ((s.tanks a).updateFish (discreteSin fish.ref) fish.fish).1⟩ → Origin s o p
  | arrived (src dst : InetSocketAddress) (objects : ℕ × ℕ) (fish : FishModel)
      (network : List Packet) : o.event = .deliver src dst objects → dst ∈ s.hosts →
      Network.deliver src dst s.network = some (.handoffRequest fish, network) →
      p = FishObject.place dst ⟨s.fresh, fish.setToStart⟩ → Origin s o p

section Origins

variable {s s' : System} {o : Occurrence}

theorem mem_places {s : System} {p : Place} :
    p ∈ s.places ↔ ∃ a ∈ s.hosts, ∃ x ∈ (s.tanks a).fishies, p = x.place a := by
  rw [System.places, List.mem_flatMap]
  constructor
  · rintro ⟨a, ha, hp⟩
    obtain ⟨x, hx, rfl⟩ := List.mem_map.mp hp
    exact ⟨a, ha, x, hx, rfl⟩
  · rintro ⟨a, ha, x, hx, rfl⟩
    exact ⟨a, ha, List.mem_map_of_mem hx⟩

-- Only the places of the tank that works change.
theorem places_of_atTank {network : List Packet} {a : InetSocketAddress}
    {r : TankModel × List Send} {created : ℕ}
    (hnext : s' = ({ s with network := network }.atTank a r created).1) {p : Place}
    (hp : p ∈ s'.places) :
    p ∈ s.places ∨ a ∈ s.hosts ∧ ∃ x ∈ r.1.fishies, p = x.place a := by
  obtain ⟨b, hb, x, hx, rfl⟩ := mem_places.mp hp
  have hhosts : s'.hosts = s.hosts := by
    rw [hnext]
    rfl
  have htanks : s'.tanks = Function.update s.tanks a r.1 := by
    rw [hnext]
    rfl
  rw [hhosts] at hb
  rw [htanks] at hx
  rcases eq_or_ne b a with rfl | hne
  · rw [Function.update_self] at hx
    exact Or.inr ⟨hb, x, hx, rfl⟩
  · rw [Function.update_of_ne hne] at hx
    exact Or.inl (mem_places.mpr ⟨b, hb, x, hx, rfl⟩)

theorem places_of_same {a : InetSocketAddress} (ha : a ∈ s.hosts) {t : TankModel}
    (hsame : t.fishies.map (FishObject.place a) = (s.tanks a).fishies.map (FishObject.place a))
    {x : FishObject} (hx : x ∈ t.fishies) : x.place a ∈ s.places := by
  have hplace : x.place a ∈ (s.tanks a).fishies.map (FishObject.place a) :=
    hsame ▸ List.mem_map_of_mem hx
  obtain ⟨x', hx', heq⟩ := List.mem_map.mp hplace
  exact mem_places.mpr ⟨a, ha, x', hx', heq.symm⟩

theorem Step.origin (hstep : Step s o s') {p : Place} (hp : p ∈ s'.places) : Origin s o p := by
  obtain ⟨rfl, rfl, hstep⟩ := hstep
  cases step_cases hstep with
  | tankActs a r created ha hacts heq =>
    rcases places_of_atTank (congrArg Prod.fst heq) hp with hold | ⟨_, x, hx, rfl⟩
    · exact Origin.stayed hold
    rcases hacts.fish with ⟨x', y, direction, he⟩ | ⟨discreteSin, he⟩ | ⟨_, _, hplaces, _⟩
    · rw [he] at hacts
      cases hacts
      rcases Nat.lt_or_ge (o.before.tanks a).fishies.length TankModel.maxFishies with hroom | hfull
      · obtain ⟨fish, hfishies, _⟩ := newFish_room hroom o.before.fresh x' y direction
        rw [hfishies] at hx
        rcases List.mem_append.mp hx with hold | hnew
        · exact Origin.stayed (mem_places.mpr ⟨a, ha, x, hold, rfl⟩)
        · exact Origin.launched a x' y direction fish he ha hroom hfishies
            (by rw [List.mem_singleton.mp hnew])
      · rw [TankModel.newFish, if_neg (Nat.not_lt.mpr hfull)] at hx
        exact Origin.stayed (mem_places.mpr ⟨a, ha, x, hx, rfl⟩)
    · rw [he] at hacts
      cases hacts
      obtain ⟨_, _, hframe⟩ := (o.before.tanks a).update_frame discreteSin
      rw [hframe, TankModel.updateFishies, List.map_map] at hx
      obtain ⟨fish, hfish, rfl⟩ := List.mem_map.mp (List.mem_of_mem_filter hx)
      exact Origin.moved a discreteSin fish he ha hfish rfl
    · exact Origin.stayed (places_of_same ha hplaces hx)
  | brokerReceives src objects payload network he hdel heq =>
    obtain ⟨a, ha, x, hx, rfl⟩ := mem_places.mp hp
    have hhosts : o.after.hosts = o.before.hosts :=
      congrArg (fun r : System × List Packet => r.1.hosts) heq
    have htanks : o.after.tanks = o.before.tanks :=
      congrArg (fun r : System × List Packet => r.1.tanks) heq
    rw [hhosts] at ha
    rw [htanks] at hx
    exact Origin.stayed (mem_places.mpr ⟨a, ha, x, hx, rfl⟩)
  | tankReceives src dst objects payload network he hdst hhost hdel heq =>
    rcases places_of_atTank (congrArg Prod.fst heq) hp with hold | ⟨_, x, hx, rfl⟩
    · exact Origin.stayed hold
    rcases Classical.em (∃ fish, payload = .handoffRequest fish) with ⟨fish, rfl⟩ | hnone
    · obtain ⟨_, _, _, hframe⟩ := (o.before.tanks dst).receiveFish_frame o.before.fresh fish
      rw [TankModel.receive, hframe] at hx
      rcases List.mem_append.mp hx with hold | hnew
      · exact Origin.stayed (mem_places.mpr ⟨dst, hhost, x, hold, rfl⟩)
      · exact Origin.arrived src dst objects fish network he hhost hdel
          (by rw [List.mem_singleton.mp hnew])
    · have hother : ∀ fish, payload ≠ .handoffRequest fish := fun fish heq => hnone ⟨fish, heq⟩
      exact Origin.stayed (places_of_same hhost (receive_fish _ _ src objects dst hother).1 hx)

end Origins

end Aqualife
