import HTWGArchive.Aqualife.Custody

namespace Aqualife

-- In the tank and not yet handed off.
def Place.Swims (p : Place) : Prop :=
  (p.direction = .left ∧ 1 ≤ p.x ∧ p.x ≤ 600) ∨ (p.direction = .right ∧ -100 ≤ p.x ∧ p.x ≤ 499)

theorem updateFish_swims (t : TankModel) (a : InetSocketAddress) {o : FishObject} (discreteSin : ℤ)
    (h : (o.place a).Swims) :
    (t.updateFish discreteSin o.fish).1.disappears = false ∧
      ((t.updateFish discreteSin o.fish).2 = [] →
        (FishObject.place a ⟨o.ref, (t.updateFish discreteSin o.fish).1⟩).Swims) := by
  have hedge := update_hitsEdge discreteSin o.fish
  obtain ⟨ref, id, x, y, direction, toggled⟩ := o
  simp only [Place.Swims, FishObject.place] at h ⊢
  rw [TankModel.updateFish]
  split
  · rename_i hhits
    have hat := hedge.mp hhits
    split
    · refine ⟨?_, fun hsends => absurd hsends (List.cons_ne_nil _ _)⟩
      rw [← Bool.not_eq_true, disappears_iff]
      cases direction <;> simp [FishModel.update, Direction.vector] at hat ⊢ <;> omega
    · refine ⟨?_, fun _ => ?_⟩
      · rw [← Bool.not_eq_true, disappears_iff]
        cases direction <;>
          simp [FishModel.update, FishModel.reverse, Direction.reverse, Direction.vector] at hat ⊢ <;> omega
      · cases direction <;>
          simp [FishModel.update, FishModel.reverse, Direction.reverse, Direction.vector] at hat ⊢ <;> omega
  · rename_i hmiss
    have hinside : ¬((direction = .left ∧ x = 1) ∨ (direction = .right ∧ x = 499)) :=
      fun hat => hmiss (hedge.mpr hat)
    refine ⟨?_, fun _ => ?_⟩
    · rw [← Bool.not_eq_true, disappears_iff]
      cases direction <;> simp [FishModel.update, Direction.vector] at h hinside ⊢ <;> omega
    · cases direction <;> simp [FishModel.update, Direction.vector] at h hinside ⊢ <;> omega

theorem newFish_swims {t : TankModel} (hroom : t.fishies.length < TankModel.maxFishies) {fresh : ℕ}
    {x y : ℤ} {direction : Direction} {o : FishObject}
    (hfish : (t.newFish fresh x y direction).fishies = t.fishies ++ [o]) (hx : 0 ≤ x)
    (hedge : direction = .left → x ≠ 0) (a : InetSocketAddress) : (o.place a).Swims := by
  rw [TankModel.newFish, if_pos hroom] at hfish
  obtain rfl := (List.cons.inj (List.append_cancel_left hfish)).1
  simp only [Place.Swims, FishObject.place, tankWidth, FishModel.xSize]
  cases direction with
  | left =>
    have hne := hedge rfl
    left
    refine ⟨rfl, ?_⟩
    split_ifs <;> omega
  | right =>
    right
    refine ⟨rfl, ?_⟩
    split_ifs <;> omega

theorem setToStart_swims (fish : FishModel) (ref : ℕ) (a : InetSocketAddress) :
    (FishObject.place a ⟨ref, fish.setToStart⟩).Swims := by
  obtain ⟨id, x, y, direction, toggled⟩ := fish
  cases direction with
  | left => simp [Place.Swims, FishObject.place, FishModel.setToStart, tankWidth]
  | right => simp [Place.Swims, FishObject.place, FishModel.setToStart, FishModel.xSize]

def Launched (o : Occurrence) : Prop :=
  ∀ a x y direction, o.event = .newFish a x y direction → 0 ≤ x ∧ 0 ≤ y

-- No fish enters at the left edge looking out of the tank.
def OffEdge (o : Occurrence) : Prop :=
  ∀ a y, o.event = .newFish a 0 y .left → TankModel.maxFishies ≤ (o.before.tanks a).fishies.length

def Event.launchedAt : Event → Option (InetSocketAddress × ℤ × ℤ × Direction)
  | .newFish a x y direction => some (a, x, y, direction)
  | _ => none

theorem launchedAt_iff {e : Event} {a : InetSocketAddress} {x y : ℤ} {direction : Direction} :
    e = .newFish a x y direction ↔ (a, x, y, direction) ∈ e.launchedAt := by
  cases e <;> simp [Event.launchedAt]

instance (o : Occurrence) : Decidable (Launched o) :=
  decidable_of_iff (∀ l ∈ o.event.launchedAt, 0 ≤ l.2.1 ∧ 0 ≤ l.2.2.1) <| by
    simp only [Launched, launchedAt_iff]
    exact ⟨fun h a x y direction => h (a, x, y, direction), fun h l => h l.1 l.2.1 l.2.2.1 l.2.2.2⟩

instance (o : Occurrence) : Decidable (OffEdge o) :=
  decidable_of_iff (∀ l ∈ o.event.launchedAt, l.2.1 = 0 → l.2.2.2 = .left →
      TankModel.maxFishies ≤ (o.before.tanks l.1).fishies.length) <| by
    simp only [OffEdge, launchedAt_iff]
    constructor
    · exact fun h a y hl => h (a, 0, y, .left) hl rfl rfl
    · rintro h ⟨a, x, y, direction⟩ hl rfl rfl
      exact h a y hl

def DisappearsHandedOff (earlier : List Occurrence) (o : Occurrence) : Prop :=
  ∀ a ∈ o.before.hosts, ∀ x ∈ (o.before.tanks a).fishies,
    x.ref ∉ (o.after.tanks a).fishies.map FishObject.ref → x.ref ∈ handedOff earlier

def Swimming (os : List Occurrence) (s : System) : Prop :=
  ∀ p ∈ s.places, p.ref ∉ handedOff os → p.Swims

namespace Swimming

variable {os : List Occurrence} {s s' : System} {o : Occurrence}

theorem next (h : Swimming os s) (hstep : Step s o s') (hlaunch : Launched o) (hedge : OffEdge o) :
    Swimming (os ++ [o]) s' := by
  intro p hp hnot
  rw [handedOff_snoc, List.mem_append, not_or] at hnot
  cases hstep.origin hp with
  | stayed hold => exact h p hold hnot.1
  | launched a x y direction fish he ha hroom hfish heq =>
    rw [heq]
    refine newFish_swims hroom hfish (hlaunch a x y direction he).1 ?_ a
    rintro rfl rfl
    have hfull := hedge a y he
    rw [hstep.1] at hfull
    exact Nat.not_lt.mpr hfull hroom
  | moved a discreteSin fish he ha hfish heq =>
    have hplace := h (fish.place a) (mem_places.mpr ⟨a, ha, fish, hfish, rfl⟩)
    rw [heq] at hnot ⊢
    refine (updateFish_swims _ a _ (hplace hnot.1)).2 ?_
    have hkeeps : fish.ref ∉ o.handedOff := hnot.2
    rw [Occurrence.handedOff, he] at hkeeps
    simp only [hstep.1, List.mem_map, List.mem_filter, not_exists, not_and] at hkeeps
    have hstays : ¬(s.tanks a).handsOff discreteSin fish = true :=
      fun hgoes => hkeeps fish ⟨hfish, hgoes⟩ rfl
    simpa [TankModel.handsOff] using hstays
  | arrived src dst objects fish network he hdst hdel heq =>
    rw [heq]
    exact setToStart_swims fish s.fresh dst

theorem lost (h : Swimming os s) (hstep : Step s o s') : o.lost (handedOff os) = [] := by
  obtain ⟨rfl, rfl, hstep⟩ := hstep
  rw [Occurrence.lost]
  split
  · rename_i a discreteSin he
    rw [he] at hstep
    obtain ⟨ha, _⟩ := act_cases hstep
    rw [List.map_eq_nil_iff, List.filter_eq_nil_iff]
    intro x hx hgone
    simp only [Bool.and_eq_true, decide_eq_true_eq] at hgone
    have hswims := h (x.place a) (mem_places.mpr ⟨a, ha, x, hx, rfl⟩) hgone.2
    have hstays := (updateFish_swims (o.before.tanks a) a (discreteSin x.ref) hswims).1
    rw [hstays] at hgone
    exact Bool.false_ne_true hgone.1
  · rfl

end Swimming

section Disappearance

variable {os : List Occurrence} {s s' : System} {o : Occurrence}

theorem stays_of_places {t t' : TankModel} {a : InetSocketAddress}
    (h : t'.fishies.map (FishObject.place a) = t.fishies.map (FishObject.place a)) {x : FishObject}
    (hx : x ∈ t.fishies) : x.ref ∈ t'.fishies.map FishObject.ref := by
  have hplace : x.place a ∈ t'.fishies.map (FishObject.place a) := h ▸ List.mem_map_of_mem hx
  obtain ⟨x', hx', heq⟩ := List.mem_map.mp hplace
  exact List.mem_map.mpr ⟨x', hx', congrArg Place.ref heq⟩

theorem stays_newFish {t : TankModel} (fresh : ℕ) (x y : ℤ) (direction : Direction)
    {fish : FishObject} (hfish : fish ∈ t.fishies) :
    fish.ref ∈ (t.newFish fresh x y direction).fishies.map FishObject.ref := by
  rw [TankModel.newFish]
  split
  · exact List.mem_map_of_mem (List.mem_append_left _ hfish)
  · exact List.mem_map_of_mem hfish

theorem stays_update {t : TankModel} (discreteSin : ℕ → ℤ) {x : FishObject} (hx : x ∈ t.fishies)
    (hstays : (t.updateFish (discreteSin x.ref) x.fish).1.disappears = false) :
    x.ref ∈ (t.update discreteSin).1.fishies.map FishObject.ref := by
  obtain ⟨_, _, hframe⟩ := t.update_frame discreteSin
  rw [hframe, TankModel.updateFishies, List.map_map]
  refine List.mem_map.mpr ⟨⟨x.ref, (t.updateFish (discreteSin x.ref) x.fish).1⟩, ?_, rfl⟩
  exact List.mem_filter.mpr ⟨List.mem_map.mpr ⟨x, hx, rfl⟩, by simp [hstays]⟩

theorem stays_receive (t : TankModel) (fresh : ℕ) (sender : InetSocketAddress) (objects : ℕ × ℕ)
    (payload : Payload) {x : FishObject} (hx : x ∈ t.fishies) :
    x.ref ∈ (t.receive fresh sender objects payload).1.fishies.map FishObject.ref := by
  rcases Classical.em (∃ fish, payload = .handoffRequest fish) with ⟨fish, rfl⟩ | hnone
  · obtain ⟨_, _, _, hframe⟩ := t.receiveFish_frame fresh fish
    rw [TankModel.receive, hframe]
    exact List.mem_map_of_mem (List.mem_append_left _ hx)
  · have hother : ∀ fish, payload ≠ .handoffRequest fish := fun fish heq => hnone ⟨fish, heq⟩
    exact stays_of_places (receive_fish t fresh sender objects sender hother).1 hx

theorem disappears_atTank {network : List Packet} {a : InetSocketAddress}
    {r : TankModel × List Send} {created : ℕ}
    (hnext : o.after = ({ o.before with network := network }.atTank a r created).1)
    (hstays : ∀ x ∈ (o.before.tanks a).fishies, x.ref ∉ handedOff os →
      x.ref ∈ r.1.fishies.map FishObject.ref) : DisappearsHandedOff os o := by
  intro b _ x hx hgone
  have htanks : o.after.tanks = Function.update o.before.tanks a r.1 :=
    congrArg System.tanks hnext
  rw [htanks] at hgone
  rcases eq_or_ne b a with rfl | hne
  · rw [Function.update_self] at hgone
    exact Classical.byContradiction (fun hnot => hgone (hstays x hx hnot))
  · rw [Function.update_of_ne hne] at hgone
    exact absurd (List.mem_map_of_mem hx) hgone

theorem disappears_of_lost (hstep : Step s o s') (hlost : o.lost (handedOff os) = []) :
    DisappearsHandedOff os o := by
  obtain ⟨rfl, rfl, hstep⟩ := hstep
  cases step_cases hstep with
  | tankActs a r created ha hacts heq =>
    refine disappears_atTank (congrArg Prod.fst heq) (fun x hx hnot => ?_)
    rcases hacts.fish with ⟨x', y, direction, he⟩ | ⟨discreteSin, he⟩ | ⟨_, _, hplaces, _⟩
    · rw [he] at hacts
      cases hacts
      exact stays_newFish _ _ _ _ hx
    · rw [he] at hacts
      cases hacts
      rw [Occurrence.lost, he] at hlost
      simp only [List.map_eq_nil_iff, List.filter_eq_nil_iff] at hlost
      exact stays_update discreteSin hx (by simpa [hnot] using hlost x hx)
    · exact stays_of_places hplaces hx
  | brokerReceives src objects payload network he hdel heq =>
    intro b _ x hx hgone
    have htanks : o.after.tanks = o.before.tanks :=
      congrArg (fun r : System × List Packet => r.1.tanks) heq
    rw [htanks] at hgone
    exact absurd (List.mem_map_of_mem hx) hgone
  | tankReceives src dst objects payload network he hdst hhost hdel heq =>
    exact disappears_atTank (congrArg Prod.fst heq) (fun x hx _ => stays_receive _ _ _ _ _ hx)

end Disappearance

structure NoneLost (os : List Occurrence) (s : System) : Prop where
  once : (createdFish os).Nodup
  somewhere : (remaining (handedOff os) s.places ++ s.carried).Perm (createdFish os)

theorem no_fish_lost {s₀ s : System} {os : List Occurrence} (hassembled : Assembled s₀)
    (hempty : s₀.places = [] ∧ s₀.carried = []) (hrun : Run s₀ os s) (hstays : ∀ o ∈ os, Stays o)
    (hlaunched : ∀ o ∈ os, Launched o) (hedge : ∀ o ∈ os, OffEdge o) :
    NoneLost os s ∧ LabelledRun.Along DisappearsHandedOff os := by
  have hinv : Conserved os s ∧ Swimming os s ∧ lostFish os = [] ∧
      LabelledRun.Along DisappearsHandedOff os := by
    refine LabelledRun.Run.history (G := fun o => Stays o ∧ Launched o ∧ OffEdge o)
      (I := fun os s => Conserved os s ∧ Swimming os s ∧ lostFish os = [] ∧
        LabelledRun.Along DisappearsHandedOff os) ?_ ?_ hrun
      (fun o ho => ⟨hstays o ho, hlaunched o ho, hedge o ho⟩)
    · refine ⟨Conserved.init hassembled hempty, ?_, rfl, LabelledRun.along_nil _⟩
      intro p hp
      rw [hempty.1] at hp
      exact absurd hp List.not_mem_nil
    · rintro os s o s' _ ⟨hconserved, hswimming, hnone, halong⟩ ⟨hstay, hlaunch, hoff⟩ hstep
      have hlost := hswimming.lost hstep
      refine ⟨hconserved.next hstep hstay, hswimming.next hstep hlaunch hoff, ?_, ?_⟩
      · rw [lostFish_snoc, hnone, hlost]
        rfl
      · exact LabelledRun.along_snoc.mpr ⟨halong, disappears_of_lost hstep hlost⟩
  obtain ⟨hconserved, _, hnone, halong⟩ := hinv
  have hbalance := hconserved.accounted.balance
  rw [hnone, List.append_nil] at hbalance
  exact ⟨⟨hconserved.once, hbalance⟩, halong⟩

def swims (a : InetSocketAddress) (n : ℕ) : List Event :=
  List.replicate n (.update a (fun _ => 0))

theorem no_fish_lost_two_tanks :
    ∃ os s, Run (System.ringOf (fun a => toString a.port) [host 1, host 2]) os s ∧
      createdFish os = [⟨1, "1"⟩] ∧ s.places.map Place.id = [⟨1, "1"⟩] ∧ NoneLost os s ∧
        LabelledRun.Along DisappearsHandedOff os := by
  have hevents : ∃ r ∈ occurrences (System.ringOf (fun a => toString a.port) [host 1, host 2])
      (.newFish (host 1) 498 0 .right :: swims (host 1) 2 ++
        .deliver (host 1) (host 2) (0, 0) :: swims (host 1) 100),
      createdFish r.1 = [⟨1, "1"⟩] ∧ r.2.places.map Place.id = [⟨1, "1"⟩] ∧ (∀ o ∈ r.1, Stays o) ∧
        (∀ o ∈ r.1, Launched o) ∧ ∀ o ∈ r.1, OffEdge o := by
    decide +kernel
  obtain ⟨⟨os, s⟩, hos, hcreated, hplaces, hstays, hlaunched, hedge⟩ := hevents
  have hrun := occurrences_run hos
  exact ⟨os, s, hrun, hcreated, hplaces,
    no_fish_lost (ringOf_assembled (by decide) (by decide) (by decide)) (by decide +kernel) hrun
      hstays hlaunched hedge⟩

theorem lost_at_edge :
    ¬∀ (s₀ s : System) (os : List Occurrence), Assembled s₀ → s₀.places = [] ∧ s₀.carried = [] →
      Run s₀ os s → (∀ o ∈ os, Stays o) → (∀ o ∈ os, Launched o) →
        NoneLost os s ∧ LabelledRun.Along DisappearsHandedOff os := by
  intro h
  have hevents : ∃ r ∈ occurrences (System.ringOf (fun a => toString a.port) [host 1, host 2])
      (.newFish (host 1) 0 0 .left :: swims (host 1) 100),
      createdFish r.1 ≠ [] ∧ r.2.places = [] ∧ r.2.carried = [] ∧ (∀ o ∈ r.1, Stays o) ∧
        ∀ o ∈ r.1, Launched o := by
    decide +kernel
  obtain ⟨⟨os, s⟩, hos, hcreated, hplaces, hcarried, hstays, hlaunched⟩ := hevents
  obtain ⟨hnone, _⟩ := h _ s os (ringOf_assembled (by decide) (by decide) (by decide))
    (by decide +kernel) (occurrences_run hos) hstays hlaunched
  have hbalance := hnone.somewhere
  rw [hplaces, hcarried] at hbalance
  exact hcreated hbalance.nil_eq.symm

end Aqualife
