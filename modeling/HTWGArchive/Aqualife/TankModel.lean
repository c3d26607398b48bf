import HTWGArchive.Aqualife.Messages
import Mathlib.Logic.Function.Basic

namespace Aqualife

-- A `FishModel` object: sets of fish compare objects, not fish.
structure FishObject where
  ref : ℕ
  fish : FishModel
  deriving DecidableEq, Repr

structure FishRef where
  ref : ℕ
  id : FishId
  deriving DecidableEq, Repr

def FishObject.toRef (o : FishObject) : FishRef :=
  ⟨o.ref, o.fish.id⟩

def addFish (set : List FishRef) (fish : FishRef) : List FishRef :=
  if fish ∈ set then set else set ++ [fish]

def addAll (set fish : List FishRef) : List FishRef :=
  fish.foldl addFish set

-- Reading a message creates its objects anew.
def deserialize (fresh : ℕ) (ids : List FishId) : List FishRef :=
  ids.zipIdx.map (fun e => ⟨fresh + e.2, e.1⟩)

structure TankModel where
  id : Option String
  fishies : List FishObject
  fishCounter : ℕ
  leftNeighbour : Option AddressRef
  rightNeighbour : Option AddressRef
  hasToken : Bool
  tokenTimer : ℕ
  isInitiator : Bool
  finishedRecording : Bool
  finishedGlobalState : Bool
  localState : List FishRef
  leftState : List FishRef
  rightState : List FishRef
  recordState : State
  globalState : Option (List FishRef)
  fishieAddress : FishId → Option (Option InetSocketAddress)

namespace TankModel

def maxFishies : ℕ := 5

def start : TankModel where
  id := none
  fishies := []
  fishCounter := 0
  leftNeighbour := none
  rightNeighbour := none
  hasToken := false
  tokenTimer := 0
  isInitiator := false
  finishedRecording := false
  finishedGlobalState := false
  localState := []
  leftState := []
  rightState := []
  recordState := .idle
  globalState := none
  fishieAddress := fun _ => none

def left (t : TankModel) : Option InetSocketAddress :=
  t.leftNeighbour.map AddressRef.address

def right (t : TankModel) : Option InetSocketAddress :=
  t.rightNeighbour.map AddressRef.address

def onRegistration (t : TankModel) (id : String) : TankModel :=
  { t with id := some id }

def newFish (t : TankModel) (fresh : ℕ) (x y : ℤ) (direction : Direction) : TankModel :=
  if t.fishies.length < maxFishies then
    let x := if x > tankWidth - FishModel.xSize - 1 then tankWidth - FishModel.xSize - 1 else x
    let y := if y > tankHeight - FishModel.ySize then tankHeight - FishModel.ySize else y
    let id : FishId := ⟨t.fishCounter + 1, t.id.getD "null"⟩
    { t with
      fishCounter := t.fishCounter + 1
      fishieAddress := Function.update t.fishieAddress id (some none)
      fishies := t.fishies ++ [⟨fresh, ⟨id, x, y, direction, false⟩⟩] }
  else t

def recordArrival (t : TankModel) (o : FishObject) : TankModel :=
  if (t.recordState = .left ∨ t.recordState = .both) ∧ o.fish.direction = .left then
    { t with rightState := addFish t.rightState o.toRef }
  else if (t.recordState = .right ∨ t.recordState = .both) ∧ o.fish.direction = .right then
    { t with leftState := addFish t.leftState o.toRef }
  else t

-- `HashMap.replace` writes only where the key is present.
def locateArrival (t : TankModel) (fish : FishModel) : TankModel × List Send :=
  if t.id = some fish.getTankId then
    ({ t with
       fishieAddress := Function.update t.fishieAddress fish.id
        ((t.fishieAddress fish.id).map (fun _ => none)) }, [])
  else (t, [(some brokerAddress, .nameResolutionRequest fish.getTankId fish.id)])

def receiveFish (t : TankModel) (fresh : ℕ) (fish : FishModel) : TankModel × List Send :=
  let o : FishObject := ⟨fresh, fish.setToStart⟩
  let (t, sends) := locateArrival (recordArrival t o) o.fish
  ({ t with fishies := t.fishies ++ [o] }, sends)

def sendGlobalState (t : TankModel) : TankModel × List Send :=
  let globalState := addAll (addAll (addAll (t.globalState.getD []) t.leftState) t.localState)
    t.rightState
  ({ t with globalState := some globalState },
   [(t.left, .collectToken (globalState.map FishRef.id))])

def stopSnapshot (t : TankModel) (neighbour : AddressRef) : TankModel × List Send :=
  let dirNeighbour := if t.left = some neighbour.address then Direction.left else Direction.right
  if t.recordState = .both then
    ({ t with recordState := if dirNeighbour = .left then .right else .left }, [])
  else if t.recordState ≠ .idle then
    let stopped := { t with recordState := .idle }
    let (sent, sends) := if stopped.isInitiator then sendGlobalState stopped else (stopped, [])
    ({ sent with finishedRecording := true }, sends)
  else (t, [])

-- The marker is compared with the left neighbour by `equals` and with the right one by `==`.
def initiateSnapshot (t : TankModel) (isInitiator : Bool) (neighbour : Option AddressRef) :
    TankModel × List Send :=
  let begun := if isInitiator then { t with isInitiator := true, globalState := none } else t
  let recorded :=
    { begun with finishedGlobalState := false, localState := t.fishies.map FishObject.toRef }
  let recordState :=
    match neighbour with
    | none => State.both
    | some neighbour =>
      if t.left = some neighbour.address then .right
      else if t.rightNeighbour = some neighbour then .left
      else t.recordState
  ({ recorded with recordState := recordState },
   [(t.left, .snapshotMarker), (t.right, .snapshotMarker)])

def receiveMarker (t : TankModel) (neighbour : AddressRef) : TankModel × List Send :=
  if t.recordState = .idle then
    initiateSnapshot { t with finishedRecording := false } false (some neighbour)
  else stopSnapshot t neighbour

def updateFish (t : TankModel) (discreteSin : ℤ) (fish : FishModel) : FishModel × List Send :=
  let fish := fish.update discreteSin
  if fish.hitsEdge then
    if t.hasToken then
      (fish, [(if fish.direction = .right then t.right else t.left, .handoffRequest fish)])
    else (fish.reverse, [])
  else (fish, [])

def updateFishies (t : TankModel) (discreteSin : ℕ → ℤ) : TankModel × List Send :=
  let updated := t.fishies.map (fun o => (o.ref, updateFish t (discreteSin o.ref) o.fish))
  ({ t with
     fishies := (updated.map (fun e => FishObject.mk e.1 e.2.1)).filter
      (fun o => !o.fish.disappears) },
   updated.flatMap (fun e => e.2.2))

def receiveGlobalState (t : TankModel) (fresh : ℕ) (payload : List FishId) : TankModel :=
  let received := { t with globalState := some (deserialize fresh payload) }
  if t.isInitiator && t.finishedRecording then
    { received with finishedGlobalState := true, isInitiator := false, finishedRecording := false }
  else received

def getGlobalState (t : TankModel) : List FishRef :=
  if t.finishedGlobalState then t.globalState.getD [] else []

def passOnGs (t : TankModel) : TankModel × List Send :=
  if t.finishedRecording && !t.isInitiator then
    let (t, sends) := sendGlobalState t
    ({ t with finishedRecording := false }, sends)
  else (t, [])

def update (t : TankModel) (discreteSin : ℕ → ℤ) : TankModel × List Send :=
  let (t, sends) := updateFishies t discreteSin
  let (t, sends') := passOnGs t
  (t, sends ++ sends')

-- The first object with the id changes its colour.
def toggleFirst (fishId : FishId) : List FishObject → List FishObject
  | [] => []
  | o :: os =>
    if o.fish.id = fishId then { o with fish := o.fish.toggle } :: os
    else o :: toggleFirst fishId os

def locateFishLocally (t : TankModel) (fishId : FishId) : TankModel × Bool :=
  ({ t with fishies := toggleFirst fishId t.fishies },
   t.fishies.any (fun o => o.fish.id = fishId))

def locateFishGlobally (t : TankModel) (fishId : FishId) : TankModel × List Send :=
  let (t, found) := locateFishLocally t fishId
  (t, if found then [] else [((t.fishieAddress fishId).join, .locationRequest fishId)])

def updateFishieLocation (t : TankModel) (requestId : FishId) (sender : InetSocketAddress) :
    TankModel :=
  { t with fishieAddress := Function.update t.fishieAddress requestId (some (some sender)) }

def receiveNameResolution (t : TankModel) (response : Option InetSocketAddress)
    (requestId : FishId) : TankModel × List Send :=
  (t, [(response, .locationUpdate requestId)])

def receiveToken (t : TankModel) : TankModel :=
  { t with hasToken := true, tokenTimer := t.tokenTimer + 1 }

def giveBackToken (t : TankModel) : TankModel × List Send :=
  ({ t with hasToken := false, tokenTimer := t.tokenTimer - 1 }, [(t.left, .token)])

def updateNeighbour (t : TankModel) (neighbour : AddressRef) (direction : Direction) : TankModel :=
  if direction = .left then { t with leftNeighbour := some neighbour }
  else { t with rightNeighbour := some neighbour }

-- `ClientReceiver.run`; `objects` are the references to the sender and to an address in the payload.
def receive (t : TankModel) (fresh : ℕ) (sender : InetSocketAddress) (objects : ℕ × ℕ) :
    Payload → TankModel × List Send
  | .registerResponse id => (t.onRegistration id, [])
  | .handoffRequest fish => t.receiveFish fresh fish
  | .neighbourUpdate neighbour direction =>
    (t.updateNeighbour ⟨objects.2, neighbour⟩ direction, [])
  | .token => (t.receiveToken, [])
  | .snapshotMarker => t.receiveMarker ⟨objects.1, sender⟩
  | .collectToken globalState => (t.receiveGlobalState fresh globalState, [])
  | .locationRequest fishId => ((t.locateFishLocally fishId).1, [])
  | .locationUpdate requestId => (t.updateFishieLocation requestId sender, [])
  | .nameResolutionResponse response requestId => t.receiveNameResolution response requestId
  | _ => (t, [])

section Frames

variable (t : TankModel)

theorem newFish_frame (fresh : ℕ) (x y : ℤ) (direction : Direction) :
    ∃ n address fishies, t.newFish fresh x y direction =
      { t with fishCounter := n, fishieAddress := address, fishies := fishies } := by
  rw [newFish]
  split
  · exact ⟨_, _, _, rfl⟩
  · exact ⟨t.fishCounter, t.fishieAddress, t.fishies, rfl⟩

theorem recordArrival_frame (o : FishObject) :
    ∃ ls rs, t.recordArrival o = { t with leftState := ls, rightState := rs } := by
  rw [recordArrival]
  split
  · exact ⟨t.leftState, _, rfl⟩
  · split
    · exact ⟨_, t.rightState, rfl⟩
    · exact ⟨t.leftState, t.rightState, rfl⟩

theorem locateArrival_frame (fish : FishModel) :
    ∃ address, (t.locateArrival fish).1 = { t with fishieAddress := address } := by
  rw [locateArrival]
  split
  · exact ⟨_, rfl⟩
  · exact ⟨t.fishieAddress, rfl⟩

theorem receiveFish_frame (fresh : ℕ) (fish : FishModel) :
    ∃ ls rs address, (t.receiveFish fresh fish).1 =
      { t with
        leftState := ls, rightState := rs, fishieAddress := address
        fishies := t.fishies ++ [⟨fresh, fish.setToStart⟩] } := by
  obtain ⟨ls, rs, hrecord⟩ := t.recordArrival_frame ⟨fresh, fish.setToStart⟩
  obtain ⟨address, hlocate⟩ := (t.recordArrival ⟨fresh, fish.setToStart⟩).locateArrival_frame
    fish.setToStart
  refine ⟨ls, rs, address, ?_⟩
  rw [hrecord] at hlocate
  simp only [receiveFish, hrecord, hlocate]

theorem stopSnapshot_frame (neighbour : AddressRef) :
    ∃ rs g f, (t.stopSnapshot neighbour).1 =
      { t with recordState := rs, globalState := g, finishedRecording := f } := by
  rw [stopSnapshot]
  split
  · exact ⟨_, t.globalState, t.finishedRecording, rfl⟩
  · split
    · cases t.isInitiator
      · exact ⟨_, t.globalState, _, rfl⟩
      · exact ⟨_, _, _, rfl⟩
    · exact ⟨t.recordState, t.globalState, t.finishedRecording, rfl⟩

theorem initiateSnapshot_frame (isInitiator : Bool) (neighbour : Option AddressRef) :
    ∃ i g rs, (t.initiateSnapshot isInitiator neighbour).1 =
      { t with
        isInitiator := i, globalState := g, finishedGlobalState := false
        localState := t.fishies.map FishObject.toRef, recordState := rs } := by
  cases isInitiator
  · exact ⟨t.isInitiator, t.globalState, _, rfl⟩
  · exact ⟨_, _, _, rfl⟩

theorem receiveMarker_frame (neighbour : AddressRef) :
    ∃ f i g fg ls rs, (t.receiveMarker neighbour).1 =
      { t with
        finishedRecording := f, isInitiator := i, globalState := g, finishedGlobalState := fg
        localState := ls, recordState := rs } := by
  rw [receiveMarker]
  split
  · obtain ⟨i, g, rs, hframe⟩ := initiateSnapshot_frame { t with finishedRecording := false } false
      (some neighbour)
    exact ⟨_, i, g, _, _, rs, hframe⟩
  · obtain ⟨rs, g, f, hframe⟩ := t.stopSnapshot_frame neighbour
    exact ⟨f, t.isInitiator, g, t.finishedGlobalState, t.localState, rs, hframe⟩

theorem passOnGs_frame :
    ∃ g f, t.passOnGs.1 = { t with globalState := g, finishedRecording := f } := by
  rw [passOnGs]
  split
  · exact ⟨_, _, rfl⟩
  · exact ⟨t.globalState, t.finishedRecording, rfl⟩

theorem update_frame (discreteSin : ℕ → ℤ) :
    ∃ g f, (t.update discreteSin).1 =
      { (t.updateFishies discreteSin).1 with globalState := g, finishedRecording := f } :=
  (t.updateFishies discreteSin).1.passOnGs_frame

theorem receiveGlobalState_frame (fresh : ℕ) (payload : List FishId) :
    ∃ g i f fg, t.receiveGlobalState fresh payload =
      { t with
        globalState := g, isInitiator := i, finishedRecording := f
        finishedGlobalState := fg } := by
  rw [receiveGlobalState]
  dsimp only
  split
  · exact ⟨_, _, _, _, rfl⟩
  · exact ⟨_, t.isInitiator, t.finishedRecording, t.finishedGlobalState, rfl⟩

end Frames

section Sends

variable (t : TankModel)

theorem updateFish_sends {discreteSin : ℤ} {fish : FishModel} {m : Send}
    (hm : m ∈ (t.updateFish discreteSin fish).2) :
    m.2 = .handoffRequest (fish.update discreteSin) ∧ (fish.update discreteSin).hitsEdge = true ∧
      t.hasToken = true ∧ (t.updateFish discreteSin fish).1 = fish.update discreteSin ∧
        m.1 = if (fish.update discreteSin).direction = .right then t.right else t.left := by
  rw [updateFish] at hm ⊢
  split at hm
  · rename_i hedge
    split at hm
    · rename_i htoken
      rw [if_pos hedge, if_pos htoken]
      rw [List.mem_singleton.mp hm]
      exact ⟨rfl, hedge, htoken, rfl, rfl⟩
    · exact absurd hm List.not_mem_nil
  · exact absurd hm List.not_mem_nil

theorem updateFishies_sends {discreteSin : ℕ → ℤ} {m : Send}
    (hm : m ∈ (t.updateFishies discreteSin).2) :
    ∃ o ∈ t.fishies, m ∈ (t.updateFish (discreteSin o.ref) o.fish).2 := by
  obtain ⟨e, he, hme⟩ := List.mem_flatMap.mp hm
  obtain ⟨o, ho, rfl⟩ := List.mem_map.mp he
  exact ⟨o, ho, hme⟩

theorem passOnGs_sends {m : Send} (hm : m ∈ t.passOnGs.2) :
    ∃ g, m = (t.left, .collectToken g) := by
  rw [passOnGs] at hm
  split at hm
  · exact ⟨_, List.mem_singleton.mp hm⟩
  · exact absurd hm List.not_mem_nil

theorem update_sends {discreteSin : ℕ → ℤ} {m : Send} (hm : m ∈ (t.update discreteSin).2) :
    (∃ o ∈ t.fishies, m ∈ (t.updateFish (discreteSin o.ref) o.fish).2) ∨
      ∃ g, m = (t.left, .collectToken g) := by
  rcases List.mem_append.mp hm with hm | hm
  · exact Or.inl (t.updateFishies_sends hm)
  · exact Or.inr ((t.updateFishies discreteSin).1.passOnGs_sends hm)

theorem stopSnapshot_sends {neighbour : AddressRef} {m : Send}
    (hm : m ∈ (t.stopSnapshot neighbour).2) : ∃ g, m = (t.left, .collectToken g) := by
  rw [stopSnapshot] at hm
  dsimp only at hm
  split at hm
  · exact absurd hm List.not_mem_nil
  · split at hm
    · split at hm
      · exact ⟨_, List.mem_singleton.mp hm⟩
      · exact absurd hm List.not_mem_nil
    · exact absurd hm List.not_mem_nil

theorem initiateSnapshot_sends {isInitiator : Bool} {neighbour : Option AddressRef} :
    (t.initiateSnapshot isInitiator neighbour).2 =
      [(t.left, .snapshotMarker), (t.right, .snapshotMarker)] := by
  cases isInitiator <;> rfl

theorem receiveMarker_sends {neighbour : AddressRef} {m : Send}
    (hm : m ∈ (t.receiveMarker neighbour).2) :
    (m.2 = .snapshotMarker ∧ (m.1 = t.left ∨ m.1 = t.right)) ∨
      ∃ g, m = (t.left, .collectToken g) := by
  rw [receiveMarker] at hm
  split at hm
  · rw [initiateSnapshot_sends] at hm
    rcases List.mem_cons.mp hm with rfl | hm
    · exact Or.inl ⟨rfl, Or.inl rfl⟩
    · rw [List.mem_singleton.mp hm]
      exact Or.inl ⟨rfl, Or.inr rfl⟩
  · exact Or.inr (t.stopSnapshot_sends hm)

theorem receiveFish_sends {fresh : ℕ} {fish : FishModel} {m : Send}
    (hm : m ∈ (t.receiveFish fresh fish).2) :
    m = (some brokerAddress, .nameResolutionRequest fish.getTankId fish.id) := by
  simp only [receiveFish, locateArrival] at hm
  split at hm
  · exact absurd hm List.not_mem_nil
  · exact List.mem_singleton.mp hm

theorem locateFishGlobally_sends {fishId : FishId} {m : Send}
    (hm : m ∈ (t.locateFishGlobally fishId).2) : m.2 = .locationRequest fishId := by
  rw [locateFishGlobally] at hm
  dsimp only at hm
  split at hm
  · exact absurd hm List.not_mem_nil
  · rw [List.mem_singleton.mp hm]

end Sends

end TankModel

end Aqualife
