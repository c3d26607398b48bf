import Mathlib.Tactic

namespace Aqualife

structure InetSocketAddress where
  host : String
  port : ℕ
  deriving DecidableEq, Repr

-- A reference to an address object: `equals` compares what it points at, `==` where it points.
structure AddressRef where
  ref : ℕ
  address : InetSocketAddress
  deriving DecidableEq, Repr

def brokerAddress : InetSocketAddress :=
  ⟨"localhost", 4712⟩

inductive Direction where
  | left
  | right
  deriving DecidableEq, Repr

namespace Direction

def vector : Direction → ℤ
  | left => -1
  | right => 1

def reverse : Direction → Direction
  | left => right
  | right => left

end Direction

inductive State where
  | idle
  | left
  | right
  | both
  deriving DecidableEq, Repr

-- The text `fish<num>@<tank>`; `getTankId` reads the part behind the `@` back.
structure FishId where
  num : ℕ
  tank : String
  deriving DecidableEq, Repr

structure FishModel where
  id : FishId
  x : ℤ
  y : ℤ
  direction : Direction
  toggled : Bool
  deriving DecidableEq, Repr

def tankWidth : ℤ := 600

def tankHeight : ℤ := 350

namespace FishModel

def xSize : ℤ := 100

def ySize : ℤ := 50

def getTankId (fish : FishModel) : String :=
  fish.id.tank

def reverse (fish : FishModel) : FishModel :=
  { fish with direction := fish.direction.reverse }

def toggle (fish : FishModel) : FishModel :=
  { fish with toggled := !fish.toggled }

def hitsEdge (fish : FishModel) : Bool :=
  (fish.direction = .left && fish.x = 0) ||
    (fish.direction = .right && fish.x = tankWidth - xSize)

def disappears (fish : FishModel) : Bool :=
  (fish.direction = .left && fish.x = -xSize) ||
    (fish.direction = .right && fish.x = tankWidth)

-- `discreteSin` stands for the rounded sine, or for zero when the random number says so.
def update (fish : FishModel) (discreteSin : ℤ) : FishModel :=
  let y := fish.y + discreteSin
  { fish with
    x := fish.x + fish.direction.vector
    y := if y < 0 then 0 else min y (tankHeight - ySize) }

def setToStart (fish : FishModel) : FishModel :=
  { fish with x := if fish.direction = .left then tankWidth else -xSize }

end FishModel

inductive Payload where
  | registerRequest
  | registerResponse (id : String)
  | deregisterRequest (id : Option String)
  | neighbourUpdate (neighbour : InetSocketAddress) (direction : Direction)
  | token
  | handoffRequest (fish : FishModel)
  | snapshotMarker
  | collectToken (globalState : List FishId)
  | locationRequest (fishId : FishId)
  | locationUpdate (requestId : FishId)
  | nameResolutionRequest (tankId : String) (requestId : FishId)
  | nameResolutionResponse (response : Option InetSocketAddress) (requestId : FishId)
  deriving DecidableEq, Repr

def Payload.fromBroker : Payload → Bool
  | .registerResponse _ => true
  | .neighbourUpdate _ _ => true
  | .nameResolutionResponse _ _ => true
  | _ => false

-- A send to the null address puts nothing on the network.
abbrev Send :=
  Option InetSocketAddress × Payload

end Aqualife
