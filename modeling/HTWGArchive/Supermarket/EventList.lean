import Mathlib.Algebra.Order.Monoid.Canonical.Defs
import Mathlib.Data.Prod.Lex
import HTWGArchive.Library.LabelledRun
import HTWGArchive.Library.LeastFirst

namespace Supermarket

-- Time to the station, longest tolerated queue, amount, station.
structure StationTuple (K St : Type) where
  time : K
  tolerance : ℤ
  amount : K
  station : St

structure KundIn (K St : Type) where
  station_list : List (StationTuple K St)
  time_between_customers : K
  full_purchase : Bool
  skipped_station : Bool
  time_begin : K
  time_end : K

structure Station (K : Type) where
  time : K
  customer_queue : List ℕ
  amount_customer : ℕ
  amount_skipped_customer : ℕ

-- The methods an event can call; a customer is known by the number of its object.
inductive Fun (St : Type) where
  | begin (customer : ℕ)
  | arrive (customer : ℕ)
  | leave (customer : ℕ)
  | stationLeave (station : St)
  deriving DecidableEq

structure Event (K St : Type) where
  eTime : K
  ePrio : ℕ
  eNum : ℕ
  eFun : Fun St
  deriving DecidableEq

-- What the stations write to their file.
inductive Line (K St : Type) where
  | adding (time : K) (station : St) (customer : ℕ)
  | serving (time : K) (station : St) (customer : ℕ)
  | finished (time : K) (station : St) (customer : ℕ)

-- `pushed` lists all events ever pushed.
structure System (K St : Type) where
  event_queue : List (Event K St)
  event_number : ℕ
  simulation_time : K
  customers : ℕ → KundIn K St
  created : ℕ
  stations : St → Station K
  customer_list : List ℕ
  output_file : List (Line K St)
  pushed : List (Event K St)

variable {K St : Type}

def Event.key (e : Event K St) : K ×ₗ ℕ ×ₗ ℕ :=
  toLex (e.eTime, toLex (e.ePrio, e.eNum))

namespace System

variable [DecidableEq St]

-- An event made with the next number.
def push (s : System K St) (eTime : K) (ePrio : ℕ) (eFun : Fun St) : System K St :=
  { s with
    event_number := s.event_number + 1
    event_queue := ⟨eTime, ePrio, s.event_number + 1, eFun⟩ :: s.event_queue
    pushed := s.pushed ++ [⟨eTime, ePrio, s.event_number + 1, eFun⟩] }

def setCustomer (s : System K St) (c : ℕ) (k : KundIn K St) : System K St :=
  { s with customers := Function.update s.customers c k }

def setStation (s : System K St) (st : St) (x : Station K) : System K St :=
  { s with stations := Function.update s.stations st x }

def print (s : System K St) (line : Line K St) : System K St :=
  { s with output_file := s.output_file ++ [line] }

def blank [Zero K] (times : St → K) : System K St where
  event_queue := []
  event_number := 0
  simulation_time := 0
  customers := fun _ => ⟨[], 0, false, false, 0, 0⟩
  created := 0
  stations := fun st => ⟨times st, [], 0, 0⟩
  customer_list := []
  output_file := []
  pushed := []

-- The begin events of the first customers.
def announce (s : System K St) : List (K × KundIn K St) → System K St
  | [] => s
  | (time, customer) :: customers =>
    announce (({ s with
      customers := Function.update s.customers s.created customer
      created := s.created + 1 }).push time 2 (.begin s.created)) customers

variable [Add K] [Mul K]

-- `none` is an `IndexError`.
def serve (s : System K St) (st : St) : Option (System K St) :=
  match (s.stations st).customer_queue with
  | [] => some s
  | customer :: _ =>
    match (s.customers customer).station_list with
    | [] => none
    | station_tuple :: _ =>
      let time := s.simulation_time + station_tuple.amount * (s.stations st).time
      some (((s.print (.serving s.simulation_time st customer)).push time 1 (.leave customer)).push
        time 1 (.stationLeave st))

def queue (s : System K St) (st : St) (customer : ℕ) : Option (System K St) :=
  let x := s.stations st
  let s := (s.print (.adding s.simulation_time st customer)).setStation st
    { x with
      customer_queue := x.customer_queue ++ [customer]
      amount_customer := x.amount_customer + 1 }
  if (x.customer_queue ++ [customer]).length ≤ 1 then s.serve st else some s

def stationLeave (s : System K St) (st : St) : Option (System K St) :=
  let x := s.stations st
  match x.customer_queue with
  | [] => none
  | customer :: rest =>
    ((s.setStation st { x with customer_queue := rest }).print
      (.finished s.simulation_time st customer)).serve st

def begin (s : System K St) (c : ℕ) : Option (System K St) :=
  let self := s.customers c
  match self.station_list with
  | [] => none
  | station_tuple :: _ =>
    let next_customer : KundIn K St :=
      { station_list := self.station_list
        time_between_customers := self.time_between_customers
        full_purchase := false
        skipped_station := false
        time_begin := s.simulation_time
        time_end := s.simulation_time }
    let next := s.created
    let s := { s with
      customer_list := s.customer_list ++ [c]
      customers := Function.update s.customers next next_customer
      created := next + 1 }
    some ((s.push (s.simulation_time + self.time_between_customers) 2 (.begin next)).push
      (s.simulation_time + station_tuple.time) 3 (.arrive c))

def arrive (s : System K St) (c : ℕ) : Option (System K St) :=
  let self := { s.customers c with time_end := s.simulation_time }
  match self.station_list with
  | [] => none
  | station_tuple :: station_list =>
    let x := s.stations station_tuple.station
    if (x.customer_queue.length : ℤ) ≤ station_tuple.tolerance then
      (s.setCustomer c self).queue station_tuple.station c
    else
      let s := (s.setCustomer c { self with skipped_station := true, station_list := station_list })
      let s := s.setStation station_tuple.station
        { x with amount_skipped_customer := x.amount_skipped_customer + 1 }
      some (s.push (s.simulation_time + station_tuple.time) 3 (.arrive c))

def leave (s : System K St) (c : ℕ) : System K St :=
  let self := { s.customers c with time_end := s.simulation_time }
  match self.station_list with
  | [] => s.setCustomer c self
  | _ :: [] =>
    s.setCustomer c { self with station_list := [], full_purchase := !self.skipped_station }
  | _ :: station_tuple :: station_list =>
    (s.setCustomer c { self with station_list := station_tuple :: station_list }).push
      (s.simulation_time + station_tuple.time) 3 (.arrive c)

def call (s : System K St) : Fun St → Option (System K St)
  | .begin c => s.begin c
  | .arrive c => s.arrive c
  | .leave c => some (s.leave c)
  | .stationLeave st => s.stationLeave st

-- One turn of the loop in `EventList.start`.
def turn [LinearOrder K] (s : System K St) : Option (Event K St × System K St) :=
  match LeastFirst.pop Event.key s.event_queue with
  | none => none
  | some (e, event_queue) =>
    (call { s with event_queue := event_queue, simulation_time := e.eTime } e.eFun).map
      (fun s => (e, s))

end System

end Supermarket
