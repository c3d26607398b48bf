import HTWGArchive.Aqualife.Messages

namespace Aqualife

structure Client (T : Type) where
  id : String
  client : T
  deriving DecidableEq, Repr

structure ClientCollection (T : Type) where
  clients : List (Client T)
  deriving DecidableEq, Repr

namespace ClientCollection

variable {T : Type}

def get (c : ClientCollection T) (index : ℤ) : Option (Client T) :=
  if 0 ≤ index then c.clients[index.toNat]? else none

def size (c : ClientCollection T) : ℤ :=
  c.clients.length

def add (c : ClientCollection T) (id : String) (client : T) : ClientCollection T :=
  ⟨c.clients ++ [⟨id, client⟩]⟩

def remove (c : ClientCollection T) (index : ℤ) : ClientCollection T :=
  ⟨c.clients.eraseIdx index.toNat⟩

def indexWhere (c : ClientCollection T) (p : Client T → Bool) : ℤ :=
  match c.clients.findIdx? p with
  | some i => i
  | none => -1

def indexOfId (c : ClientCollection T) (id : String) : ℤ :=
  c.indexWhere (fun x => x.id = id)

def indexOf [DecidableEq T] (c : ClientCollection T) (client : T) : ℤ :=
  c.indexWhere (fun x => x.client = client)

def getId (c : ClientCollection T) (index : ℤ) : Option String :=
  (c.get index).map Client.id

def getLeftNeighborOf (c : ClientCollection T) (index : ℤ) : Option T :=
  if index = 0 then (c.get (c.size - 1)).map Client.client
  else (c.get (index - 1)).map Client.client

def getRightNeighborOf (c : ClientCollection T) (index : ℤ) : Option T :=
  (c.get ((index + 1) % c.size)).map Client.client

def ids (c : ClientCollection T) : List String :=
  c.clients.map Client.id

def members (c : ClientCollection T) : List T :=
  c.clients.map Client.client

section Indices

variable {c : ClientCollection T} {p : Client T → Bool}

theorem get_natCast (c : ClientCollection T) (i : ℕ) : c.get (i : ℤ) = c.clients[i]? := by
  simp [get]

theorem indexWhere_of_none (h : ∀ x ∈ c.clients, p x = false) : c.indexWhere p = -1 := by
  rw [indexWhere, List.findIdx?_eq_none_iff.mpr h]

theorem indexWhere_of_some (h : ∃ x ∈ c.clients, p x = true) :
    ∃ i, ∃ hi : i < c.clients.length, c.indexWhere p = i ∧ p c.clients[i] = true := by
  obtain ⟨x, hx, hpx⟩ := h
  cases hfind : c.clients.findIdx? p with
  | none =>
    rw [List.findIdx?_eq_none_iff.mp hfind x hx] at hpx
    cases hpx
  | some i =>
    obtain ⟨hi, hpi, _⟩ := List.findIdx?_eq_some_iff_getElem.mp hfind
    exact ⟨i, hi, by rw [indexWhere, hfind], hpi⟩

theorem indexOf_of_notMem [DecidableEq T] {a : T} (h : a ∉ c.members) : c.indexOf a = -1 := by
  apply indexWhere_of_none
  intro x hx
  rw [decide_eq_false_iff_not]
  intro heq
  exact h (List.mem_map.mpr ⟨x, hx, heq⟩)

theorem indexOf_of_mem [DecidableEq T] {a : T} (h : a ∈ c.members) :
    ∃ i, ∃ hi : i < c.clients.length, c.indexOf a = i ∧ (c.clients[i]).client = a := by
  obtain ⟨x, hx, hxa⟩ := List.mem_map.mp h
  obtain ⟨i, hi, heq, hclient⟩ := indexWhere_of_some (c := c) (p := fun x => x.client = a)
    ⟨x, hx, decide_eq_true hxa⟩
  exact ⟨i, hi, heq, of_decide_eq_true hclient⟩

theorem indexOfId_of_notMem {id : String} (h : id ∉ c.ids) : c.indexOfId id = -1 := by
  apply indexWhere_of_none
  intro x hx
  rw [decide_eq_false_iff_not]
  intro heq
  exact h (List.mem_map.mpr ⟨x, hx, heq⟩)

theorem indexOfId_of_mem {id : String} (h : id ∈ c.ids) :
    ∃ i, ∃ hi : i < c.clients.length, c.indexOfId id = i ∧ (c.clients[i]).id = id := by
  obtain ⟨x, hx, hxid⟩ := List.mem_map.mp h
  obtain ⟨i, hi, heq, hid⟩ := indexWhere_of_some (c := c) (p := fun x => x.id = id)
    ⟨x, hx, decide_eq_true hxid⟩
  exact ⟨i, hi, heq, of_decide_eq_true hid⟩

theorem getLeftNeighborOf_eq {i : ℕ} (hi : i < c.clients.length) :
    c.getLeftNeighborOf (i : ℤ) =
      c.members[(i + c.clients.length - 1) % c.clients.length]? := by
  rw [getLeftNeighborOf, members, List.getElem?_map]
  cases i with
  | zero =>
    have hlast : (0 + c.clients.length - 1) % c.clients.length = c.clients.length - 1 := by
      rw [Nat.zero_add, Nat.mod_eq_of_lt (Nat.sub_one_lt_of_lt hi)]
    have hsize : c.size - 1 = ((c.clients.length - 1 : ℕ) : ℤ) := by
      rw [size]
      omega
    rw [if_pos Nat.cast_zero, hlast, hsize, get_natCast]
  | succ i =>
    have hprev : (i + 1 + c.clients.length - 1) % c.clients.length = i := by
      have hsplit : i + 1 + c.clients.length - 1 = i + c.clients.length := by omega
      rw [hsplit, Nat.add_mod_right, Nat.mod_eq_of_lt (by omega)]
    have hcast : ((i + 1 : ℕ) : ℤ) - 1 = (i : ℤ) := by omega
    rw [if_neg (by omega), hprev, hcast, get_natCast]

theorem getRightNeighborOf_eq (c : ClientCollection T) (i : ℕ) :
    c.getRightNeighborOf (i : ℤ) = c.members[(i + 1) % c.clients.length]? := by
  have hcast : ((i : ℤ) + 1) % c.size = (((i + 1) % c.clients.length : ℕ) : ℤ) := by
    rw [size]
    push_cast
    rfl
  rw [getRightNeighborOf, hcast, get_natCast, members, List.getElem?_map]

end Indices

end ClientCollection

end Aqualife
