import HTWGArchive.Socketprogrammierung.Struct
import Mathlib.Algebra.BigOperators.Group.List.Basic
import Mathlib.Algebra.GroupWithZero.Nat
import Mathlib.Order.Lattice

namespace Calculation

open PeerToPeerChat (encode decode from_bytes littleEndian)
open Struct

-- The elements of a numpy array of integers have 64 bits.
def int64 (x : Int) : Int :=
  x.bmod (2 ^ 64)

def strip (s : String) : String :=
  String.ofList
    ((s.toList.dropWhile (· = '\x00')).reverse.dropWhile (· = '\x00')).reverse

namespace Server

def command_length : ℕ := 64

def sum (l : List Int) : Int :=
  l.foldl (fun result x => int64 (result + x)) 0

def prod (l : List Int) : Int :=
  l.foldl (fun result x => int64 (result * x)) 1

def functions (operator : String) : Option (List Int → Int) :=
  if operator = "Summe" then some sum
  else if operator = "Produkt" then some prod
  else if operator = "Minimum" then some (fun l => l.foldl min 0x7FFFFFFF)
  else if operator = "Maximum" then some (fun l => l.foldl max 0x80000000)
  else none

-- `'>I64sB'` wants exactly as many bytes as it has.
def unpack_header (data : List UInt8) : Option (ℕ × List UInt8 × ℕ) :=
  if data.length = 4 + command_length + 1 then
    some (unpack_I (data.take 4), (data.drop 4).take command_length,
      from_bytes .big (data.drop (4 + command_length)))
  else none

-- `unpack_from` wants at least as many bytes as it reads.
def unpack_operands (number : ℕ) (data : List UInt8) : Option (List Int) :=
  if 4 * number ≤ data.length then some (unpack_is number data) else none

inductive Processed where
  | closed
  | exception
  | sent (payload : List UInt8)
  deriving DecidableEq

-- An array without elements holds floating-point numbers, which `struct` does not pack as `i`.
def evaluate (function : List Int → Int) (operands : List Int) : Option Int :=
  if operands = [] then none else some (function operands)

def pack_result (result : Int) : Option (List UInt8) := do
  let id ← pack_I 1234
  let number ← pack_i result
  return id ++ number

def answer (data : List UInt8) : Option (List UInt8) := do
  let (_, operator, number) ← unpack_header (data.take 69)
  let operator ← decode operator
  let operands ← unpack_operands number (data.drop 69)
  let function ← functions (strip operator)
  let result ← evaluate function operands
  pack_result result

-- One round of the loop; `received` is what has arrived when it calls `recv(1024)`.
def process_data (received : List UInt8) : Processed :=
  let data := received.take 1024
  if data = [] then .closed
  else
    match answer data with
    | none => .exception
    | some payload => .sent payload

end Server

namespace Client

def pack_request (operator : String) (operands : List Int) : Option (List UInt8) := do
  let id ← pack_I 0
  let operands_size ← pack_B operands.length
  let numbers ← pack_is operands
  return id ++ pack_s 64 (encode operator) ++ operands_size ++ numbers

-- What `calculate` prints once the answer has arrived.
def unpack_result (received : List UInt8) : Option (ℕ × Int) :=
  let data := received.take 8
  if data.length = 8 then some (unpack_I (data.take 4), unpack_i (data.drop 4)) else none

def calculate (server : List UInt8 → Server.Processed) (operator : String) (operands : List Int) :
    Option (ℕ × Int) := do
  let payload ← pack_request operator operands
  match server payload with
  | .sent received => unpack_result received
  | _ => none

end Client

inductive Operator where
  | Summe
  | Produkt
  | Minimum
  | Maximum
  deriving DecidableEq, Repr

def Operator.text : Operator → String
  | .Summe => "Summe"
  | .Produkt => "Produkt"
  | .Minimum => "Minimum"
  | .Maximum => "Maximum"

def Operator.IsExact (l : List Int) (r : Int) : Operator → Prop
  | .Summe => r = l.sum
  | .Produkt => r = l.prod
  | .Minimum => r ∈ l ∧ ∀ x ∈ l, r ≤ x
  | .Maximum => r ∈ l ∧ ∀ x ∈ l, x ≤ r

def InRange (x : Int) : Prop :=
  -2 ^ 31 ≤ x ∧ x < 2 ^ 31

theorem int64_eq {x : Int} (hx : InRange x) : int64 x = x := by
  unfold InRange at hx
  apply Int.bmod_eq_of_le
  · norm_num
    omega
  · norm_num
    omega

theorem int64_idem (x : Int) : int64 (int64 x) = int64 x :=
  Int.bmod_bmod

theorem foldl_add (l : List Int) {a : Int} (ha : int64 a = a) :
    l.foldl (fun result x => int64 (result + x)) a = int64 (a + l.sum) := by
  induction l generalizing a with
  | nil => simp [ha]
  | cons x l ih =>
    rw [List.foldl_cons, ih (int64_idem _), List.sum_cons, ← add_assoc]
    exact Int.bmod_add_bmod ..

theorem foldl_mul (l : List Int) {a : Int} (ha : int64 a = a) :
    l.foldl (fun result x => int64 (result * x)) a = int64 (a * l.prod) := by
  induction l generalizing a with
  | nil => simp [ha]
  | cons x l ih =>
    rw [List.foldl_cons, ih (int64_idem _), List.prod_cons, ← mul_assoc]
    exact Int.bmod_mul_bmod ..

theorem foldl_min {l : List Int} {a r : Int} (ha : r ≤ a) (hall : ∀ x ∈ l, r ≤ x)
    (hr : r = a ∨ r ∈ l) : l.foldl min a = r := by
  induction l generalizing a with
  | nil => simpa [eq_comm] using hr
  | cons x l ih =>
    obtain ⟨hx, hl⟩ := List.forall_mem_cons.mp hall
    refine ih (le_min ha hx) hl ?_
    rcases hr with rfl | hr
    · exact Or.inl (min_eq_left hx).symm
    · rcases List.mem_cons.mp hr with rfl | hr
      · exact Or.inl (min_eq_right ha).symm
      · exact Or.inr hr

theorem le_foldl_max (l : List Int) (a : Int) : a ≤ l.foldl max a := by
  induction l generalizing a with
  | nil => exact le_refl a
  | cons x l ih => exact (le_max_left a x).trans (ih (max a x))

theorem functions_exact {operator : Operator} {l : List Int} {r : Int} (hl : ∀ x ∈ l, InRange x)
    (hr : operator.IsExact l r) (hrange : InRange r) (hne : operator ≠ .Maximum) :
    ∃ function, Server.functions operator.text = some function ∧ function l = r := by
  cases operator with
  | Summe =>
    refine ⟨Server.sum, rfl, ?_⟩
    subst hr
    rw [Server.sum, foldl_add l (by decide), zero_add, int64_eq hrange]
  | Produkt =>
    refine ⟨Server.prod, rfl, ?_⟩
    subst hr
    rw [Server.prod, foldl_mul l (by decide), one_mul, int64_eq hrange]
  | Minimum =>
    refine ⟨fun l => l.foldl min 0x7FFFFFFF, rfl, ?_⟩
    have hbound := (hl r hr.1).2
    exact foldl_min (by norm_num at hbound; omega) hr.2 (Or.inr hr.1)
  | Maximum => exact absurd rfl hne

theorem functions_maximum :
    Server.functions Operator.Maximum.text = some (fun l => l.foldl max 0x80000000) :=
  rfl

theorem decode_text (operator : Operator) :
    ∃ s, decode (pack_s 64 (encode operator.text)) = some s ∧ strip s = operator.text := by
  have h : (decode (pack_s 64 (encode operator.text))).map strip = some operator.text := by
    cases operator <;> decide +kernel
  exact Option.map_eq_some_iff.mp h

variable {operator : Operator} {operands : List Int}

theorem pack_request_eq (operator : Operator) (hlen : operands.length ≤ 255)
    (hrange : ∀ x ∈ operands, InRange x) :
    ∃ id numbers, id.length = 4 ∧ pack_is operands = some numbers ∧
      Client.pack_request operator.text operands =
        some (id ++ pack_s 64 (encode operator.text) ++ [UInt8.ofNat operands.length] ++
          numbers) := by
  obtain ⟨numbers, hnumbers⟩ := pack_is_isSome.mpr hrange
  refine ⟨_, numbers, length_pack_I (n := 0) rfl, hnumbers, ?_⟩
  have hsize : pack_B operands.length = some [UInt8.ofNat operands.length] := if_pos (by omega)
  simp [Client.pack_request, hsize, hnumbers, pack_I]

theorem unpack_header_eq {id name : List UInt8} {k : ℕ} (hid : id.length = 4)
    (hname : name.length = 64) (hk : k ≤ 255) :
    ∃ i, Server.unpack_header (id ++ name ++ [UInt8.ofNat k]) = some (i, name, k) := by
  have hlength : (id ++ name ++ [UInt8.ofNat k]).length = 4 + Server.command_length + 1 := by
    simp [hid, hname, Server.command_length]
  have hoperator : ((id ++ name ++ [UInt8.ofNat k]).drop 4).take Server.command_length = name := by
    rw [List.append_assoc, List.drop_left' hid]
    exact List.take_left' hname
  have hnumber : (id ++ name ++ [UInt8.ofNat k]).drop (4 + Server.command_length) =
      [UInt8.ofNat k] := by
    apply List.drop_left'
    rw [List.length_append, hid, hname, Server.command_length]
  have hbyte : from_bytes .big [UInt8.ofNat k] = k := by
    have hmod : k % 256 = k := Nat.mod_eq_of_lt (by omega)
    simp [from_bytes, hmod]
  refine ⟨unpack_I ((id ++ name ++ [UInt8.ofNat k]).take 4), ?_⟩
  rw [Server.unpack_header, if_pos hlength, hoperator, hnumber, hbyte]

-- The first read ends within the 239th operand.
theorem unpack_operands_eq {numbers : List UInt8} (hnumbers : pack_is operands = some numbers) :
    Server.unpack_operands operands.length (numbers.take 955) =
      if operands.length ≤ 238 then some operands else none := by
  have hlength := length_pack_is hnumbers
  rw [Server.unpack_operands, List.length_take, hlength]
  split
  · rw [if_pos (by omega), List.take_of_length_le (by omega), unpack_pack_is hnumbers]
  · rw [if_neg (by omega)]

theorem process_request {id numbers : List UInt8} (hid : id.length = 4)
    (hlen : operands.length ≤ 255) (hnumbers : pack_is operands = some numbers)
    {function : List Int → Int} (hfun : Server.functions operator.text = some function) :
    Server.answer ((id ++ pack_s 64 (encode operator.text) ++ [UInt8.ofNat operands.length] ++
        numbers).take 1024) =
      if operands.length ≤ 238 then
        (Server.evaluate function operands).bind Server.pack_result
      else none := by
  obtain ⟨s, hdecode, hstrip⟩ := decode_text operator
  have hname := length_pack_s 64 (encode operator.text)
  obtain ⟨i, hunpack⟩ := unpack_header_eq hid hname hlen
  have hheader : (id ++ pack_s 64 (encode operator.text) ++
      [UInt8.ofNat operands.length]).length = 69 := by
    simp [hid, hname]
  generalize id ++ pack_s 64 (encode operator.text) ++ [UInt8.ofNat operands.length] = header
    at hunpack hheader
  have hdata : (header ++ numbers).take 1024 = header ++ numbers.take 955 := by
    rw [List.take_append, hheader, List.take_of_length_le (by omega)]
  rw [hdata, Server.answer, List.take_left' hheader, List.drop_left' hheader, hunpack]
  simp only [Option.bind_eq_bind, Option.bind_some, hdecode, hstrip, hfun,
    unpack_operands_eq hnumbers]
  split <;> rfl

theorem pack_result_inv {result : Int} {payload : List UInt8}
    (h : Server.pack_result result = some payload) :
    ∃ id number, pack_I 1234 = some id ∧ pack_i result = some number ∧
      payload = id ++ number := by
  rw [Server.pack_result, Option.bind_eq_bind, Option.bind_eq_some_iff] at h
  obtain ⟨id, hid, h⟩ := h
  rw [Option.bind_eq_some_iff] at h
  obtain ⟨number, hnumber, h⟩ := h
  exact ⟨id, number, hid, hnumber, (Option.some.inj h).symm⟩

theorem pack_result_isSome {result : Int} :
    (∃ payload, Server.pack_result result = some payload) ↔ InRange result := by
  constructor
  · rintro ⟨payload, h⟩
    obtain ⟨id, number, -, hnumber, -⟩ := pack_result_inv h
    exact pack_i_isSome.mp ⟨number, hnumber⟩
  · intro h
    obtain ⟨number, hnumber⟩ := pack_i_isSome.mpr h
    refine ⟨(littleEndian 4 1234).reverse ++ number, ?_⟩
    simp [Server.pack_result, hnumber, pack_I]

theorem unpack_pack_result {result : Int} {payload : List UInt8}
    (h : Server.pack_result result = some payload) :
    Client.unpack_result payload = some (1234, result) := by
  obtain ⟨id, number, hid, hnumber, rfl⟩ := pack_result_inv h
  have hlength : (id ++ number).length = 8 := by
    rw [List.length_append, length_pack_I hid, length_pack_i hnumber]
  have hvalue : unpack_I id = 1234 := by exact_mod_cast unpack_pack_I hid
  rw [Client.unpack_result, List.take_of_length_le (by omega)]
  simp only [if_pos hlength, List.take_left' (length_pack_I hid),
    List.drop_left' (length_pack_I hid), hvalue, unpack_pack_i hnumber]

theorem process_data_sent {received payload : List UInt8} (hne : received ≠ []) :
    Server.process_data received = .sent payload ↔
      Server.answer (received.take 1024) = some payload := by
  have hdata : received.take 1024 ≠ [] := by simpa using hne
  rw [Server.process_data]
  simp only [if_neg hdata]
  cases Server.answer (received.take 1024) <;> simp

theorem calculate_eq_some {x : ℕ × Int} :
    Client.calculate Server.process_data operator.text operands = some x ↔
      ∃ request payload, Client.pack_request operator.text operands = some request ∧
        Server.process_data request = .sent payload ∧ Client.unpack_result payload = some x := by
  rw [Client.calculate, Option.bind_eq_bind, Option.bind_eq_some_iff]
  constructor
  · rintro ⟨request, hrequest, h⟩
    cases hprocess : Server.process_data request with
    | closed => simp [hprocess] at h
    | exception => simp [hprocess] at h
    | sent payload => exact ⟨request, payload, hrequest, hprocess, by simpa [hprocess] using h⟩
  · rintro ⟨request, payload, hrequest, hprocess, h⟩
    refine ⟨request, hrequest, ?_⟩
    rw [hprocess]
    exact h

-- The request is answered if the operands arrive in one read and the result fits the answer.
theorem calculate_eq {function : List Int → Int} (hne : operands ≠ [])
    (hlen : operands.length ≤ 255) (hrange : ∀ x ∈ operands, InRange x)
    (hfun : Server.functions operator.text = some function) (x : ℕ × Int) :
    Client.calculate Server.process_data operator.text operands = some x ↔
      operands.length ≤ 238 ∧ InRange (function operands) ∧ x = (1234, function operands) := by
  obtain ⟨id, numbers, hid, hnumbers, hrequest⟩ := pack_request_eq operator hlen hrange
  have hanswer := process_request hid hlen hnumbers hfun
  rw [Server.evaluate, if_neg hne, Option.bind_some] at hanswer
  rw [calculate_eq_some]
  constructor
  · rintro ⟨request, payload, heq, hprocess, hresult⟩
    obtain rfl := Option.some.inj (hrequest.symm.trans heq)
    rw [process_data_sent (by simp), hanswer, Option.ite_none_right_eq_some] at hprocess
    have hx := unpack_pack_result hprocess.2
    rw [hresult, Option.some.injEq] at hx
    exact ⟨hprocess.1, pack_result_isSome.mp ⟨payload, hprocess.2⟩, hx⟩
  · rintro ⟨hfit, hint, rfl⟩
    obtain ⟨payload, hpayload⟩ := pack_result_isSome.mpr hint
    refine ⟨_, payload, hrequest, ?_, unpack_pack_result hpayload⟩
    rw [process_data_sent (by simp), hanswer, if_pos hfit, hpayload]

theorem calculate_exact_iff {r : Int} (hne : operands ≠ []) (hlen : operands.length ≤ 255)
    (hrange : ∀ x ∈ operands, InRange x) (hr : operator.IsExact operands r) (hint : InRange r) :
    (∃ id, Client.calculate Server.process_data operator.text operands = some (id, r)) ↔
      operator ≠ .Maximum ∧ operands.length ≤ 238 := by
  rcases eq_or_ne operator .Maximum with rfl | hop
  · refine iff_of_false ?_ (by simp)
    rintro ⟨id, h⟩
    obtain ⟨-, hfit, -⟩ := (calculate_eq hne hlen hrange functions_maximum _).mp h
    have hlarge := le_foldl_max operands 0x80000000
    have hsmall := hfit.2
    norm_num at hsmall
    omega
  · obtain ⟨function, hfun, hexact⟩ := functions_exact hrange hr hint hop
    constructor
    · rintro ⟨id, h⟩
      exact ⟨hop, ((calculate_eq hne hlen hrange hfun _).mp h).1⟩
    · rintro ⟨-, hfit⟩
      refine ⟨1234, (calculate_eq hne hlen hrange hfun _).mpr ⟨hfit, ?_, ?_⟩⟩
      · rwa [hexact]
      · rw [hexact]

instance (x : Int) : Decidable (InRange x) :=
  inferInstanceAs (Decidable (_ ∧ _))

theorem calculate_exact_sum :
    (∃ id, Client.calculate Server.process_data Operator.Summe.text [1, 2, 3] = some (id, 6)) ↔
      Operator.Summe ≠ .Maximum ∧ [1, 2, 3].length ≤ 238 :=
  calculate_exact_iff (by decide) (by decide) (by decide) rfl (by decide)

theorem calculate_maximum_fails :
    Operator.Maximum.IsExact [1, 2, 3] 3 ∧ InRange 3 ∧
      ¬∃ id, Client.calculate Server.process_data Operator.Maximum.text [1, 2, 3] =
        some (id, 3) := by
  refine ⟨⟨by decide, by decide⟩, by decide, ?_⟩
  rintro ⟨id, h⟩
  have hfit := ((calculate_eq (by decide) (by decide) (by decide) functions_maximum _).mp h).2.1
  revert hfit
  decide

end Calculation
