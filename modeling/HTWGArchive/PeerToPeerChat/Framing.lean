import Mathlib.Data.Nat.Digits.Defs
import Mathlib.Data.PNat.Basic

namespace PeerToPeerChat

inductive ByteOrder where
  | little
  | big
  deriving DecidableEq

def littleEndian : ℕ → ℕ → List UInt8
  | 0, _ => []
  | length + 1, n => UInt8.ofNat n :: littleEndian length (n / 256)

-- `none` is the `OverflowError`.
def to_bytes (n length : ℕ) : Option (List UInt8) :=
  if n < 256 ^ length then some (littleEndian length n) else none

def from_bytes (byteorder : ByteOrder) (b : List UInt8) : ℕ :=
  match byteorder with
  | .little => Nat.ofDigits 256 (b.map UInt8.toNat)
  | .big => Nat.ofDigits 256 (b.reverse.map UInt8.toNat)

def encode (s : String) : List UInt8 :=
  s.toUTF8.data.toList

-- `none` is the `UnicodeDecodeError`.
def decode (data : List UInt8) : Option String :=
  String.fromUTF8? ⟨data.toArray⟩

-- The bytes still to be read; `seg k` is what has arrived at the `k`-th read from now.
structure Conn where
  bytes : List UInt8
  seg : ℕ → ℕ+

-- Once everything has been read the peer has closed the connection.
def recv (n : ℕ) (conn : Conn) : List UInt8 × Conn :=
  if n = 0 then ([], conn)
  else
    let k := min n (conn.seg 0)
    (conn.bytes.take k, ⟨conn.bytes.drop k, fun i => conn.seg (i + 1)⟩)

inductive Received (J : Type*) where
  | closed
  | decodeError
  | malformed
  | dict (payload_dict : J)
  deriving DecidableEq

def read {J : Type*} (loads : String → Option J) (data : List UInt8) : Received J :=
  match decode data with
  | none => .decodeError
  | some payload =>
    match loads payload with
    | none => .malformed
    | some payload_dict => .dict payload_dict

namespace Server

def pack_payload (json_string : String) : Option (List UInt8) :=
  let payload_msg := encode json_string
  match to_bytes payload_msg.length 4 with
  | none => none
  | some msg => some (msg ++ payload_msg)

def receive_message (conn : Conn) : Option (List UInt8) × Conn :=
  let (b, conn) := recv 4 conn
  if b = [] then (none, conn)
  else
    let size := from_bytes .big b
    let (data, conn) := recv size conn
    (some data, conn)

-- The part that reads a request; its test for a closed connection compares bytes with a number.
def process_request {J : Type*} (loads : String → Option J) (conn : Conn) : Received J × Conn :=
  let (b, conn) := recv 4 conn
  let size := from_bytes .little b
  let (data, conn) := recv size conn
  (read loads data, conn)

end Server

namespace Client

def convertToBytes (json_string : String) : Option (List UInt8) :=
  let payload_msg := encode json_string
  match to_bytes payload_msg.length 4 with
  | none => none
  | some msg => some (msg ++ payload_msg)

def receive_message {J : Type*} (loads : String → Option J) (conn : Conn) : Received J × Conn :=
  let (b, conn) := recv 4 conn
  if b = [] then (.closed, conn)
  else
    let size := from_bytes .big b
    let (data, conn) := recv size conn
    (read loads data, conn)

end Client

inductive Packer where
  | server
  | client

def pack : Packer × String → Option (List UInt8)
  | (.server, json_string) => Server.pack_payload json_string
  | (.client, json_string) => Client.convertToBytes json_string

def written (ps : List (Packer × String)) : Option (List UInt8) :=
  (ps.mapM pack).map List.flatten

def calls {R : Type*} (receive : Conn → R × Conn) : ℕ → Conn → List R × Conn
  | 0, conn => ([], conn)
  | k + 1, conn =>
    let (r, conn) := receive conn
    let (rs, conn) := calls receive k conn
    (r :: rs, conn)

-- One result a call, and nothing is left.
def Yields {R : Type*} (receive : Conn → R × Conn) (conn : Conn) (rs : List R) : Prop :=
  (calls receive rs.length conn).1 = rs ∧ (calls receive rs.length conn).2.bytes = []

theorem length_littleEndian (length n : ℕ) : (littleEndian length n).length = length := by
  induction length generalizing n with
  | zero => rfl
  | succ length ih => rw [littleEndian, List.length_cons, ih]

theorem ofDigits_littleEndian {length n : ℕ} (h : n < 256 ^ length) :
    Nat.ofDigits 256 ((littleEndian length n).map UInt8.toNat) = n := by
  induction length generalizing n with
  | zero =>
    rw [pow_zero, Nat.lt_one_iff] at h
    rw [h]
    rfl
  | succ length ih =>
    have hrest : n / 256 < 256 ^ length := by
      rw [Nat.div_lt_iff_lt_mul (by norm_num), ← pow_succ]
      exact h
    rw [littleEndian, List.map_cons, Nat.ofDigits_cons, ih hrest]
    have hbyte : (UInt8.ofNat n).toNat = n % 256 := rfl
    rw [hbyte]
    exact Nat.mod_add_div n 256

theorem decode_eq_some {data : List UInt8} {s : String} :
    decode data = some s ↔ data = encode s := by
  rw [decode, String.fromUTF8?]
  constructor
  · intro h
    split at h
    · obtain rfl := Option.some.inj h
      rfl
    · cases h
  · rintro rfl
    have hvalid : ByteArray.IsValidUTF8 ⟨(encode s).toArray⟩ := s.isValidUTF8
    rw [dif_pos hvalid]
    rfl

end PeerToPeerChat
