import HTWGArchive.PeerToPeerChat.Framing

namespace PeerToPeerChat

-- What a receiver that reads with this byte order takes for the length `n`.
def claimed (byteorder : ByteOrder) (n : ℕ) : ℕ :=
  from_bytes byteorder (littleEndian 4 n)

def Cut (size : ℕ → ℕ) : List ℕ → (ℕ → ℕ+) → Prop
  | [], _ => True
  | n :: ns, seg =>
    4 ≤ (seg 0 : ℕ) ∧
      ((n = 0 ∧ Cut size ns (fun i => seg (i + 1))) ∨
        (0 < n ∧ n ≤ size n ∧ n ≤ (seg 1 : ℕ) ∧ (size n = n ∨ (seg 1 : ℕ) = n ∨ ns = []) ∧
          Cut size ns (fun i => seg (i + 2))))

def header (conn : Conn) : List UInt8 × Conn :=
  recv 4 conn

def body (byteorder : ByteOrder) (conn : Conn) : List UInt8 × Conn :=
  recv (from_bytes byteorder (header conn).1) (header conn).2

-- A receiver whose result for the payload `p` is `val p`.
structure Reader {R : Type*} (receive : Conn → R × Conn) (byteorder : ByteOrder)
    (val : String → R) : Prop where
  conn : ∀ c, (receive c).2 = (body byteorder c).2
  result : ∀ c p, (header c).1.length = 4 → (body byteorder c).1 = encode p → (receive c).1 = val p

-- Other bytes give other results.
def Exact {R : Type*} (receive : Conn → R × Conn) (byteorder : ByteOrder)
    (val : String → R) : Prop :=
  ∀ c p, (receive c).1 = val p → (body byteorder c).1 = encode p

def size (p : String) : ℕ :=
  (encode p).length

def frame (p : String) : List UInt8 :=
  littleEndian 4 (size p) ++ encode p

theorem claimed_little {n : ℕ} (h : n < 2 ^ 32) : claimed .little n = n :=
  ofDigits_littleEndian (by norm_num at h ⊢; exact h)

theorem claimed_zero (byteorder : ByteOrder) : claimed byteorder 0 = 0 := by
  cases byteorder
  · rfl
  · rfl

theorem length_frame (p : String) : (frame p).length = 4 + size p := by
  rw [frame, List.length_append, length_littleEndian, size]

section Recv

variable {n : ℕ} {conn : Conn}

theorem recv_split (n : ℕ) (conn : Conn) : conn.bytes = (recv n conn).1 ++ (recv n conn).2.bytes := by
  unfold recv
  split
  · rfl
  · exact (List.take_append_drop _ _).symm

theorem recv_length_le (n : ℕ) (conn : Conn) : (recv n conn).1.length ≤ n := by
  unfold recv
  split
  · exact Nat.zero_le _
  · rw [List.length_take]
    omega

theorem recv_eq (h : 0 < n) {as bs : List UInt8} (hbytes : conn.bytes = as ++ bs) :
    (recv n conn).1 = as ↔
      as.length ≤ n ∧ as.length ≤ conn.seg 0 ∧
        (n = as.length ∨ (conn.seg 0 : ℕ) = as.length ∨ bs = []) := by
  rw [recv, if_neg h.ne']
  simp only [hbytes]
  have hlength : ((as ++ bs).take (min n (conn.seg 0))).length =
      min (min n (conn.seg 0)) (as.length + bs.length) := by
    rw [List.length_take, List.length_append]
  have hbs : bs = [] ↔ bs.length = 0 := List.length_eq_zero_iff.symm
  have htake : (as ++ bs).take (min n (conn.seg 0)) = as ↔
      min (min n (conn.seg 0)) (as.length + bs.length) = as.length := by
    rw [← hlength]
    constructor
    · intro heq
      rw [heq]
    · intro heq
      have hprefix := List.take_prefix (min n (conn.seg 0 : ℕ)) (as ++ bs)
      exact (List.prefix_of_prefix_length_le hprefix (List.prefix_append as bs) heq.le).eq_of_length heq
  rw [htake, hbs]
  omega

theorem recv_seg (conn : Conn) (h : 0 < n) : (recv n conn).2.seg = fun i => conn.seg (i + 1) := by
  rw [recv, if_neg h.ne']

end Recv

section Calls

variable {R : Type*} {receive : Conn → R × Conn} {byteorder : ByteOrder} {val : String → R}

theorem calls_succ (k : ℕ) (conn : Conn) :
    calls receive (k + 1) conn =
      ((receive conn).1 :: (calls receive k (receive conn).2).1, (calls receive k (receive conn).2).2) :=
  rfl

theorem yields_cons {conn : Conn} {r : R} {rs : List R} :
    Yields receive conn (r :: rs) ↔ (receive conn).1 = r ∧ Yields receive (receive conn).2 rs := by
  rw [Yields, List.length_cons, calls_succ, List.cons.injEq, and_assoc]
  exact Iff.rfl

-- A call takes no more than a frame of what it reads.
theorem Yields.length_le (hread : Reader receive byteorder val) (hexact : Exact receive byteorder val)
    {conn : Conn} {ps : List String} (h : Yields receive conn (ps.map val)) :
    conn.bytes.length ≤ (ps.map frame).flatten.length := by
  induction ps generalizing conn with
  | nil =>
    have hempty : conn.bytes = [] := h.2
    rw [hempty]
    exact Nat.zero_le _
  | cons p ps ih =>
    obtain ⟨hp, hrest⟩ := yields_cons.mp h
    have hle := ih hrest
    have hbody := hexact conn p hp
    have hsplit := congrArg List.length (recv_split 4 conn)
    have hsplit' := congrArg List.length
      (recv_split (from_bytes byteorder (header conn).1) (header conn).2)
    have hheader := recv_length_le 4 conn
    rw [List.length_append] at hsplit hsplit'
    rw [hread.conn, body] at hle
    rw [body] at hbody
    rw [hbody] at hsplit'
    rw [List.map_cons, List.flatten_cons, List.length_append, length_frame, size]
    change _ = (header conn).1.length + (header conn).2.bytes.length at hsplit
    change (header conn).1.length ≤ 4 at hheader
    omega

end Calls

section Frame

variable {byteorder : ByteOrder} {conn : Conn} {p : String} {rest : List UInt8}

theorem header_eq (hbytes : conn.bytes = frame p ++ rest) (hseg : 4 ≤ (conn.seg 0 : ℕ)) :
    header conn =
      (littleEndian 4 (size p), ⟨encode p ++ rest, fun i => conn.seg (i + 1)⟩) := by
  rw [frame, List.append_assoc] at hbytes
  have hlength := length_littleEndian 4 (size p)
  have hfirst : (header conn).1 = littleEndian 4 (size p) := by
    rw [header, recv_eq (by norm_num) hbytes, hlength]
    exact ⟨le_refl 4, hseg, Or.inl rfl⟩
  have hsplit := recv_split 4 conn
  rw [hbytes] at hsplit
  have hrest := List.append_inj_right hsplit (by rw [← hfirst]; rfl)
  have hsegs : (header conn).2.seg = fun i => conn.seg (i + 1) := recv_seg conn (by norm_num)
  rw [Prod.ext_iff]
  refine ⟨hfirst, ?_⟩
  rw [show (header conn).2 = ⟨(header conn).2.bytes, (header conn).2.seg⟩ from rfl, hsegs, hrest]
  rfl

theorem seg_of_header (h : (header conn).1.length = 4) :
    4 ≤ (conn.seg 0 : ℕ) := by
  rw [header, recv, if_neg (by norm_num), List.length_take] at h
  omega

-- A shorter header would leave more bytes than the other frames have.
theorem seg_of_length (hbytes : conn.bytes = frame p ++ rest)
    (hbody : (body byteorder conn).1 = encode p)
    (hle : (body byteorder conn).2.bytes.length ≤ rest.length) : 4 ≤ (conn.seg 0 : ℕ) := by
  have hsplit := congrArg List.length (recv_split 4 conn)
  have hsplit' := congrArg List.length
    (recv_split (from_bytes byteorder (header conn).1) (header conn).2)
  have hheader := recv_length_le 4 conn
  rw [hbytes, List.length_append, length_frame, List.length_append] at hsplit
  rw [body] at hbody hle
  rw [List.length_append, hbody] at hsplit'
  refine seg_of_header ?_
  rw [size] at hsplit
  rw [header] at hle hsplit' ⊢
  omega

theorem body_eq (hbytes : conn.bytes = frame p ++ rest) (hseg : 4 ≤ (conn.seg 0 : ℕ)) :
    (body byteorder conn).1 = encode p ↔ size p = 0 ∨
      (0 < size p ∧ size p ≤ claimed byteorder (size p) ∧ size p ≤ (conn.seg 1 : ℕ) ∧
        (claimed byteorder (size p) = size p ∨ (conn.seg 1 : ℕ) = size p ∨ rest = [])) := by
  rw [body, header_eq hbytes hseg]
  change (recv (claimed byteorder (size p)) _).1 = _ ↔ _
  rcases Nat.eq_zero_or_pos (size p) with hzero | hpos
  · have hempty : encode p = [] := List.length_eq_zero_iff.mp hzero
    rw [hzero, claimed_zero, recv, if_pos rfl, hempty]
    simp
  · rcases Nat.eq_zero_or_pos (claimed byteorder (size p)) with hnone | hsome
    · rw [hnone, recv, if_pos rfl]
      constructor
      · intro hempty
        rw [size, ← hempty] at hpos
        exact absurd hpos (lt_irrefl _)
      · intro h
        omega
    · rw [recv_eq hsome rfl]
      have hne : size p ≠ 0 := hpos.ne'
      simp only [hne, hpos, false_or, true_and]
      exact Iff.rfl

theorem body_rest (hbytes : conn.bytes = frame p ++ rest) (hseg : 4 ≤ (conn.seg 0 : ℕ))
    (h : (body byteorder conn).1 = encode p) :
    (body byteorder conn).2 = ⟨rest, fun i =>
      conn.seg (i + if size p = 0 then 1 else 2)⟩ := by
  have hbody := (body_eq hbytes hseg).mp h
  rw [body, header_eq hbytes hseg] at h ⊢
  change (recv (claimed byteorder _) _).1 = _ at h
  change (recv (claimed byteorder _) _).2 = _
  have hsplit := recv_split (claimed byteorder (size p))
    ⟨encode p ++ rest, fun i => conn.seg (i + 1)⟩
  rw [h] at hsplit
  have hrest := List.append_cancel_left hsplit
  rcases hbody with hzero | ⟨hpos, hle, -⟩
  · have hempty : encode p = [] := List.length_eq_zero_iff.mp hzero
    rw [hzero, claimed_zero, recv, if_pos rfl, if_pos rfl, hempty]
    rfl
  · have hsegs := recv_seg ⟨encode p ++ rest, fun i => conn.seg (i + 1)⟩ (hpos.trans_le hle)
    rw [if_neg hpos.ne']
    generalize recv (claimed byteorder (size p)) _ = r at hrest hsegs ⊢
    obtain ⟨data, bytes, seg⟩ := r
    rw [hrest]
    exact congrArg (Conn.mk bytes) hsegs

end Frame

section Stream

variable {R : Type*} {receive : Conn → R × Conn} {byteorder : ByteOrder} {val : String → R}

theorem flatten_frames_eq_nil {ps : List String} : (ps.map frame).flatten = [] ↔ ps = [] := by
  cases ps with
  | nil => simp
  | cons p ps =>
    have hpos : 0 < (frame p).length := by
      rw [length_frame]
      omega
    simp only [List.map_cons, List.flatten_cons, List.append_eq_nil_iff, reduceCtorEq, iff_false]
    rintro ⟨hp, -⟩
    rw [hp] at hpos
    exact lt_irrefl _ hpos

-- What the first frame asks of the segmentation.
theorem cut_cons {p : String} {ps : List String} {seg : ℕ → ℕ+} :
    Cut (claimed byteorder) ((p :: ps).map size) seg ↔
      4 ≤ (seg 0 : ℕ) ∧
      (body byteorder ⟨frame p ++ (ps.map frame).flatten, seg⟩).1 = encode p ∧
      Cut (claimed byteorder) (ps.map size)
        (fun i => seg (i + if size p = 0 then 1 else 2)) := by
  rw [List.map_cons, Cut]
  refine and_congr_right (fun hseg => ?_)
  rw [body_eq rfl hseg]
  simp only [List.map_eq_nil_iff, flatten_frames_eq_nil]
  rcases Nat.eq_zero_or_pos (size p) with hzero | hpos
  · simp [hzero]
  · simp [hpos.ne', hpos, and_assoc]

theorem Reader.yields (hread : Reader receive byteorder val) (ps : List String) {seg : ℕ → ℕ+}
    (h : Cut (claimed byteorder) (ps.map size) seg) :
    Yields receive ⟨(ps.map frame).flatten, seg⟩ (ps.map val) := by
  induction ps generalizing seg with
  | nil => exact ⟨rfl, rfl⟩
  | cons p ps ih =>
    obtain ⟨hseg, hbody, hrest⟩ := cut_cons.mp h
    have hbytes : (⟨frame p ++ (ps.map frame).flatten, seg⟩ : Conn).bytes =
        frame p ++ (ps.map frame).flatten := rfl
    change Yields receive ⟨frame p ++ (ps.map frame).flatten, seg⟩ (val p :: ps.map val)
    rw [yields_cons, hread.conn, body_rest hbytes hseg hbody]
    refine ⟨hread.result _ p ?_ hbody, ih hrest⟩
    rw [header_eq hbytes hseg]
    exact length_littleEndian _ _

theorem Reader.cut (hread : Reader receive byteorder val) (hexact : Exact receive byteorder val)
    (ps : List String) {seg : ℕ → ℕ+}
    (h : Yields receive ⟨(ps.map frame).flatten, seg⟩ (ps.map val)) :
    Cut (claimed byteorder) (ps.map size) seg := by
  induction ps generalizing seg with
  | nil => trivial
  | cons p ps ih =>
    obtain ⟨hp, hrest⟩ := yields_cons.mp h
    change Yields receive (receive ⟨frame p ++ (ps.map frame).flatten, seg⟩).2 _ at hrest
    change (receive ⟨frame p ++ (ps.map frame).flatten, seg⟩).1 = val p at hp
    have hbody := hexact _ p hp
    have hseg : 4 ≤ (seg 0 : ℕ) := by
      have hle := hrest.length_le hread hexact
      rw [hread.conn] at hle
      exact seg_of_length rfl hbody hle
    refine cut_cons.mpr ⟨hseg, hbody, ih ?_⟩
    rw [hread.conn, body_rest rfl hseg hbody] at hrest
    exact hrest

theorem Reader.yields_iff (hread : Reader receive byteorder val) (hexact : Exact receive byteorder val)
    (ps : List String) (seg : ℕ → ℕ+) :
    Yields receive ⟨(ps.map frame).flatten, seg⟩ (ps.map val) ↔
      Cut (claimed byteorder) (ps.map size) seg :=
  ⟨hread.cut hexact ps, hread.yields ps⟩

end Stream

section Receivers

variable {J : Type} {loads : String → Option J}

def parsed (loads : String → Option J) (payload : String) : Received J :=
  match loads payload with
  | none => .malformed
  | some payload_dict => .dict payload_dict

theorem read_encode (p : String) : read loads (encode p) = parsed loads p := by
  rw [read, decode_eq_some.mpr rfl]
  rfl

theorem read_eq_dict {data : List UInt8} {p : String} (h : read some data = .dict p) :
    data = encode p := by
  unfold read at h
  split at h
  · cases h
  · rename_i payload hdecode
    obtain rfl := Received.dict.inj h
    exact decode_eq_some.mp hdecode

theorem body_of_closed {byteorder : ByteOrder} {conn : Conn} (h : (header conn).1 = []) :
    (body byteorder conn).2 = (header conn).2 := by
  have hnone : from_bytes byteorder (header conn).1 = 0 := by
    rw [h]
    cases byteorder
    · rfl
    · rfl
  rw [body, hnone]
  rfl

theorem open_of_length {conn : Conn} (h : (header conn).1.length = 4) : (header conn).1 ≠ [] := by
  intro hclosed
  rw [hclosed] at h
  cases h

theorem client_eq (conn : Conn) : Client.receive_message loads conn =
    if (header conn).1 = [] then (.closed, (header conn).2)
    else (read loads (body .big conn).1, (body .big conn).2) :=
  rfl

theorem raw_eq (conn : Conn) : Server.receive_message conn =
    if (header conn).1 = [] then (none, (header conn).2)
    else (some (body .big conn).1, (body .big conn).2) :=
  rfl

theorem reader_client : Reader (Client.receive_message loads) .big (parsed loads) where
  conn c := by
    rw [client_eq]
    split
    · rename_i hclosed
      exact (body_of_closed hclosed).symm
    · rfl
  result c p hheader hbody := by
    rw [client_eq, if_neg (open_of_length hheader), hbody, read_encode]

theorem exact_client : Exact (Client.receive_message some) .big Received.dict := by
  intro c p h
  rw [client_eq] at h
  split at h
  · cases h
  · exact read_eq_dict h

theorem reader_server : Reader (Server.process_request loads) .little (parsed loads) where
  conn c := rfl
  result c p _ hbody := by
    change read loads (body .little c).1 = parsed loads p
    rw [hbody, read_encode]

theorem exact_server : Exact (Server.process_request some) .little Received.dict :=
  fun _ _ h => read_eq_dict h

theorem reader_raw : Reader Server.receive_message .big (fun p => some (encode p)) where
  conn c := by
    rw [raw_eq]
    split
    · rename_i hclosed
      exact (body_of_closed hclosed).symm
    · rfl
  result c p hheader hbody := by
    rw [raw_eq, if_neg (open_of_length hheader), hbody]

theorem exact_raw : Exact Server.receive_message .big (fun p => some (encode p)) := by
  intro c p h
  rw [raw_eq] at h
  split at h
  · cases h
  · exact Option.some.inj h

end Receivers

def payloads (ps : List (Packer × String)) : List String :=
  ps.map Prod.snd

theorem pack_eq {p : Packer × String} (h : size p.2 < 2 ^ 32) : pack p = some (frame p.2) := by
  have hbytes : to_bytes (encode p.2).length 4 = some (littleEndian 4 (size p.2)) :=
    if_pos (by norm_num at h ⊢; exact h)
  obtain ⟨packer, payload⟩ := p
  cases packer
  · simp only [pack, Server.pack_payload, hbytes, frame]
  · simp only [pack, Client.convertToBytes, hbytes, frame]

theorem written_eq {ps : List (Packer × String)} (h : ∀ p ∈ ps, size p.2 < 2 ^ 32) :
    written ps = some ((payloads ps).map frame).flatten := by
  have hmap : ps.mapM pack = some (ps.map (fun p => frame p.2)) := by
    induction ps with
    | nil => rfl
    | cons p ps ih =>
      rw [List.mapM_cons, pack_eq (h p (List.mem_cons_self ..)),
        ih (fun q hq => h q (List.mem_cons_of_mem _ hq))]
      rfl
  rw [written, hmap, Option.map_some, payloads, List.map_map]
  rfl

theorem cut_congr {f g : ℕ → ℕ} {ns : List ℕ} {seg : ℕ → ℕ+} (h : ∀ n ∈ ns, f n = g n) :
    Cut f ns seg ↔ Cut g ns seg := by
  induction ns generalizing seg with
  | nil => exact Iff.rfl
  | cons n ns ih =>
    have hns : ∀ seg, Cut f ns seg ↔ Cut g ns seg :=
      fun _ => ih (fun m hm => h m (List.mem_cons_of_mem _ hm))
    rw [Cut, Cut, h n (List.mem_cons_self ..), hns, hns]

theorem framing_round_trip_iff (ps : List (Packer × String)) (seg : ℕ → ℕ+)
    (hsize : ∀ p ∈ ps, size p.2 < 2 ^ 32) :
    ∃ bytes, written ps = some bytes ∧
      (Yields (Client.receive_message some) ⟨bytes, seg⟩ ((payloads ps).map .dict) ↔
        Cut (claimed .big) ((payloads ps).map size) seg) ∧
      (Yields (Server.process_request some) ⟨bytes, seg⟩ ((payloads ps).map .dict) ↔
        Cut id ((payloads ps).map size) seg) ∧
      (Yields Server.receive_message ⟨bytes, seg⟩ ((payloads ps).map (fun p => some (encode p))) ↔
        Cut (claimed .big) ((payloads ps).map size) seg) ∧
      ∀ (J : Type) (loads : String → Option J),
        (Cut (claimed .big) ((payloads ps).map size) seg →
          Yields (Client.receive_message loads) ⟨bytes, seg⟩ ((payloads ps).map (parsed loads))) ∧
        (Cut id ((payloads ps).map size) seg →
          Yields (Server.process_request loads) ⟨bytes, seg⟩ ((payloads ps).map (parsed loads))) := by
  have hlittle : Cut id ((payloads ps).map size) seg ↔
      Cut (claimed .little) ((payloads ps).map size) seg := by
    refine cut_congr ?_
    intro n hn
    obtain ⟨payload, hp, rfl⟩ := List.mem_map.mp hn
    obtain ⟨p, hmem, rfl⟩ := List.mem_map.mp hp
    exact (claimed_little (hsize p hmem)).symm
  refine ⟨_, written_eq hsize, ?_, ?_, ?_, ?_⟩
  · exact reader_client.yields_iff exact_client (payloads ps) seg
  · rw [hlittle]
    exact reader_server.yields_iff exact_server (payloads ps) seg
  · exact reader_raw.yields_iff exact_raw (payloads ps) seg
  · intro J loads
    rw [hlittle]
    exact ⟨reader_client.yields (payloads ps), reader_server.yields (payloads ps)⟩

theorem framing_round_trip_two :
    ∃ bytes, written [(.client, "1"), (.server, "22")] = some bytes ∧
      (Yields (Client.receive_message some) ⟨bytes, fun _ => 4⟩ [.dict "1", .dict "22"] ↔
        Cut (claimed .big) [size "1", size "22"] (fun _ => 4)) ∧
      (Yields (Server.process_request some) ⟨bytes, fun _ => 4⟩ [.dict "1", .dict "22"] ↔
        Cut id [size "1", size "22"] (fun _ => 4)) := by
  obtain ⟨bytes, hbytes, hclient, hserver, -⟩ :=
    framing_round_trip_iff [(.client, "1"), (.server, "22")] (fun _ => 4) (by decide +kernel)
  exact ⟨bytes, hbytes, hclient, hserver⟩

-- Both frames arrive at once; the bytes arrive one by one.
theorem frames_lost : ∃ bytes, written [(.server, "1"), (.server, "2")] = some bytes ∧
    ¬ Yields (Client.receive_message some) ⟨bytes, fun _ => 10⟩ [.dict "1", .dict "2"] ∧
    ¬ Yields (Server.process_request some) ⟨bytes, fun _ => 1⟩ [.dict "1", .dict "2"] := by
  refine ⟨_, rfl, ?_, ?_⟩
  · intro h
    exact absurd h.1 (by decide +kernel)
  · intro h
    exact absurd h.1 (by decide +kernel)

end PeerToPeerChat
