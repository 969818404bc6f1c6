import Barnacle.Lib.Bytes

/-! MySQL framing and packet parsing (`src/common/mysql/protocol.cpp`).

    Every wire packet is a 4-byte header — 3-byte little-endian payload length, 1-byte sequence id —
    followed by that many bytes. A message of `kMaxPayload` bytes or more is a chain of full packets
    ended by a shorter one. `MessageReader` takes such chains off a growing buffer, `encodeMessage`
    writes them, and `next_of_encodeMessage` says the first undoes the second at any cursor.

    A buffer is a byte list and a cursor a position in it; a parser that fails returns `none`. The
    loops carry fuel. `MessageReader.next` gets one more than the bytes held and `encodeMessage` one
    more than the full packets it writes, so neither ever runs out. -/

namespace Barnacle.Mysql
open Barnacle.Lib

def kHeaderLen : Nat := 4
def kMaxPayload : Nat := 0xFFFFFF

/-! ### Capability and status words -/

def CLIENT_PROTOCOL_41 : UInt32 := 0x00000200
def CLIENT_TRANSACTIONS : UInt32 := 0x00002000
def CLIENT_DEPRECATE_EOF : UInt32 := 0x01000000
def CLIENT_QUERY_ATTRIBUTES : UInt32 := 0x08000000

def SERVER_STATUS_IN_TRANS : UInt16 := 0x0001
def SERVER_MORE_RESULTS_EXISTS : UInt16 := 0x0008

def COM_QUERY : UInt8 := 0x03

/-- `caps & flag`, as the condition of an `if`. -/
def hasCap (caps flag : UInt32) : Bool := caps &&& flag != 0

/-- `status & flag`, as the condition of an `if`. -/
def hasStatus (status flag : UInt16) : Bool := status &&& flag != 0

/-! ### Length-encoded integers and strings -/

/-- Decode at `pos`: the value and the cursor past it. `0xFB` (NULL) and `0xFF` (an error marker)
    are not lengths. -/
def readLenEnc (data : Bytes) (pos : Nat) : Option (Nat × Nat) :=
  match data[pos]? with
  | none => none
  | some first =>
    if first < 0xFB then some (first.toNat, pos + 1)
    else if first = 0xFC then
      if pos + 3 > data.length then none else some (leAt data (pos + 1) 2, pos + 3)
    else if first = 0xFD then
      if pos + 4 > data.length then none else some (leAt data (pos + 1) 3, pos + 4)
    else if first = 0xFE then
      if pos + 9 > data.length then none else some (leAt data (pos + 1) 8, pos + 9)
    else none

def readLenEncString (data : Bytes) (pos : Nat) : Option (Bytes × Nat) :=
  match readLenEnc data pos with
  | none => none
  | some (n, pos) =>
    if n > data.length - pos then none else some ((data.drop pos).take n, pos + n)

/-! ### Message framing -/

/-- One reassembled logical message. -/
structure Message where
  payload : Bytes
  first_seq : UInt8
  last_seq : UInt8
  wire_size : Nat
  deriving DecidableEq, Repr

/-- The incremental framer: bytes held, and how many of them are already consumed. -/
structure MessageReader where
  buf : Bytes := []
  consumed : Nat := 0
  deriving DecidableEq, Repr

namespace MessageReader

/-- Drop already-consumed bytes once they dominate the buffer. -/
def compact (r : MessageReader) : MessageReader :=
  if r.consumed = 0 then r
  else if r.consumed = r.buf.length then { buf := [], consumed := 0 }
  else if r.consumed > r.buf.length / 2 then { buf := r.buf.drop r.consumed, consumed := 0 }
  else r

def append (r : MessageReader) (data : Bytes) : MessageReader :=
  if data.length = 0 then r
  else { r.compact with buf := r.compact.buf ++ data }

def reset (_ : MessageReader) : MessageReader := { buf := [], consumed := 0 }

/-- Bytes held but not yet formed into a complete message. -/
def buffered (r : MessageReader) : Nat := r.buf.length - r.consumed

/-- The continuation chain from `pos`: accumulate payload until a packet shorter than `kMaxPayload`.
    Returns the message and the cursor past it; `start` is where the message began. -/
def nextLoop (buf : Bytes) (start : Nat) :
    Nat → Nat → Bytes → Option UInt8 → Option (Message × Nat)
  | 0, _, _, _ => none
  | fuel + 1, pos, payload, first_seq =>
    if buf.length - pos < kHeaderLen then none
    else
      let plen := leAt buf pos 3
      let seq := buf.getD (pos + 3) 0
      if buf.length - pos - kHeaderLen < plen then none
      else
        let payload := payload ++ (buf.drop (pos + kHeaderLen)).take plen
        let first := first_seq.getD seq
        let pos := pos + (kHeaderLen + plen)
        if plen = kMaxPayload then nextLoop buf start fuel pos payload (some first)
        else some ({ payload := payload, first_seq := first, last_seq := seq,
                     wire_size := pos - start }, pos)

/-- Pull the next complete message, or `none` with the reader untouched. -/
def next (r : MessageReader) : Option (Message × MessageReader) :=
  (nextLoop r.buf r.consumed (r.buf.length + 1) r.consumed [] none).map
    fun mp => (mp.1, { r with consumed := mp.2 })

end MessageReader

/-- The packets of the payload still to write, each carrying the next sequence id. -/
def encodeLoop : Nat → Bytes → UInt8 → Bytes
  | 0, _, _ => []
  | fuel + 1, rest, seq =>
    let chunk := if rest.length > kMaxPayload then kMaxPayload else rest.length
    leBytes 3 chunk ++ seq :: rest.take chunk ++
      (if chunk ≠ kMaxPayload then [] else encodeLoop fuel (rest.drop chunk) (seq + 1))

/-- Serialize a payload as one or more wire packets. -/
def encodeMessage (payload : Bytes) (start_seq : UInt8) : Bytes :=
  encodeLoop (payload.length / kMaxPayload + 1) payload start_seq

/-! ### Commands -/

/-- The statement text of a COM_QUERY payload; statements with bound parameters are refused. -/
def extractQuery (data : Bytes) (caps : UInt32) : Option Bytes :=
  if data.head? ≠ some COM_QUERY then none
  else if hasCap caps CLIENT_QUERY_ATTRIBUTES then
    match readLenEnc data 1 with
    | none => none
    | some (param_count, pos) =>
      match readLenEnc data pos with
      | none => none
      | some (_, pos) => if param_count > 0 then none else some (data.drop pos)
  else some (data.drop 1)

/-! ### Responses -/

inductive ResponseKind where | Ok | Err | Eof | LocalInfile | ResultSet | Unknown
  deriving DecidableEq, Repr

def classifyResponse (data : Bytes) (caps : UInt32) : ResponseKind :=
  match data[0]? with
  | none => .Unknown
  | some h =>
    if h = 0xFF then .Err
    else if h = 0xFB then .LocalInfile
    else if h = 0x00 then .Ok
    else if h = 0xFE then
      if data.length < 9 then
        if hasCap caps CLIENT_DEPRECATE_EOF then .Ok else .Eof
      else .ResultSet
    else .ResultSet

structure OkPacket where
  affected_rows : Nat
  last_insert_id : Nat
  status_flags : UInt16
  warnings : UInt16
  deriving DecidableEq, Repr

/-- Parse an OK packet. The status word is present under PROTOCOL_41 or TRANSACTIONS, the warning
    count under PROTOCOL_41 alone; an absent word reads as zero. -/
def parseOk (data : Bytes) (caps : UInt32) : Option OkPacket :=
  match data[0]? with
  | none => none
  | some h =>
    if h ≠ 0x00 ∧ h ≠ 0xFE then none
    else
      match readLenEnc data 1 with
      | none => none
      | some (affected, pos) =>
        match readLenEnc data pos with
        | none => none
        | some (insert_id, pos) =>
          let hasFlags := hasCap caps (CLIENT_PROTOCOL_41 ||| CLIENT_TRANSACTIONS)
          if hasFlags ∧ pos + 2 > data.length then none
          else
            let flags := if hasFlags then UInt16.ofNat (leAt data pos 2) else 0
            let pos := if hasFlags then pos + 2 else pos
            let hasWarn := hasCap caps CLIENT_PROTOCOL_41
            if hasWarn ∧ pos + 2 > data.length then none
            else
              let warn := if hasWarn then UInt16.ofNat (leAt data pos 2) else 0
              some { affected_rows := affected, last_insert_id := insert_id,
                     status_flags := flags, warnings := warn }

structure EofPacket where
  warnings : UInt16
  status_flags : UInt16
  deriving DecidableEq, Repr

/-- Parse a genuine EOF packet: header, warnings, status. -/
def parseEof (data : Bytes) : Option EofPacket :=
  if data.length < 5 ∨ data[0]? ≠ some 0xFE then none
  else some { warnings := UInt16.ofNat (leAt data 1 2), status_flags := UInt16.ofNat (leAt data 3 2) }

structure ErrPacket where
  error_code : UInt16
  sql_state : Bytes
  message : Bytes
  deriving DecidableEq, Repr

/-- Parse an ERR packet. Under PROTOCOL_41 a `#` and five characters of SQL state may stand in front
    of the message. -/
def parseErr (data : Bytes) (caps : UInt32) : Option ErrPacket :=
  if data.length < 3 ∨ data[0]? ≠ some 0xFF then none
  else
    let error_code := UInt16.ofNat (leAt data 1 2)
    if hasCap caps CLIENT_PROTOCOL_41 ∧ data[3]? = some 0x23 then
      if 4 + 5 > data.length then none
      else some { error_code, sql_state := (data.drop 4).take 5, message := data.drop 9 }
    else some { error_code, sql_state := [], message := data.drop 3 }

/-! ### Renumbering -/

def renumberLoop : Nat → Bytes → Nat → UInt8 → Bool × Bytes
  | 0, stream, _, _ => (false, stream)
  | fuel + 1, stream, pos, seq =>
    if pos < stream.length then
      if stream.length - pos < kHeaderLen then (false, stream)
      else
        let plen := leAt stream pos 3
        if stream.length - pos - kHeaderLen < plen then (false, stream)
        else renumberLoop fuel (stream.set (pos + 3) seq) (pos + (kHeaderLen + plen)) (seq + 1)
    else (pos = stream.length, stream)

/-- Rewrite the sequence ids of a packet stream in place: whether it was one, and what it is now. -/
def renumber (stream : Bytes) (start_seq : UInt8) : Bool × Bytes :=
  renumberLoop (stream.length / kHeaderLen + 1) stream 0 start_seq

/-! ### Reading back what was framed -/

/-- A packet standing at the cursor, split into the header fields and the body the reader takes. -/
structure PacketAt (buf : Bytes) (pos : Nat) (seq : UInt8) (body rest : Bytes) : Prop where
  room : pos + kHeaderLen + body.length ≤ buf.length
  plen : leAt buf pos 3 = body.length
  seqid : buf.getD (pos + 3) 0 = seq
  bytes : (buf.drop (pos + kHeaderLen)).take body.length = body
  tail : buf.drop (pos + (kHeaderLen + body.length)) = rest

theorem packetAt_of_drop {buf body rest : Bytes} {pos : Nat} {seq : UInt8}
    (hlen : body.length ≤ kMaxPayload)
    (h : buf.drop pos = leBytes 3 body.length ++ seq :: body ++ rest) :
    PacketAt buf pos seq body rest := by
  have h3 : buf.drop pos = leBytes 3 body.length ++ (seq :: (body ++ rest)) := by simpa using h
  have hs : buf.drop (pos + 3) = seq :: (body ++ rest) := by
    simpa using drop_of_drop_append h3
  have hb : buf.drop (pos + kHeaderLen) = body ++ rest := by
    have := drop_of_drop_append (x := [seq]) (by simpa using hs)
    simpa [kHeaderLen, Nat.add_assoc] using this
  refine ⟨?_, leAt_of_drop h3 (by simp only [kMaxPayload] at hlen; omega), ?_, ?_, ?_⟩
  · have hl := congrArg List.length hs
    simp only [List.length_drop, List.length_cons, List.length_append] at hl
    simp only [kHeaderLen]; omega
  · rw [List.getD_eq_getElem?_getD, getElem?_of_drop hs]; rfl
  · exact take_of_drop_append hb
  · rw [← Nat.add_assoc]; exact drop_of_drop_append hb

/-- One round of the reader over a packet: take the body, stop unless the packet is full. -/
theorem nextLoop_packet {buf body rest : Bytes} {pos : Nat} {seq : UInt8}
    (h : PacketAt buf pos seq body rest) (start fuel : Nat) (acc : Bytes) (first : Option UInt8) :
    MessageReader.nextLoop buf start (fuel + 1) pos acc first =
      if body.length = kMaxPayload then
        MessageReader.nextLoop buf start fuel (pos + (kHeaderLen + body.length)) (acc ++ body)
          (some (first.getD seq))
      else some ({ payload := acc ++ body, first_seq := first.getD seq, last_seq := seq,
                   wire_size := pos + (kHeaderLen + body.length) - start },
                 pos + (kHeaderLen + body.length)) := by
  have hroom := h.room
  have hhdr : ¬ buf.length - pos < kHeaderLen := by simp only [kHeaderLen] at *; omega
  have hbody : ¬ buf.length - pos - kHeaderLen < body.length := by
    simp only [kHeaderLen] at *; omega
  rw [MessageReader.nextLoop, if_neg hhdr]
  simp only [h.plen, h.seqid, h.bytes, if_neg hbody]

theorem encodeLoop_succ (fuel : Nat) (rest : Bytes) (seq : UInt8) :
    encodeLoop (fuel + 1) rest seq =
      if rest.length < kMaxPayload then leBytes 3 rest.length ++ seq :: rest
      else leBytes 3 kMaxPayload ++ seq :: rest.take kMaxPayload ++
        encodeLoop fuel (rest.drop kMaxPayload) (seq + 1) := by
  rw [encodeLoop]
  rcases Nat.lt_trichotomy rest.length kMaxPayload with h | h | h
  · simp only [if_neg (Nat.lt_asymm h), if_pos h, if_pos (Nat.ne_of_lt h), List.take_length,
      List.append_nil]
  · simp [h]
  · simp [h, Nat.lt_asymm h]

/-- The reader's loop over an encoded chain: the accumulated payload grows by exactly the payload
    written, and the cursor ends past the chain. Induction on the packets left to write. -/
theorem nextLoop_encodeLoop (buf tail : Bytes) (start : Nat) :
    ∀ (g fuel pos : Nat) (rest acc : Bytes) (seq : UInt8) (first : Option UInt8),
      rest.length / kMaxPayload < g → rest.length / kMaxPayload < fuel →
      buf.drop pos = encodeLoop g rest seq ++ tail →
      ∃ m, MessageReader.nextLoop buf start fuel pos acc first =
          some (m, pos + (encodeLoop g rest seq).length) ∧
        m.payload = acc ++ rest ∧ m.first_seq = first.getD seq ∧
        m.last_seq = seq + UInt8.ofNat (rest.length / kMaxPayload) ∧
        m.wire_size = pos + (encodeLoop g rest seq).length - start
  | 0, _, _, _, _, _, _, hg, _, _ => absurd hg (Nat.not_lt_zero _)
  | _ + 1, 0, _, _, _, _, _, _, hf, _ => absurd hf (Nat.not_lt_zero _)
  | g + 1, fuel + 1, pos, rest, acc, seq, first, hg, hf, h => by
    rw [encodeLoop_succ] at h ⊢
    by_cases hshort : rest.length < kMaxPayload
    · rw [if_pos hshort] at h ⊢
      have hlen : (leBytes 3 rest.length ++ seq :: rest).length = kHeaderLen + rest.length := by
        simp [kHeaderLen]; omega
      rw [nextLoop_packet (packetAt_of_drop (Nat.le_of_lt hshort) h), if_neg (Nat.ne_of_lt hshort),
        hlen]
      refine ⟨_, rfl, rfl, rfl, ?_, rfl⟩
      rw [Nat.div_eq_of_lt hshort]; simp
    · rw [if_neg hshort] at h ⊢
      have hge : kMaxPayload ≤ rest.length := Nat.le_of_not_lt hshort
      have hfull : (rest.take kMaxPayload).length = kMaxPayload := by simp; omega
      have hdiv : rest.length / kMaxPayload =
          (rest.drop kMaxPayload).length / kMaxPayload + 1 := by
        rw [List.length_drop]; exact Nat.div_eq_sub_div (by decide) hge
      have hpk : PacketAt buf pos seq (rest.take kMaxPayload)
          (encodeLoop g (rest.drop kMaxPayload) (seq + 1) ++ tail) := by
        refine packetAt_of_drop (by simp) ?_
        rw [hfull, h]; simp
      obtain ⟨m, hm, hp, hfs, hls, hw⟩ := nextLoop_encodeLoop buf tail start g fuel
        (pos + (kHeaderLen + kMaxPayload)) (rest.drop kMaxPayload) (acc ++ rest.take kMaxPayload)
        (seq + 1) (some (first.getD seq)) (by omega) (by omega) (by have := hpk.tail; rwa [hfull] at this)
      have hlen : (leBytes 3 kMaxPayload ++ seq :: rest.take kMaxPayload ++
            encodeLoop g (rest.drop kMaxPayload) (seq + 1)).length =
          kHeaderLen + kMaxPayload + (encodeLoop g (rest.drop kMaxPayload) (seq + 1)).length := by
        simp only [List.length_append, List.length_cons, length_leBytes, hfull, kHeaderLen]; omega
      rw [nextLoop_packet hpk, if_pos hfull, hfull, hm, hlen]
      refine ⟨m, by rw [Nat.add_assoc], ?_, by rw [hfs]; rfl, ?_, by rw [hw]; omega⟩
      · rw [hp, List.append_assoc, List.take_append_drop]
      · rw [hls, hdiv, Nat.add_comm _ 1, UInt8.ofNat_add, UInt8.add_assoc]; rfl

/-- Every payload byte is on the wire. -/
theorem length_le_encodeLoop : ∀ (g : Nat) (rest : Bytes) (seq : UInt8),
    rest.length / kMaxPayload < g → rest.length ≤ (encodeLoop g rest seq).length
  | 0, _, _, hg => absurd hg (Nat.not_lt_zero _)
  | g + 1, rest, seq, hg => by
    rw [encodeLoop_succ]
    by_cases hshort : rest.length < kMaxPayload
    · rw [if_pos hshort]; simp; omega
    · have hge : kMaxPayload ≤ rest.length := Nat.le_of_not_lt hshort
      have hdiv := Nat.div_eq_sub_div (b := kMaxPayload) (by decide) hge
      have ih := length_le_encodeLoop g (rest.drop kMaxPayload) (seq + 1)
        (by rw [List.length_drop]; omega)
      rw [if_neg hshort]
      simp only [List.length_append, List.length_cons, List.length_take, List.length_drop] at ih ⊢
      omega

/-- Reading one framed message: whatever follows it stays in the buffer, untouched. -/
theorem next_of_encodeMessage {r : MessageReader} {payload tail : Bytes} {seq : UInt8}
    (h : r.buf.drop r.consumed = encodeMessage payload seq ++ tail) :
    ∃ m r', r.next = some (m, r') ∧ r'.buf.drop r'.consumed = tail ∧
      m.payload = payload ∧ m.first_seq = seq ∧
      m.last_seq = seq + UInt8.ofNat (payload.length / kMaxPayload) ∧
      m.wire_size = (encodeMessage payload seq).length := by
  have hlen := length_le_encodeLoop (payload.length / kMaxPayload + 1) payload seq
    (Nat.lt_succ_self _)
  have hle : payload.length / kMaxPayload < r.buf.length + 1 := by
    have hl := congrArg List.length h
    have hd := Nat.div_le_self payload.length kMaxPayload
    simp only [encodeMessage, List.length_drop, List.length_append] at hl
    omega
  obtain ⟨m, hm, hp, hf, hl, hw⟩ := nextLoop_encodeLoop r.buf tail r.consumed
    (payload.length / kMaxPayload + 1) (r.buf.length + 1) r.consumed payload [] seq none
    (Nat.lt_succ_self _) hle h
  refine ⟨m, { r with consumed := r.consumed + (encodeMessage payload seq).length },
    by rw [MessageReader.next, hm]; rfl, drop_of_drop_append h, hp, hf, hl, ?_⟩
  rw [hw]; simp only [encodeMessage]; omega

end Barnacle.Mysql
