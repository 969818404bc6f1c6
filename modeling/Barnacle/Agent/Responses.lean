import Barnacle.Agent.Reads

/-! What a server answers. A response is a list of parts, more than one after a statement with several
    results; each part is an OK packet, an error, or a result set in either framing, itself ended by a
    status or cut short by an error.

    `Legible` is that a tracker finds the end of a result set where the server put it, and `Reports`
    names the first parts out of which it can read a transaction: an OK packet, or a legible set. -/

namespace Barnacle.Agent
open Barnacle.Lib Barnacle.Mysql

/-! ### Packets that carry a status -/

/-- The fields of an OK packet. -/
structure OkBody where
  affected : Nat := 0
  insert_id : Nat := 0
  status : UInt16
  warnings : UInt16 := 0
  info : Bytes := []

def OkBody.payload (o : OkBody) (header : UInt8) : Bytes :=
  header :: (putLenEnc o.affected ++ (putLenEnc o.insert_id ++ (putU16 o.status ++
    (putU16 o.warnings ++ o.info))))

/-- The two counters are length-encoded, so they are 64 bits wide. -/
def OkBody.Fits (o : OkBody) : Prop := o.affected < 2 ^ 64 ∧ o.insert_id < 2 ^ 64

instance (o : OkBody) : Decidable o.Fits := inferInstanceAs (Decidable (_ ∧ _))

def eofPayload (status warnings : UInt16) : Bytes := 0xFE :: (putU16 warnings ++ putU16 status)

/-- Under PROTOCOL_41 an OK packet has a status word. -/
theorem hasCap_status {caps : UInt32} (h : hasCap caps CLIENT_PROTOCOL_41 = true) :
    hasCap caps (CLIENT_PROTOCOL_41 ||| CLIENT_TRANSACTIONS) = true := by
  rw [hasCap, bne_iff_ne, ne_eq] at h ⊢
  intro h0
  refine h ?_
  have hmask : (CLIENT_PROTOCOL_41 ||| CLIENT_TRANSACTIONS) &&& CLIENT_PROTOCOL_41 = CLIENT_PROTOCOL_41 := by
    decide
  rw [← hmask, ← UInt32.and_assoc, h0]
  decide

theorem parseOk_payload {o : OkBody} {header : UInt8} {caps : UInt32} (hf : o.Fits)
    (hh : header = 0x00 ∨ header = 0xFE) (hc : hasCap caps CLIENT_PROTOCOL_41 = true) :
    (parseOk (o.payload header) caps).map OkPacket.status_flags = some o.status := by
  have hct := hasCap_status hc
  generalize hd : o.payload header = d
  have h0 : d[0]? = some header := by rw [← hd]; rfl
  have h1 : d.drop 1 = putLenEnc o.affected ++ (putLenEnc o.insert_id ++ (putU16 o.status ++
      (putU16 o.warnings ++ o.info))) := by rw [← hd]; rfl
  have h2 := drop_of_drop_append h1
  have h3 := drop_of_drop_append h2
  have h4 := drop_of_drop_append h3
  have hne : ∀ x : UInt16, putU16 x ≠ [] := fun x => by simp [putU16, leBytes]
  have hle3 := le_length_of_drop_append h3 (hne _)
  have hle4 := le_length_of_drop_append h4 (hne _)
  have hlen : ∀ x : UInt16, (putU16 x).length = 2 := fun x => by simp [putU16]
  rw [hlen] at hle3 hle4
  rw [hlen] at hle4
  rw [parseOk, h0]
  simp only [readLenEnc_of_drop hf.1 h1, readLenEnc_of_drop hf.2 h2, hc, hct, if_true, true_and]
  rw [if_neg (by rcases hh with h | h <;> simp [h]), if_neg (by omega), if_neg (by omega)]
  simp [leAt_putU16 h3]

theorem parseEof_payload (status warnings : UInt16) :
    (parseEof (eofPayload status warnings)).map EofPacket.status_flags = some status := by
  generalize hd : eofPayload status warnings = d
  have h1 : d.drop 1 = putU16 warnings ++ (putU16 status ++ []) := by rw [← hd]; simp [eofPayload]
  have h3 := drop_of_drop_append h1
  have hlen : d.length = 5 := by rw [← hd]; simp [eofPayload, putU16]
  have h0 : d[0]? = some 0xFE := by rw [← hd]; rfl
  rw [parseEof, if_neg (not_or.mpr ⟨by omega, not_not_intro h0⟩)]
  exact congrArg some (leAt_putU16 h3)

/-- An OK packet under an 0xFE header, read as an EOF packet: with two one-byte counters the status
    stands where an EOF packet has it. -/
theorem parseEof_okPayload {o : OkBody} (ha : o.affected < 0xFB) (hi : o.insert_id < 0xFB) :
    (parseEof (o.payload 0xFE)).map EofPacket.status_flags = some o.status := by
  generalize hd : o.payload 0xFE = d
  have hone : ∀ {x : Nat}, x < 0xFB → putLenEnc x = [UInt8.ofNat x] := fun h => by
    rw [putLenEnc, if_pos h]
  have h3 : d.drop 3 = putU16 o.status ++ (putU16 o.warnings ++ o.info) := by
    rw [← hd, OkBody.payload, hone ha, hone hi]; rfl
  have hlen : 5 ≤ d.length := by
    rw [← hd, OkBody.payload, hone ha, hone hi]; simp [putU16]
  have h0 : d[0]? = some 0xFE := by rw [← hd]; rfl
  rw [parseEof, if_neg (not_or.mpr ⟨by omega, not_not_intro h0⟩)]
  exact congrArg some (leAt_putU16 h3)

/-! ### Responses -/

/-- How a result set ends: with a status, or with an error among its rows. -/
inductive Ending
  | done (o : OkBody)
  | err (body : Bytes)

/-- One part of a response. Column definitions and rows are payloads: text rows and binary rows look
    the same from here. `mid` is the status and the warnings of the packet between the two. -/
inductive Part
  | ok (o : OkBody)
  | err (body : Bytes)
  | set (cols : List Bytes) (mid : UInt16 × UInt16) (rows : List Bytes) (ending : Ending)

def Ending.payload (dep : Bool) : Ending → Bytes
  | .done o => if dep then o.payload 0xFE else eofPayload o.status o.warnings
  | .err body => 0xFF :: body

/-- The packets of a part; `dep` says whether the connection negotiated CLIENT_DEPRECATE_EOF. -/
def Part.payloads (dep : Bool) : Part → List Bytes
  | .ok o => [o.payload 0x00]
  | .err body => [0xFF :: body]
  | .set cols mid rows ending =>
    putLenEnc cols.length :: (cols ++ ((if dep then [] else [eofPayload mid.1 mid.2]) ++
      (rows ++ [ending.payload dep])))

/-- The status flags of the last OK or EOF packet of a part. -/
def Part.flags (dep : Bool) : Part → Option UInt16
  | .ok o => some o.status
  | .err _ => none
  | .set _ _ _ (.done o) => some o.status
  | .set _ mid _ (.err _) => if dep then none else some mid.1

/-- A packet that is a row: not empty, no error, and led by 0xFE only if it is long. -/
def IsRow (p : Bytes) : Prop :=
  p ≠ [] ∧ p.head? ≠ some 0xFF ∧ (p.head? = some 0xFE → 9 ≤ p.length)

instance (p : Bytes) : Decidable (IsRow p) := inferInstanceAs (Decidable (_ ∧ _))

def Ending.WellFormed : Ending → Prop
  | .done o => o.Fits
  | .err _ => True

instance : ∀ e : Ending, Decidable e.WellFormed
  | .done o => inferInstanceAs (Decidable o.Fits)
  | .err _ => inferInstanceAs (Decidable True)

def Part.WellFormed : Part → Prop
  | .ok o => o.Fits
  | .err _ => True
  | .set cols _ rows ending => cols ≠ [] ∧ cols.length < 2 ^ 64 ∧ (∀ c ∈ cols, c ≠ []) ∧
      (∀ r ∈ rows, IsRow r) ∧ ending.WellFormed

instance : ∀ p : Part, Decidable p.WellFormed
  | .ok o => inferInstanceAs (Decidable o.Fits)
  | .err _ => inferInstanceAs (Decidable True)
  | .set .. => inferInstanceAs (Decidable (_ ∧ _))

/-- The flags in force after a response, `old` being those before it. -/
def latestFlags (dep : Bool) (old : UInt16) (parts : List Part) : UInt16 :=
  parts.foldl (fun f p => (p.flags dep).getD f) old

/-- The response a result set is written as. -/
def Part.ofResultSet (rs : ResultSet) : Part :=
  .set (rs.cols.map columnPayload) (rs.status, rs.warnings) (rs.rows.map rowPayload)
    (.done { status := rs.status, warnings := rs.warnings })

/-- What the encoder writes is such a part, in the framing of the capabilities. -/
theorem payloads_ofResultSet (rs : ResultSet) (caps : UInt32) :
    (Part.ofResultSet rs).payloads (hasCap caps CLIENT_DEPRECATE_EOF) = responsePayloads rs caps := by
  simp only [Part.ofResultSet, Part.payloads, Ending.payload, responsePayloads, terminator,
    OkBody.payload, eofPayload, List.length_map]
  split_ifs <;> simp

theorem wellFormed_ofResultSet {rs : ResultSet} (h : rs.WellFormed) : (Part.ofResultSet rs).WellFormed := by
  refine ⟨by simpa using h.nonempty, by simpa using h.width, ?_, ?_, Nat.two_pow_pos 64, Nat.two_pow_pos 64⟩
  · simp [columnPayload, putLenEncStr, putLenEnc_ne_nil]
  · intro r hr
    obtain ⟨w, hw, rfl⟩ := List.mem_map.mp hr
    have hne : w ≠ [] := by
      rintro rfl
      exact h.nonempty (List.eq_nil_of_length_eq_zero (h.rowLen _ hw).symm)
    obtain ⟨b, t, hb, hff, hterm⟩ := rowPayload_head hne
    refine ⟨by simp [hb], by simpa [hb] using hff, fun hfe => ?_⟩
    rw [hb, List.head?_cons, Option.some.injEq] at hfe
    exact Nat.le_of_not_lt fun hlt => hterm ⟨hfe, hlt⟩

/-! ### Parts the tracker can read -/

/-- The end of a result set is where a tracker reading under `caps` looks for it: the framing is the
    one assumed, or the first row is taken for the separator of the other and the terminator can be
    read as an EOF packet. -/
def Legible (dep : Bool) (caps : UInt32) (rows : List Bytes) (o : OkBody) : Prop :=
  if dep then (o.payload 0xFE).length < 9 ∧ (hasCap caps CLIENT_DEPRECATE_EOF = true ∨
    rows ≠ [] ∧ o.affected < 0xFB ∧ o.insert_id < 0xFB)
  else hasCap caps CLIENT_DEPRECATE_EOF = false

instance (dep : Bool) (caps : UInt32) (rows : List Bytes) (o : OkBody) :
    Decidable (Legible dep caps rows o) := inferInstanceAs (Decidable (ite ..))

/-- The tracker, reading under `caps`, sees a transaction open in this part. -/
def Part.Reports (dep : Bool) (caps : UInt32) : Part → Prop
  | .ok o => hasStatus o.status SERVER_STATUS_IN_TRANS = true
  | .err _ => False
  | .set _ _ rows (.done o) => hasStatus o.status SERVER_STATUS_IN_TRANS = true ∧ Legible dep caps rows o
  | .set _ _ _ (.err _) => False

instance (dep : Bool) (caps : UInt32) : ∀ p : Part, Decidable (p.Reports dep caps)
  | .ok _ => inferInstanceAs (Decidable (_ = true))
  | .err _ => inferInstanceAs (Decidable False)
  | .set _ _ _ (.done _) => inferInstanceAs (Decidable (_ ∧ Legible ..))
  | .set _ _ _ (.err _) => inferInstanceAs (Decidable False)

theorem KnownCaps.has {caps : UInt32} (h : KnownCaps caps) : hasCap caps CLIENT_PROTOCOL_41 = true := by
  rcases h with rfl | rfl <;> decide

end Barnacle.Agent
