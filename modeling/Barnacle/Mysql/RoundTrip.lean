import Barnacle.Mysql.ResultSet

/-! The encoder and the parser of a result set are inverse: `parseResultSet_encodeResultSet`.

    Bottom up along the wire format. Integers and strings first, each in the cursor shape of
    `Lib.Bytes`; then one column and one row as whole payloads; then the loops over messages, where
    the reader's remaining bytes are always the framing of the payloads still to come. A row is
    never taken for the terminator because its first byte is 0xFE only in front of a length of at
    least 2^24. -/

namespace Barnacle.Mysql
open Barnacle.Lib

/-! ### Integers and strings -/

theorem putLenEnc_ne_nil (x : Nat) : putLenEnc x ≠ [] := by
  unfold putLenEnc; split_ifs <;> simp

theorem uint8_ofNat_lt {x : Nat} (h : x < 0xFB) : (UInt8.ofNat x) < 0xFB := by
  rw [UInt8.lt_iff_toNat_lt, UInt8.toNat_ofNat']
  simp only [UInt8.reduceToNat]; omega

/-- The lead bytes of the wider forms, each with the number of bytes that follow it. -/
def LeadByte (lead : UInt8) (w : Nat) : Prop :=
  (lead = 0xFC ∧ w = 2) ∨ (lead = 0xFD ∧ w = 3) ∨ (lead = 0xFE ∧ w = 8)

/-- What is written: one byte, or a lead byte and the number. -/
theorem putLenEnc_cases {x : Nat} (hx : x < 2 ^ 64) :
    (x < 0xFB ∧ putLenEnc x = [UInt8.ofNat x]) ∨
      ∃ lead w, LeadByte lead w ∧ x < 256 ^ w ∧ putLenEnc x = lead :: leBytes w x := by
  unfold putLenEnc
  split_ifs with h1 h2 h3
  · exact Or.inl ⟨h1, rfl⟩
  · exact Or.inr ⟨0xFC, 2, by simp [LeadByte], by omega, rfl⟩
  · exact Or.inr ⟨0xFD, 3, by simp [LeadByte], by omega, rfl⟩
  · exact Or.inr ⟨0xFE, 8, by simp [LeadByte], by omega, rfl⟩

theorem readLenEnc_short {d : Bytes} {pos : Nat} {b : UInt8} (h : d[pos]? = some b) (hb : b < 0xFB) :
    readLenEnc d pos = some (b.toNat, pos + 1) := by
  rw [readLenEnc, h]
  simp only [hb, if_true]

/-- Behind a lead byte the number is read, if all of it is there. -/
theorem readLenEnc_lead {d : Bytes} {pos w : Nat} {lead : UInt8} (h : d[pos]? = some lead) (hl : LeadByte lead w) :
    readLenEnc d pos =
      if pos + (1 + w) > d.length then none else some (leAt d (pos + 1) w, pos + (1 + w)) := by
  rw [readLenEnc, h]
  rcases hl with ⟨rfl, rfl⟩ | ⟨rfl, rfl⟩ | ⟨rfl, rfl⟩ <;> rfl

theorem readLenEnc_of_drop {d rest : Bytes} {pos x : Nat} (hx : x < 2 ^ 64)
    (h : d.drop pos = putLenEnc x ++ rest) :
    readLenEnc d pos = some (x, pos + (putLenEnc x).length) := by
  have hle := le_length_of_drop_append h (putLenEnc_ne_nil x)
  rcases putLenEnc_cases hx with ⟨hlt, e⟩ | ⟨lead, w, hl, hlt, e⟩
  · have hx8 : (UInt8.ofNat x).toNat = x := by
      rw [UInt8.toNat_ofNat']
      omega
    rw [e] at h ⊢
    rw [readLenEnc_short (getElem?_of_drop h) (uint8_ofNat_lt hlt), hx8]
    rfl
  · rw [e] at h hle ⊢
    have hv : d.drop (pos + 1) = leBytes w x ++ rest := by
      have h' : d.drop pos = [lead] ++ (leBytes w x ++ rest) := h
      exact drop_of_drop_append h'
    simp only [List.length_cons, length_leBytes] at hle ⊢
    rw [readLenEnc_lead (getElem?_of_drop h) hl, if_neg (by omega), leAt_of_drop hv hlt, Nat.add_comm 1 w]

theorem readLenEncString_of_drop {d rest s : Bytes} {pos : Nat} (hs : s.length < 2 ^ 64)
    (h : d.drop pos = putLenEncStr s ++ rest) :
    readLenEncString d pos = some (s, pos + (putLenEncStr s).length) := by
  have h' : d.drop pos = putLenEnc s.length ++ (s ++ rest) := by simpa [putLenEncStr] using h
  have hd := drop_of_drop_append h'
  have hle := le_length_of_drop_append h (by simp [putLenEncStr, putLenEnc_ne_nil])
  rw [putLenEncStr, List.length_append] at hle
  rw [readLenEncString, readLenEnc_of_drop hs h']
  simp only
  rw [if_neg (by omega), take_of_drop_append hd, putLenEncStr, List.length_append, Nat.add_assoc]

/-! ### The shortest encoding -/

/-- The other bytes are reserved: no number starts with them. -/
theorem readLenEnc_reserved {d : Bytes} {pos : Nat} {b : UInt8} (h : d[pos]? = some b) (hshort : ¬ b < 0xFB)
    (hlead : ∀ w, ¬ LeadByte b w) : readLenEnc d pos = none := by
  have h2 : b ≠ 0xFC := fun e => hlead 2 (Or.inl ⟨e, rfl⟩)
  have h3 : b ≠ 0xFD := fun e => hlead 3 (Or.inr (Or.inl ⟨e, rfl⟩))
  have h8 : b ≠ 0xFE := fun e => hlead 8 (Or.inr (Or.inr ⟨e, rfl⟩))
  rw [readLenEnc, h]
  simp only [if_neg hshort, if_neg h2, if_neg h3, if_neg h8]

/-- What is read: a byte that is the number, or a lead byte with the number behind it. -/
theorem readLenEnc_cases {d : Bytes} {pos x p : Nat} (h : readLenEnc d pos = some (x, p)) :
    ∃ first, d[pos]? = some first ∧ ((first < 0xFB ∧ x = first.toNat ∧ p = pos + 1) ∨
      ∃ w, LeadByte first w ∧ pos + (1 + w) ≤ d.length ∧ x = leAt d (pos + 1) w ∧ p = pos + (1 + w)) := by
  rcases hd : d[pos]? with _ | first
  · rw [readLenEnc, hd] at h
    cases h
  refine ⟨first, rfl, ?_⟩
  by_cases hshort : first < 0xFB
  · rw [readLenEnc_short hd hshort] at h
    cases h
    exact Or.inl ⟨hshort, rfl, rfl⟩
  by_cases hlead : ∃ w, LeadByte first w
  · obtain ⟨w, hl⟩ := hlead
    rw [readLenEnc_lead hd hl] at h
    split_ifs at h with hroom
    cases h
    exact Or.inr ⟨w, hl, by omega, rfl, rfl⟩
  · rw [readLenEnc_reserved hd hshort fun w hl => hlead ⟨w, hl⟩] at h
    cases h

/-- A wider form is written only for a number that needs it. -/
theorem putLenEnc_of_fits {lead : UInt8} {w x : Nat} (hl : LeadByte lead w) (hx : x < 256 ^ w) :
    (putLenEnc x).length ≤ 1 + w ∧ ((putLenEnc x).length = 1 + w → putLenEnc x = lead :: leBytes w x) := by
  unfold putLenEnc
  rcases hl with ⟨rfl, rfl⟩ | ⟨rfl, rfl⟩ | ⟨rfl, rfl⟩
  all_goals
    split_ifs with h1 h2 h3
    all_goals simp
    all_goals omega

/-- No byte string that reads as `x` is shorter than the encoding, and no other is as short. -/
theorem putLenEnc_shortest {b : Bytes} {x p : Nat} (h : readLenEnc b 0 = some (x, p)) :
    (putLenEnc x).length ≤ b.length ∧ (b.length = (putLenEnc x).length → b = putLenEnc x) := by
  obtain ⟨first, hb, ⟨hlt, rfl, -⟩ | ⟨w, hl, hroom, rfl, -⟩⟩ := readLenEnc_cases h
  all_goals
    obtain ⟨rest, rfl⟩ : ∃ rest, b = first :: rest := by
      cases b with
      | nil => cases hb
      | cons a rest =>
        cases hb
        exact ⟨rest, rfl⟩
  · have hx : first.toNat < 0xFB := hlt
    have e : putLenEnc first.toNat = [first] := by rw [putLenEnc, if_pos hx, UInt8.ofNat_toNat]
    rw [e]
    refine ⟨by simp, fun hlen => ?_⟩
    simp only [List.length_cons, List.length_nil, Nat.add_eq_right, List.length_eq_zero_iff] at hlen
    rw [hlen]
  · simp only [List.length_cons, Nat.zero_add] at hroom ⊢
    obtain ⟨hle, heq⟩ := putLenEnc_of_fits hl (leAt_lt (first :: rest) 1 w)
    refine ⟨by omega, fun hlen => ?_⟩
    -- as long as the encoding, so the number takes all of the bytes behind the lead byte
    have hw : rest.length = w := by omega
    rw [heq (by omega), leAt, List.drop_one, List.tail_cons, List.take_of_length_le hw.le, ← hw, leBytes_leVal]

theorem length_lt_of_cut {e b : Bytes} (he : e <+: b) (hne : e ≠ b) : e.length < b.length :=
  lt_of_le_of_ne he.length_le fun h => hne (he.eq_of_length h)

/-- An encoding that is cut short is not a number. -/
theorem readLenEnc_of_cut {pre e : Bytes} {x : Nat} (hx : x < 2 ^ 64) (he : e <+: putLenEnc x)
    (hne : e ≠ putLenEnc x) : readLenEnc (pre ++ e) pre.length = none := by
  have hlen := length_lt_of_cut he hne
  cases e with
  | nil => simp [readLenEnc]
  | cons first e =>
    have hfirst : (pre ++ first :: e)[pre.length]? = some first := by simp
    rcases putLenEnc_cases hx with ⟨-, h⟩ | ⟨lead, w, hl, -, h⟩
    · rw [h] at hlen
      simp only [List.length_cons, List.length_nil] at hlen
      omega
    · rw [h] at he hlen
      obtain ⟨rfl, -⟩ := List.cons_prefix_cons.mp he
      rw [readLenEnc_lead hfirst hl, if_pos]
      simp only [List.length_cons, length_leBytes, List.length_append] at hlen ⊢
      omega

/-- Nor is a string whose encoding is cut short, in its length or in its bytes. -/
theorem readLenEncString_of_cut {pre e v : Bytes} (hv : v.length < 2 ^ 64) (he : e <+: putLenEncStr v)
    (hne : e ≠ putLenEncStr v) : readLenEncString (pre ++ e) pre.length = none := by
  rw [readLenEncString]
  by_cases hcut : e <+: putLenEnc v.length ∧ e ≠ putLenEnc v.length
  · rw [readLenEnc_of_cut hv hcut.1 hcut.2]
  -- the length is there, and behind it fewer bytes than it says
  obtain ⟨t, rfl⟩ : putLenEnc v.length <+: e := by
    rcases List.prefix_or_prefix_of_prefix he (List.prefix_append _ v) with h | h
    · have heq : e = putLenEnc v.length := by
        by_contra hne'
        exact hcut ⟨h, hne'⟩
      exact ⟨[], by rw [List.append_nil, heq]⟩
    · exact h
  have hlen := length_lt_of_cut he hne
  have hdrop : (pre ++ (putLenEnc v.length ++ t)).drop pre.length = putLenEnc v.length ++ t := List.drop_left
  rw [readLenEnc_of_drop hv hdrop]
  simp only [putLenEncStr, List.length_append] at hlen ⊢
  rw [if_pos (by omega)]

/-! ### What a result set must satisfy -/

/-- Every string of the column is shorter than 2^64, as a `std::string` is. -/
structure Column.Fits (c : Column) : Prop where
  catalog : c.catalog.length < 2 ^ 64
  schema : c.schema.length < 2 ^ 64
  table : c.table.length < 2 ^ 64
  org_table : c.org_table.length < 2 ^ 64
  name : c.name.length < 2 ^ 64
  org_name : c.org_name.length < 2 ^ 64

def Value.Fits : Value → Prop
  | none => True
  | some v => v.length < 2 ^ 64

/-- At least one column, every row as long as the column list, every length a `size_t`. -/
structure ResultSet.WellFormed (rs : ResultSet) : Prop where
  nonempty : rs.cols ≠ []
  width : rs.cols.length < 2 ^ 64
  colsFit : ∀ c ∈ rs.cols, c.Fits
  rowLen : ∀ r ∈ rs.rows, r.length = rs.cols.length
  rowsFit : ∀ r ∈ rs.rows, ∀ v ∈ r, Value.Fits v

/-! ### One column, one row -/

theorem leAt_putU16 {d rest : Bytes} {pos : Nat} {x : UInt16} (h : d.drop pos = putU16 x ++ rest) :
    UInt16.ofNat (leAt d pos 2) = x := by
  rw [leAt_of_drop h x.toNat_lt, UInt16.ofNat_toNat]

theorem leAt_putU32 {d rest : Bytes} {pos : Nat} {x : UInt32} (h : d.drop pos = putU32 x ++ rest) :
    UInt32.ofNat (leAt d pos 4) = x := by
  rw [leAt_of_drop h x.toNat_lt, UInt32.ofNat_toNat]

/-- The fixed-width tail of a column definition, read at its offset. -/
theorem columnTail_of_drop {d : Bytes} {pos : Nat} {c : Column}
    (h : d.drop pos = putU16 c.charset ++ (putU32 c.length ++ ([c.type] ++ (putU16 c.flags ++
      ([c.decimals] ++ putU16 0))))) :
    pos + 10 ≤ d.length ∧ UInt16.ofNat (leAt d pos 2) = c.charset ∧
      UInt32.ofNat (leAt d (pos + 2) 4) = c.length ∧ d.getD (pos + 6) 0 = c.type ∧
      UInt16.ofNat (leAt d (pos + 7) 2) = c.flags ∧ d.getD (pos + 9) 0 = c.decimals := by
  have h2 := drop_of_drop_append h
  have h6 := drop_of_drop_append h2
  have h7 := drop_of_drop_append h6
  have h9 := drop_of_drop_append h7
  have hlen := congrArg List.length h
  simp only [putU16, putU32, length_leBytes, Nat.add_assoc, Nat.reduceAdd, List.length_drop, List.length_append, List.length_cons] at h2 h6 h7 h9 hlen
  exact ⟨by omega, leAt_putU16 h, leAt_putU32 h2, getD_of_drop h6, leAt_putU16 h7, getD_of_drop h9⟩

theorem parseColumn_columnPayload {m : Message} {c : Column} (hc : c.Fits)
    (hm : m.payload = columnPayload c) : parseColumn m = some c := by
  have h0 : m.payload.drop 0 = columnPayload c := by rw [hm]; rfl
  simp only [columnPayload, List.append_assoc] at h0
  have h1 := drop_of_drop_append h0
  have h2 := drop_of_drop_append h1
  have h3 := drop_of_drop_append h2
  have h4 := drop_of_drop_append h3
  have h5 := drop_of_drop_append h4
  have h6 := drop_of_drop_append h5
  have h7 := drop_of_drop_append h6
  obtain ⟨hroom, hcs, hl, ht, hf, hd⟩ := columnTail_of_drop h7
  simp only [parseColumn, readLenEncString_of_drop hc.catalog h0,
    readLenEncString_of_drop hc.schema h1, readLenEncString_of_drop hc.table h2,
    readLenEncString_of_drop hc.org_table h3, readLenEncString_of_drop hc.name h4,
    readLenEncString_of_drop hc.org_name h5, readLenEnc_of_drop (by decide) h6,
    Option.bind_eq_bind, Option.bind_some]
  rw [if_neg (by omega), hcs, hl, ht, hf, hd]

/-- A length prefix never starts with the NULL marker or the error marker, and starts with 0xFE only
    in front of a length of at least 2^24. -/
theorem putLenEnc_head (x : Nat) : ∃ b t, putLenEnc x = b :: t ∧ b ≠ 0xFB ∧ b ≠ 0xFF ∧
    (b = 0xFE → 2 ^ 24 ≤ x) ∧ (b = 0x00 → x = 0) := by
  unfold putLenEnc
  split_ifs with h1 h2 h3
  · have hb := uint8_ofNat_lt h1
    refine ⟨_, _, rfl, ?_, ?_, ?_, ?_⟩
    · rintro h; rw [h] at hb; exact absurd hb (by decide)
    · rintro h; rw [h] at hb; exact absurd hb (by decide)
    · rintro h; rw [h] at hb; exact absurd hb (by decide)
    · rintro h
      have h0 := congrArg UInt8.toNat h
      rw [UInt8.toNat_ofNat'] at h0
      simp only [UInt8.reduceToNat] at h0; omega
  · exact ⟨_, _, rfl, by decide, by decide, by simp, by simp⟩
  · exact ⟨_, _, rfl, by decide, by decide, by simp, by simp⟩
  · exact ⟨_, _, rfl, by decide, by decide, fun _ => by omega, by simp⟩

/-- The codec's laws. What is written is read back between any other bytes, with the cursor exactly
    past it; of the byte strings that read as the number it is the only shortest one, and it starts
    with neither of the reserved bytes; and cut short anywhere it is refused. -/
theorem lenEnc_codec (pre post : Bytes) (x : UInt64) :
    readLenEnc (pre ++ putLenEnc x.toNat ++ post) pre.length =
        some (x.toNat, pre.length + (putLenEnc x.toNat).length) ∧
      (∀ b p, readLenEnc b 0 = some (x.toNat, p) → (putLenEnc x.toNat).length ≤ b.length ∧
        (b.length = (putLenEnc x.toNat).length → b = putLenEnc x.toNat)) ∧
      (putLenEnc x.toNat).head? ≠ some 0xFB ∧ (putLenEnc x.toNat).head? ≠ some 0xFF ∧
      (∀ e, e <+: putLenEnc x.toNat → e ≠ putLenEnc x.toNat → readLenEnc (pre ++ e) pre.length = none) ∧
      ∀ v : Bytes, v.length < 2 ^ 64 →
        readLenEncString (pre ++ putLenEncStr v ++ post) pre.length =
            some (v, pre.length + (putLenEncStr v).length) ∧
          ∀ e, e <+: putLenEncStr v → e ≠ putLenEncStr v → readLenEncString (pre ++ e) pre.length = none := by
  have hdrop : ∀ enc : Bytes, (pre ++ enc ++ post).drop pre.length = enc ++ post := by
    intro enc
    rw [List.append_assoc, List.drop_left]
  obtain ⟨first, t, hfirst, hfb, hff, -⟩ := putLenEnc_head x.toNat
  refine ⟨readLenEnc_of_drop x.toNat_lt (hdrop _), fun b p h => putLenEnc_shortest h, ?_, ?_, ?_, ?_⟩
  · simpa [hfirst] using hfb
  · simpa [hfirst] using hff
  · intro e he hne
    exact readLenEnc_of_cut x.toNat_lt he hne
  · intro v hv
    exact ⟨readLenEncString_of_drop hv (hdrop _), fun e he hne => readLenEncString_of_cut hv he hne⟩

/-- At 0xFB, the first number that one byte does not hold: three bytes, and the first two of them
    read as nothing. -/
theorem lenEnc_codec_0xFB :
    readLenEnc ([7] ++ [0xFC, 0xFB, 0x00] ++ [9]) 1 = some (0xFB, 4) ∧ readLenEnc ([7] ++ [0xFC, 0xFB]) 1 = none ∧
      readLenEncString ([7] ++ [0x02, 0x61, 0x62] ++ [9]) 1 = some ([0x61, 0x62], 4) ∧
      readLenEncString ([7] ++ [0x02, 0x61]) 1 = none := by
  obtain ⟨hread, -, -, -, hcut, hstr⟩ := lenEnc_codec [7] [9] 0xFB
  obtain ⟨hs, hscut⟩ := hstr [0x61, 0x62] (by decide)
  exact ⟨hread, hcut [0xFC, 0xFB] (by decide) (by decide), hs, hscut [0x02, 0x61] (by decide) (by decide)⟩

/-- One field at the cursor, then the rest of the row. -/
theorem parseFields_value {d rest : Bytes} {pos : Nat} {v : Value} (hv : Value.Fits v)
    (h : d.drop pos = valuePayload v ++ rest) (n : Nat) (r : Row) :
    parseFields d (n + 1) pos r =
      parseFields d n (pos + (valuePayload v).length) (r ++ [v]) := by
  cases v with
  | none => rw [parseFields, getElem?_of_drop (by simpa [valuePayload] using h)]; rfl
  | some s =>
    obtain ⟨b, t, hb, hfb, -⟩ := putLenEnc_head s.length
    have h' : d.drop pos = b :: (t ++ (s ++ rest)) := by
      rw [h, valuePayload, putLenEncStr, hb]; simp
    rw [parseFields, getElem?_of_drop h']
    simp only [if_neg hfb, readLenEncString_of_drop hv h]; rfl

theorem parseFields_row {d : Bytes} (r : Row) : ∀ (pos : Nat) (acc : Row), (∀ v ∈ r, Value.Fits v) →
    d.drop pos = rowPayload r → parseFields d r.length pos acc = some (acc ++ r) := by
  induction r with
  | nil =>
    intro pos acc _ _
    simp [parseFields]
  | cons v r ih =>
    intro pos acc hf h
    have h' : d.drop pos = valuePayload v ++ rowPayload r := by simpa [rowPayload] using h
    rw [List.length_cons, parseFields_value (hf v (by simp)) h',
      ih _ _ (fun w hw => hf w (by simp [hw])) (drop_of_drop_append h')]
    simp

theorem parseRow_rowPayload {m : Message} {r : Row} (hf : ∀ v ∈ r, Value.Fits v)
    (hm : m.payload = rowPayload r) : parseRow m r.length = some r :=
  parseFields_row r 0 [] hf (by simpa using hm)

/-- A row's packet is not a terminator: its first byte is 0xFE only when the packet is long. -/
theorem rowPayload_head {r : Row} (hr : r ≠ []) : ∃ b t, rowPayload r = b :: t ∧ b ≠ 0xFF ∧
    ¬ (b = 0xFE ∧ (rowPayload r).length < 9) := by
  obtain ⟨v, vs, rfl⟩ := List.exists_cons_of_ne_nil hr
  cases v with
  | none => exact ⟨0xFB, rowPayload vs, by simp [rowPayload, valuePayload], by decide, by simp⟩
  | some s =>
    obtain ⟨b, t, hb, -, hff, hfe, -⟩ := putLenEnc_head s.length
    have hlen : s.length ≤ (rowPayload (some s :: vs)).length := by
      simp [rowPayload, valuePayload, putLenEncStr]; omega
    refine ⟨b, t ++ s ++ rowPayload vs, by simp [rowPayload, valuePayload, putLenEncStr, hb], hff, ?_⟩
    rintro ⟨hfe', hshort⟩
    have := hfe hfe'
    omega

/-! ### Messages on the wire -/

/-- The payloads framed one after another, the first carrying sequence id `s`. -/
def framed : UInt8 → List Bytes → Bytes
  | _, [] => []
  | s, p :: ps => encodeMessage p s ++ framed (s + 1) ps

theorem foldl_emit (ps : List Bytes) : ∀ (out : Bytes) (s : UInt8),
    (ps.foldl emit (out, s)).1 = out ++ framed s ps := by
  induction ps with
  | nil =>
    intro out s
    simp [framed]
  | cons p ps ih =>
    intro out s
    rw [List.foldl_cons, emit, ih, framed, List.append_assoc]

theorem encodeResultSet_eq (rs : ResultSet) (caps : UInt32) (s : UInt8) :
    encodeResultSet rs caps s = framed s (responsePayloads rs caps) := by
  rw [encodeResultSet, foldl_emit]; rfl

/-- What the reader has left is exactly the framing of these payloads. -/
def Holds (r : MessageReader) (s : UInt8) (ps : List Bytes) : Prop :=
  r.buf.drop r.consumed = framed s ps

theorem holds_append {data : Bytes} {s : UInt8} {ps : List Bytes} (h : data = framed s ps) :
    Holds (({} : MessageReader).append data) s ps := by
  rw [Holds, MessageReader.append, ← h]
  split_ifs with h0
  · simp [List.eq_nil_of_length_eq_zero h0]
  · simp [MessageReader.compact]

theorem Holds.next {r : MessageReader} {s : UInt8} {p : Bytes} {ps : List Bytes}
    (h : Holds r s (p :: ps)) :
    ∃ m r', r.next = some (m, r') ∧ m.payload = p ∧ Holds r' (s + 1) ps := by
  obtain ⟨m, r', hn, hd, hp, -⟩ := next_of_encodeMessage h
  exact ⟨m, r', hn, hp, hd⟩

theorem encodeMessage_length_pos (p : Bytes) (s : UInt8) : 0 < (encodeMessage p s).length := by
  rw [encodeMessage, encodeLoop_succ]; split_ifs <;> simp

theorem length_le_framed (ps : List Bytes) : ∀ s : UInt8, ps.length ≤ (framed s ps).length := by
  induction ps with
  | nil =>
    intro s
    simp
  | cons p ps ih =>
    intro s
    have := ih (s + 1)
    have := encodeMessage_length_pos p s
    rw [framed, List.length_append, List.length_cons]; omega

theorem Holds.length_le {r : MessageReader} {s : UInt8} {ps : List Bytes} (h : Holds r s ps) :
    ps.length ≤ r.buffered := by
  have := length_le_framed ps s
  rw [← h, List.length_drop] at this
  exact this

/-! ### The loops over messages -/

theorem parseColumns_framed (cols : List Column) : ∀ (r : MessageReader) (s : UInt8)
    (ps : List Bytes) (acc : List Column), (∀ c ∈ cols, c.Fits) →
    Holds r s (cols.map columnPayload ++ ps) →
    ∃ r' s', parseColumns cols.length r acc = some (acc ++ cols, r') ∧ Holds r' s' ps := by
  induction cols with
  | nil =>
    intro r s ps acc _ h
    exact ⟨r, s, by simp [parseColumns], h⟩
  | cons c cols ih =>
    intro r s ps acc hf h
    obtain ⟨m, r1, hn, hp, h1⟩ := Holds.next h
    obtain ⟨r', s', hr, h'⟩ := ih r1 (s + 1) ps (acc ++ [c]) (fun d hd => hf d (by simp [hd])) h1
    refine ⟨r', s', ?_, h'⟩
    rw [List.length_cons, parseColumns, hn]
    simp only [parseColumn_columnPayload (hf c (by simp)) hp]
    rw [hr]; simp

/-- The terminator is recognised as one and carries the result set's own words. -/
theorem terminator_spec (rs : ResultSet) (caps : UInt32) :
    ∃ t, terminator rs caps = 0xFE :: t ∧ (terminator rs caps).length < 9 ∧
      terminatorStatus (terminator rs caps) caps = (rs.status, rs.warnings) := by
  by_cases hc : hasCap caps CLIENT_DEPRECATE_EOF = true
  · have ht : terminator rs caps = 0xFE :: (putLenEnc 0 ++ putLenEnc 0 ++ putU16 rs.status ++
        putU16 rs.warnings) := by rw [terminator, if_pos hc]
    generalize hd : terminator rs caps = d at ht ⊢
    have h1 : d.drop 1 = putLenEnc 0 ++ (putLenEnc 0 ++ (putU16 rs.status ++
        (putU16 rs.warnings ++ []))) := by rw [ht]; simp
    have h2 := drop_of_drop_append h1
    have h3 := drop_of_drop_append h2
    have h5 := drop_of_drop_append h3
    have hlen : d.length = 7 := by rw [ht]; simp [putLenEnc, putU16]
    rw [terminatorStatus, if_pos hc, readLenEnc_of_drop (by decide) h1]
    simp only [Option.map_some, Option.getD_some]
    rw [readLenEnc_of_drop (by decide) h2]
    refine ⟨_, ht, by omega, ?_⟩
    simp only [Option.map_some, Option.getD_some]
    rw [if_pos (by rw [hlen]; decide), leAt_putU16 h3]
    exact congrArg _ (leAt_putU16 h5)
  · have ht : terminator rs caps = 0xFE :: (putU16 rs.warnings ++ putU16 rs.status) := by
      rw [terminator, if_neg hc]
    generalize hd : terminator rs caps = d at ht ⊢
    have h1 : d.drop 1 = putU16 rs.warnings ++ (putU16 rs.status ++ []) := by rw [ht]; simp
    have h3 := drop_of_drop_append h1
    have hlen : d.length = 5 := by rw [ht]; simp [putU16]
    refine ⟨_, ht, by omega, ?_⟩
    rw [terminatorStatus, if_neg hc, if_pos (by omega), leAt_putU16 h1]
    exact congrArg (·, rs.warnings) (leAt_putU16 h3)

theorem parseRows_framed {rs : ResultSet} (caps : UInt32) (hc : rs.cols ≠ []) :
    ∀ (rows : List Row) (fuel : Nat) (r : MessageReader) (s : UInt8) (acc : List Row),
    rows.length < fuel → (∀ w ∈ rows, w.length = rs.cols.length ∧ ∀ v ∈ w, Value.Fits v) →
    Holds r s (rows.map rowPayload ++ [terminator rs caps]) →
    parseRows caps rs.cols.length fuel r acc = some (acc ++ rows, rs.status, rs.warnings)
  | _, 0, _, _, _, hf, _, _ => absurd hf (Nat.not_lt_zero _)
  | [], fuel + 1, r, s, acc, _, _, h => by
    obtain ⟨m, r1, hn, hp, -⟩ := Holds.next h
    obtain ⟨t, ht, hlen, hst⟩ := terminator_spec rs caps
    have h0 : m.payload[0]? = some 0xFE := by rw [hp, ht]; rfl
    rw [parseRows, hn]
    simp only [h0]
    rw [if_neg (by decide), if_pos ⟨trivial, by rw [hp]; exact hlen⟩, hp, hst, List.append_nil]
  | w :: rows, fuel + 1, r, s, acc, hf, hw, h => by
    obtain ⟨m, r1, hn, hp, h1⟩ := Holds.next h
    obtain ⟨hlen, hfit⟩ := hw w (by simp)
    have hne : w ≠ [] := by
      rintro rfl; exact hc (List.eq_nil_of_length_eq_zero hlen.symm)
    obtain ⟨b, t, hb, hff, hterm⟩ := rowPayload_head hne
    have h0 : m.payload[0]? = some b := by rw [hp, hb]; rfl
    rw [← hp] at hterm
    rw [parseRows, hn]
    simp only [h0, if_neg hff, if_neg hterm, ← hlen, parseRow_rowPayload hfit hp]
    rw [hlen, parseRows_framed caps hc rows fuel r1 (s + 1) (acc ++ [w]) (by simpa using hf)
      (fun x hx => hw x (by simp [hx])) h1]
    simp

/-- The column count packet is classified as the start of a result set. -/
theorem classify_count {x : Nat} (hx : x ≠ 0) (caps : UInt32) :
    classifyResponse (putLenEnc x) caps = .ResultSet := by
  obtain ⟨b, t, hb, hfb, hff, hfe, h00⟩ := putLenEnc_head x
  have h0 : (putLenEnc x)[0]? = some b := by rw [hb]; rfl
  rw [classifyResponse, h0]
  simp only [if_neg hff, if_neg hfb, if_neg (fun h => hx (h00 h))]
  by_cases hb' : b = 0xFE
  · have hbig := hfe hb'
    have hlen : (putLenEnc x).length = 9 := by
      rw [putLenEnc, if_neg (by omega), if_neg (by omega), if_neg (by omega)]; simp
    rw [if_pos hb', if_neg (by omega)]
  · rw [if_neg hb']

/-- The body of a response: columns, the separator if there is one, rows and the terminator. -/
theorem parseBody_framed {rs : ResultSet} {caps : UInt32} {r : MessageReader} {s : UInt8} {sep : Bytes}
    (hrs : rs.WellFormed) (h : Holds r s (rs.cols.map columnPayload ++
      ((if hasCap caps CLIENT_DEPRECATE_EOF then [] else [sep]) ++
        (rs.rows.map rowPayload ++ [terminator rs caps])))) :
    parseBody caps rs.cols.length r = some rs := by
  have hw : ∀ w ∈ rs.rows, w.length = rs.cols.length ∧ ∀ v ∈ w, Value.Fits v :=
    fun w hm => ⟨hrs.rowLen w hm, hrs.rowsFit w hm⟩
  obtain ⟨r2, s2, hcols, h2⟩ := parseColumns_framed rs.cols r _ _ [] hrs.colsFit h
  -- the separator, present exactly when DEPRECATE_EOF is not negotiated
  have hsep : ∃ r3 s3, (if hasCap caps CLIENT_DEPRECATE_EOF then some r2
      else r2.next.map Prod.snd) = some r3 ∧
      Holds r3 s3 (rs.rows.map rowPayload ++ [terminator rs caps]) := by
    by_cases hc : hasCap caps CLIENT_DEPRECATE_EOF = true
    · rw [if_pos hc] at h2 ⊢
      exact ⟨r2, s2, rfl, h2⟩
    · rw [if_neg hc] at h2 ⊢
      obtain ⟨m', r3, hn', -, h3⟩ := Holds.next h2
      exact ⟨r3, s2 + 1, by rw [hn']; rfl, h3⟩
  obtain ⟨r3, s3, hr3, h3⟩ := hsep
  have hfuel : rs.rows.length < r3.buffered + 1 := by
    have := h3.length_le
    simp at this; omega
  have hrows := parseRows_framed caps hrs.nonempty rs.rows _ r3 s3 [] hfuel hw h3
  rw [parseBody, hcols]
  simp only [hr3, List.nil_append] at hrows ⊢
  rw [hrows]

theorem parseResultSet_framed {rs : ResultSet} {caps : UInt32} {s : UInt8} {data : Bytes}
    (hrs : rs.WellFormed) (h : data = framed s (responsePayloads rs caps)) :
    parseResultSet data caps = some rs := by
  have hne : rs.cols.length ≠ 0 := fun h => hrs.nonempty (List.eq_nil_of_length_eq_zero h)
  have hstart := holds_append h
  simp only [responsePayloads, List.cons_append, List.append_assoc] at hstart
  obtain ⟨m, r1, hn, hp, h1⟩ := Holds.next hstart
  rw [parseResultSet, hn]
  simp only [hp, if_neg (putLenEnc_ne_nil _), classify_count hne,
    readLenEnc_of_drop hrs.width (show (putLenEnc rs.cols.length).drop 0 = _ ++ [] by simp)]
  rw [if_neg (by simp), if_neg hne, parseBody_framed hrs h1]

/-- Round trip: for every capability word and start sequence, parsing what the encoder wrote gives
    back the whole result set — columns, rows, NULLs, status and warnings. -/
theorem parseResultSet_encodeResultSet (rs : ResultSet) (caps : UInt32) (s : UInt8)
    (hrs : rs.WellFormed) : parseResultSet (encodeResultSet rs caps s) caps = some rs :=
  parseResultSet_framed hrs (encodeResultSet_eq rs caps s)

/-- The theorem at a one-column set with a NULL, an empty string and an in-transaction status. -/
theorem parseResultSet_encodeResultSet_sample :
    let col : Column := { catalog := [100, 101, 102], schema := [], table := [116], org_table := [116],
                          name := [110], org_name := [110], charset := 33, length := 255, type := 253,
                          flags := 1, decimals := 0 }
    let rs : ResultSet := { cols := [col], rows := [[none], [some []], [some [0xFE, 0xFF]]],
                            status := 3, warnings := 1 }
    rs.WellFormed ∧ parseResultSet (encodeResultSet rs 0x01002200 1) 0x01002200 = some rs := by
  intro col rs
  have hwf : rs.WellFormed := by
    refine ⟨by simp [rs], by simp [rs], ?_, by simp [rs], ?_⟩
    · simp only [rs, List.mem_singleton, forall_eq]
      exact ⟨by decide, by decide, by decide, by decide, by decide, by decide⟩
    · simp [rs, Value.Fits]
  exact ⟨hwf, parseResultSet_encodeResultSet rs _ _ hwf⟩

end Barnacle.Mysql
