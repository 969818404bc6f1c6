import Barnacle.Lib.Checked
import Barnacle.Mysql.Handshake
import Barnacle.Mysql.Stream

/-! The parsers again, as the code does their reads (`src/common/mysql/protocol.cpp`,
    `src/common/mysql/resultset.cpp`): every index and every copied range is one the buffer has to have,
    cursors and lengths are 64-bit words that wrap, and a loop has as many rounds as the input has
    headers. Each is proved to give what its counterpart over byte lists gives, so it never traps. -/

namespace Barnacle.Mysql.Bounds
open Barnacle.Lib Barnacle.Lib.Checked

/-! ### Lengths and strings -/

def readLenEnc (d : Bytes) (pos : Nat) : Checked (Nat × Nat) :=
  if pos ≥ d.length then refuse
  else do
    let first ← byteAt d pos
    if first < 0xFB then give (some (first.toNat, add64 pos 1))
    else if first = 0xFC then
      if add64 pos 3 > d.length then refuse
      else do
        let n ← leRead d (pos + 1) 2
        give (some (n, add64 pos 3))
    else if first = 0xFD then
      if add64 pos 4 > d.length then refuse
      else do
        let n ← leRead d (pos + 1) 3
        give (some (n, add64 pos 4))
    else if first = 0xFE then
      if add64 pos 9 > d.length then refuse
      else do
        let n ← leRead d (pos + 1) 8
        give (some (n, add64 pos 9))
    else refuse

/-- The string is a view; nothing of it is read yet. -/
def readLenEncString (d : Bytes) (pos : Nat) : Checked (View × Nat) := do
  let (n, pos) ← readLenEnc d pos
  if n > sub64 d.length pos then refuse else give (some (⟨pos, n⟩, add64 pos n))

def getLenEncStr (d : Bytes) (pos : Nat) : Checked (Bytes × Nat) := do
  let (sv, pos) ← readLenEncString d pos
  let out ← span d sv.off sv.size
  give (some (out, pos))

def nulLoop (d : Bytes) : Nat → Nat → Checked Nat
  | 0, _ => trap .unfinished
  | fuel + 1, pos =>
    if pos < d.length then do
      let b ← byteAt d pos
      if b ≠ 0 then nulLoop d fuel (add64 pos 1) else give (some pos)
    else give (some pos)

/-- It does not refuse: whether there was a string, and where the cursor is. -/
def readNulString (d : Bytes) (start : Nat) : Checked (Option Bytes × Nat) := do
  let pos ← nulLoop d (d.length + 1) start
  if pos ≥ d.length then give (some (none, pos))
  else do
    let out ← span d start (sub64 pos start)
    give (some (some out, add64 pos 1))

section
variable {d : Bytes} {pos : Nat}

/-- The cursor a length leaves is inside the buffer or at its end. -/
theorem readLenEnc_le {n p : Nat} (h : Mysql.readLenEnc d pos = some (n, p)) : pos < p ∧ p ≤ d.length := by
  obtain ⟨first, hfirst, ⟨-, -, rfl⟩ | ⟨w, -, hroom, -, rfl⟩⟩ := readLenEnc_cases h
  · obtain ⟨hlt, -⟩ := List.getElem?_eq_some_iff.mp hfirst
    omega
  · omega

theorem readLenEnc_eq (hd : d.length < 2 ^ 63) (pos : Nat) :
    readLenEnc d pos = give (Mysql.readLenEnc d pos) := by
  rw [readLenEnc, Mysql.readLenEnc]
  by_cases hpos : pos ≥ d.length
  · rw [if_pos hpos, List.getElem?_eq_none hpos]
    rfl
  rw [if_neg hpos, List.getElem?_eq_getElem (by omega), byteAt_of_getElem? (List.getElem?_eq_getElem (by omega)),
    add64_of_lt (by omega), add64_of_lt (by omega), add64_of_lt (by omega), add64_of_lt (by omega), give_some_bind]
  dsimp only
  by_cases h1 : d[pos] < 0xFB
  · rw [if_pos h1, if_pos h1]
  rw [if_neg h1, if_neg h1]
  by_cases h2 : d[pos] = 0xFC
  · rw [if_pos h2, if_pos h2]
    refine guard_eq Iff.rfl fun h => ?_
    rw [leRead_of_le _ (by omega), give_some_bind]
  rw [if_neg h2, if_neg h2]
  by_cases h3 : d[pos] = 0xFD
  · rw [if_pos h3, if_pos h3]
    refine guard_eq Iff.rfl fun h => ?_
    rw [leRead_of_le _ (by omega), give_some_bind]
  rw [if_neg h3, if_neg h3]
  by_cases h4 : d[pos] = 0xFE
  · rw [if_pos h4, if_pos h4]
    refine guard_eq Iff.rfl fun h => ?_
    rw [leRead_of_le _ (by omega), give_some_bind]
  · rw [if_neg h4, if_neg h4]
    rfl

/-- The view of a string that is there lies inside the buffer, and shows the string. -/
theorem readLenEncString_eq (hd : d.length < 2 ^ 63) (pos : Nat) :
    ∃ o, readLenEncString d pos = give o ∧
      o.map (fun vp => (vp.1.bytes d, vp.2)) = Mysql.readLenEncString d pos ∧ ∀ vp ∈ o, vp.1.Inside d := by
  rw [readLenEncString, Mysql.readLenEncString, readLenEnc_eq hd]
  cases hn : Mysql.readLenEnc d pos with
  | none => exact ⟨none, rfl, rfl, fun vp h => by cases h⟩
  | some np =>
    obtain ⟨n, p⟩ := np
    obtain ⟨-, hle⟩ := readLenEnc_le hn
    rw [give_some_bind]
    dsimp only
    rw [sub64_of_le (by omega) hle]
    by_cases hout : n > d.length - p
    · rw [if_pos hout, if_pos hout]
      exact ⟨none, rfl, rfl, fun vp h => by cases h⟩
    · rw [if_neg hout, if_neg hout, add64_of_lt (by omega)]
      refine ⟨_, rfl, rfl, ?_⟩
      rintro vp ⟨⟩
      exact (by omega : p + n ≤ d.length)

theorem getLenEncStr_eq (hd : d.length < 2 ^ 63) (pos : Nat) :
    getLenEncStr d pos = give (Mysql.readLenEncString d pos) := by
  obtain ⟨o, hr, ho, hin⟩ := readLenEncString_eq hd pos
  rw [getLenEncStr, hr, ← ho]
  cases o with
  | none => rfl
  | some vp =>
    rw [give_some_bind]
    dsimp only
    rw [span_of_le (hin vp rfl)]
    rfl

theorem nulLoop_eq (hd : d.length < 2 ^ 63) (fuel : Nat) : ∀ {pos : Nat}, d.length - pos < fuel →
    nulLoop d fuel pos = give (some (pos + ((d.drop pos).takeWhile (· ≠ 0)).length)) := by
  induction fuel with
  | zero =>
    intro pos h
    exact absurd h (Nat.not_lt_zero _)
  | succ fuel ih =>
    intro pos h
    rw [nulLoop]
    by_cases hpos : pos < d.length
    · rw [if_pos hpos, byteAt_of_getElem? (List.getElem?_eq_getElem hpos), give_some_bind,
        List.drop_eq_getElem_cons hpos]
      by_cases hb : d[pos] ≠ 0
      · rw [if_pos hb, add64_of_lt (by omega), ih (by omega), List.takeWhile_cons_of_pos (by simpa using hb),
          List.length_cons]
        exact congrArg (fun n => give (some n)) (by omega)
      · rw [if_neg hb, List.takeWhile_cons_of_neg (by simpa using hb)]
        rfl
    · rw [if_neg hpos, List.drop_of_length_le (by omega)]
      rfl

theorem readNulString_eq (hd : d.length < 2 ^ 63) (pos : Nat) :
    readNulString d pos = give (some (Mysql.readNulString d pos)) := by
  rw [readNulString, Mysql.readNulString, nulLoop_eq hd _ (by omega), give_some_bind]
  by_cases hend : pos + ((d.drop pos).takeWhile (· ≠ 0)).length ≥ d.length
  · rw [if_pos hend, if_pos hend]
  · rw [if_neg hend, if_neg hend, sub64_of_le (by omega) (by omega), add64_of_lt (by omega), Nat.add_sub_cancel_left,
      span_of_le (by omega), give_some_bind, ← List.prefix_iff_eq_take.mp (List.takeWhile_prefix _)]

end

/-! ### Commands and responses -/

def extractQuery (d : Bytes) (caps : UInt32) : Checked View :=
  if d.length < 1 then refuse
  else do
    let cmd ← byteAt d 0
    if cmd ≠ COM_QUERY then refuse
    else do
      let pos ←
        if hasCap caps CLIENT_QUERY_ATTRIBUTES then do
          let (param_count, pos) ← readLenEnc d 1
          let (_, pos) ← readLenEnc d pos
          if param_count > 0 then refuse else give (some pos)
        else give (some 1)
      if pos > d.length then refuse else give (some ⟨pos, sub64 d.length pos⟩)

def classifyResponse (d : Bytes) (caps : UInt32) : Checked ResponseKind :=
  if d.length < 1 then give (some .Unknown)
  else do
    let h ← byteAt d 0
    if h = 0xFF then give (some .Err)
    else if h = 0xFB then give (some .LocalInfile)
    else if h = 0x00 then give (some .Ok)
    else if h = 0xFE then
      if d.length < 9 then
        if hasCap caps CLIENT_DEPRECATE_EOF then give (some .Ok) else give (some .Eof)
      else give (some .ResultSet)
    else give (some .ResultSet)

/-- A 16-bit word that is there only under some capabilities, and the cursor past it. -/
def wordIf (c : Bool) (d : Bytes) (pos : Nat) : Checked (UInt16 × Nat) :=
  if c then
    if add64 pos 2 > d.length then refuse
    else do
      let n ← leRead d pos 2
      give (some (UInt16.ofNat n, add64 pos 2))
  else give (some (0, pos))

def parseOk (d : Bytes) (caps : UInt32) : Checked OkPacket :=
  if d.length < 1 then refuse
  else do
    let h ← byteAt d 0
    if h ≠ 0x00 ∧ h ≠ 0xFE then refuse
    else do
      let (affected_rows, pos) ← readLenEnc d 1
      let (last_insert_id, pos) ← readLenEnc d pos
      let (status_flags, pos) ← wordIf (hasCap caps (CLIENT_PROTOCOL_41 ||| CLIENT_TRANSACTIONS)) d pos
      let (warnings, _) ← wordIf (hasCap caps CLIENT_PROTOCOL_41) d pos
      give (some { affected_rows, last_insert_id, status_flags, warnings })

def parseEof (d : Bytes) : Checked EofPacket :=
  if d.length < 5 then refuse
  else do
    let h ← byteAt d 0
    if h ≠ 0xFE then refuse
    else do
      let warnings ← leRead d 1 2
      let status_flags ← leRead d 3 2
      give (some { warnings := UInt16.ofNat warnings, status_flags := UInt16.ofNat status_flags })

/-- The SQL state of an ERR packet, if it is marked as there, and the cursor past it. -/
def errState (d : Bytes) (caps : UInt32) : Checked (Bytes × Nat) :=
  if hasCap caps CLIENT_PROTOCOL_41 ∧ 3 < d.length then do
    let c ← byteAt d 3
    if c = 0x23 then
      if add64 4 5 > d.length then refuse
      else do
        let state ← span d 4 5
        give (some (state, add64 4 5))
    else give (some ([], 3))
  else give (some ([], 3))

def errMessage (d : Bytes) (pos : Nat) : Checked Bytes :=
  if pos ≤ d.length then span d pos (sub64 d.length pos) else give (some [])

def parseErr (d : Bytes) (caps : UInt32) : Checked ErrPacket :=
  if d.length < 3 then refuse
  else do
    let h ← byteAt d 0
    if h ≠ 0xFF then refuse
    else do
      let code ← leRead d 1 2
      let (sql_state, pos) ← errState d caps
      let message ← errMessage d pos
      give (some { error_code := UInt16.ofNat code, sql_state, message })

section
variable {d : Bytes} {caps : UInt32}

/-- The statement is a view of the payload. -/
theorem extractQuery_eq (hd : d.length < 2 ^ 63) (caps : UInt32) :
    ∃ o, extractQuery d caps = give o ∧ o.map (View.bytes · d) = Mysql.extractQuery d caps ∧
      ∀ v ∈ o, v.Inside d := by
  have hview : ∀ pos, pos ≤ d.length → ∃ o : Option View,
      (if pos > d.length then refuse else give (some ⟨pos, sub64 d.length pos⟩) : Checked View) = give o ∧
        o.map (View.bytes · d) = some (d.drop pos) ∧ ∀ v ∈ o, v.Inside d := by
    intro pos hle
    rw [if_neg (by omega), sub64_of_le (by omega) hle]
    refine ⟨_, rfl, congrArg some ?_, ?_⟩
    · exact List.take_of_length_le (by rw [List.length_drop])
    · rintro v ⟨⟩
      exact (by omega : pos + (d.length - pos) ≤ d.length)
  rw [extractQuery, Mysql.extractQuery]
  cases d with
  | nil => exact ⟨none, rfl, rfl, fun v h => by cases h⟩
  | cons cmd body =>
    rw [if_neg (by simp), byteAt_of_getElem? (b := cmd) rfl, give_some_bind, List.head?_cons]
    by_cases hcmd : cmd ≠ COM_QUERY
    · have hsome : some cmd ≠ some COM_QUERY := by simpa using hcmd
      rw [if_pos hcmd, if_pos hsome]
      exact ⟨none, rfl, rfl, fun v h => by cases h⟩
    have hsome : ¬ some cmd ≠ some COM_QUERY := by simpa using hcmd
    rw [if_neg hcmd, if_neg hsome]
    by_cases hq : hasCap caps CLIENT_QUERY_ATTRIBUTES = true
    · rw [if_pos hq, if_pos hq, readLenEnc_eq hd]
      cases h1 : Mysql.readLenEnc (cmd :: body) 1 with
      | none => exact ⟨none, rfl, rfl, fun v h => by cases h⟩
      | some np =>
        obtain ⟨n, p⟩ := np
        dsimp only
        rw [give_some_bind]
        dsimp only
        rw [readLenEnc_eq hd]
        cases h2 : Mysql.readLenEnc (cmd :: body) p with
        | none => exact ⟨none, rfl, rfl, fun v h => by cases h⟩
        | some np' =>
          obtain ⟨n', p'⟩ := np'
          rw [give_some_bind]
          dsimp only
          by_cases hn : n > 0
          · rw [if_pos hn, if_pos hn]
            exact ⟨none, rfl, rfl, fun v h => by cases h⟩
          · rw [if_neg hn, if_neg hn, give_some_bind]
            exact hview p' (readLenEnc_le h2).2
    · rw [if_neg hq, if_neg hq, give_some_bind]
      exact hview 1 (by simp)

theorem classifyResponse_eq (d : Bytes) (caps : UInt32) :
    classifyResponse d caps = give (some (Mysql.classifyResponse d caps)) := by
  rw [classifyResponse, Mysql.classifyResponse]
  cases d with
  | nil => rfl
  | cons h rest =>
    rw [if_neg (by simp), byteAt_of_getElem? (b := h) rfl, give_some_bind, List.getElem?_cons_zero]
    dsimp only
    split_ifs <;> rfl

theorem wordIf_eq (hd : d.length < 2 ^ 63) (c : Bool) {pos : Nat} (hpos : pos ≤ d.length) :
    wordIf c d pos = give (if c ∧ pos + 2 > d.length then none
      else some (if c then UInt16.ofNat (leAt d pos 2) else 0, if c then pos + 2 else pos)) := by
  rw [wordIf, add64_of_lt (by omega)]
  cases c with
  | false => simp
  | true =>
    simp only [if_true, true_and]
    refine guard_eq Iff.rfl fun h => ?_
    rw [leRead_of_le _ (by omega), give_some_bind]

theorem parseOk_eq (hd : d.length < 2 ^ 63) (caps : UInt32) : parseOk d caps = give (Mysql.parseOk d caps) := by
  rw [parseOk, Mysql.parseOk]
  cases d with
  | nil => rfl
  | cons h rest =>
    rw [if_neg (by simp), byteAt_of_getElem? (b := h) rfl, give_some_bind, List.getElem?_cons_zero]
    refine guard_eq Iff.rfl fun _ => ?_
    rw [readLenEnc_eq hd]
    cases h1 : Mysql.readLenEnc (h :: rest) 1 with
    | none => rfl
    | some np =>
      obtain ⟨n, p⟩ := np
      rw [give_some_bind]
      dsimp only
      rw [readLenEnc_eq hd]
      cases h2 : Mysql.readLenEnc (h :: rest) p with
      | none => rfl
      | some np' =>
        obtain ⟨n', p'⟩ := np'
        have hle := (readLenEnc_le h2).2
        rw [give_some_bind]
        dsimp only
        rw [wordIf_eq hd _ hle]
        by_cases hflags : hasCap caps (CLIENT_PROTOCOL_41 ||| CLIENT_TRANSACTIONS) ∧ p' + 2 > (h :: rest).length
        · rw [if_pos hflags, if_pos hflags]
          rfl
        rw [if_neg hflags, if_neg hflags, give_some_bind]
        dsimp only
        rw [wordIf_eq hd _ (by split_ifs <;> simp_all)]
        by_cases hwarn : hasCap caps CLIENT_PROTOCOL_41 ∧
            (if hasCap caps (CLIENT_PROTOCOL_41 ||| CLIENT_TRANSACTIONS) = true then p' + 2 else p') + 2 >
              (h :: rest).length
        · rw [if_pos hwarn, if_pos hwarn]
          rfl
        · rw [if_neg hwarn, if_neg hwarn, give_some_bind]

theorem parseEof_eq (d : Bytes) : parseEof d = give (Mysql.parseEof d) := by
  rw [parseEof, Mysql.parseEof]
  by_cases hlen : d.length < 5
  · rw [if_pos hlen, if_pos (.inl hlen)]
    rfl
  · obtain ⟨b, hb⟩ : ∃ b, d[0]? = some b := ⟨_, List.getElem?_eq_getElem (by omega)⟩
    rw [if_neg hlen, byteAt_of_getElem? hb, give_some_bind, hb]
    refine guard_eq (by simp [hlen]) fun _ => ?_
    rw [leRead_of_le _ (by omega), leRead_of_le _ (by omega), give_some_bind, give_some_bind]

theorem errState_eq (d : Bytes) (caps : UInt32) :
    errState d caps = give (if hasCap caps CLIENT_PROTOCOL_41 ∧ d[3]? = some 0x23 then
      if 4 + 5 > d.length then none else some ((d.drop 4).take 5, 9) else some ([], 3)) := by
  rw [errState, add64_of_lt (by omega)]
  by_cases hc : hasCap caps CLIENT_PROTOCOL_41 ∧ 3 < d.length
  · have hb : d[3]? = some (d.getD 3 0) := by rw [List.getElem?_eq_getElem hc.2, List.getD_eq_getElem _ _ hc.2]
    rw [if_pos hc, byteAt_of_getElem? hb, give_some_bind, hb]
    by_cases hm : d.getD 3 0 = 0x23
    · have hmark : hasCap caps CLIENT_PROTOCOL_41 ∧ some (d.getD 3 0) = some 0x23 := ⟨hc.1, congrArg some hm⟩
      rw [if_pos hm, if_pos hmark]
      refine guard_eq Iff.rfl fun h => ?_
      rw [span_of_le (by omega), give_some_bind]
    · rw [if_neg hm, if_neg (fun h => hm (Option.some.inj h.2))]
  · rw [if_neg hc, if_neg]
    rintro ⟨h1, h2⟩
    exact hc ⟨h1, (List.getElem?_eq_some_iff.mp h2).1⟩

theorem errMessage_eq (hd : d.length < 2 ^ 63) {pos : Nat} (hle : pos ≤ d.length) :
    errMessage d pos = give (some (d.drop pos)) := by
  rw [errMessage, if_pos hle, sub64_of_le (by omega) hle, span_of_le (by omega),
    List.take_of_length_le (by rw [List.length_drop])]

theorem parseErr_eq (hd : d.length < 2 ^ 63) (caps : UInt32) : parseErr d caps = give (Mysql.parseErr d caps) := by
  rw [parseErr, Mysql.parseErr]
  by_cases hlen : d.length < 3
  · rw [if_pos hlen, if_pos (.inl hlen)]
    rfl
  obtain ⟨b, hb⟩ : ∃ b, d[0]? = some b := ⟨_, List.getElem?_eq_getElem (by omega)⟩
  rw [if_neg hlen, byteAt_of_getElem? hb, give_some_bind, hb]
  refine guard_eq (by simp [hlen]) fun _ => ?_
  rw [leRead_of_le _ (by omega), give_some_bind, errState_eq]
  split_ifs
  · rfl
  · rw [give_some_bind]
    dsimp only
    rw [errMessage_eq hd (by omega), give_some_bind]
  · rw [give_some_bind]
    dsimp only
    rw [errMessage_eq hd (by omega), give_some_bind]

end

/-! ### Packets -/

def renumberLoop : Nat → Bytes → Nat → UInt8 → Checked (Bool × Bytes)
  | 0, _, _, _ => trap .unfinished
  | fuel + 1, stream, pos, seq =>
    if pos < stream.length then
      if sub64 stream.length pos < kHeaderLen then give (some (false, stream))
      else do
        let plen ← leRead stream pos 3
        if sub64 (sub64 stream.length pos) kHeaderLen < plen then give (some (false, stream))
        else do
          let stream ← put stream (add64 pos 3) seq
          renumberLoop fuel stream (add64 pos (kHeaderLen + plen)) (seq + 1)
    else give (some (pos = stream.length, stream))

/-- A round for every header there can be, and one to find the end. -/
def renumber (stream : Bytes) (start_seq : UInt8) : Checked (Bool × Bytes) :=
  renumberLoop (stream.length / kHeaderLen + 1) stream 0 start_seq

def nextLoop (buf : Bytes) (start : Nat) :
    Nat → Nat → Bytes → Option UInt8 → Checked (Message × Nat)
  | 0, _, _, _ => trap .unfinished
  | fuel + 1, pos, payload, first_seq =>
    if sub64 buf.length pos < kHeaderLen then refuse
    else do
      let plen ← leRead buf pos 3
      let seq ← byteAt buf (pos + 3)
      if sub64 (sub64 buf.length pos) kHeaderLen < plen then refuse
      else do
        let body ← span buf (pos + kHeaderLen) plen
        let payload := payload ++ body
        let first := first_seq.getD seq
        let pos := add64 pos (kHeaderLen + plen)
        if plen = kMaxPayload then nextLoop buf start fuel pos payload (some first)
        else give (some ({ payload := payload, first_seq := first, last_seq := seq,
                           wire_size := sub64 pos start }, pos))

/-- A round for every header the bytes held can have, and one to find them short. -/
def next (r : MessageReader) : Checked (Message × MessageReader) := do
  let (m, pos) ← nextLoop r.buf r.consumed (r.buf.length / kHeaderLen + 1) r.consumed [] none
  give (some (m, { r with consumed := pos }))

theorem lt_rounds (n : Nat) : n < 4 * (n / kHeaderLen + 1) := by
  rw [kHeaderLen]
  omega

theorem renumberLoop_eq (fuel : Nat) : ∀ {stream : Bytes} {pos : Nat} (seq : UInt8), stream.length < 2 ^ 63 →
    pos ≤ stream.length → stream.length - pos < 4 * fuel →
    renumberLoop fuel stream pos seq = give (some (Mysql.renumberLoop fuel stream pos seq)) := by
  have hk : kHeaderLen = 4 := rfl
  induction fuel with
  | zero =>
    intro stream pos seq _ _ hf
    omega
  | succ fuel ih =>
    intro stream pos seq hd hpos hf
    rw [renumberLoop, Mysql.renumberLoop, sub64_of_le (by omega) hpos]
    by_cases hlt : pos < stream.length
    · rw [if_pos hlt, if_pos hlt]
      by_cases hhdr : stream.length - pos < kHeaderLen
      · rw [if_pos hhdr, if_pos hhdr]
      rw [if_neg hhdr, if_neg hhdr, leRead_of_le _ (by omega), give_some_bind, sub64_of_le (by omega) (by omega)]
      dsimp only
      by_cases hbody : stream.length - pos - kHeaderLen < leAt stream pos 3
      · rw [if_pos hbody, if_pos hbody]
      rw [if_neg hbody, if_neg hbody, add64_of_lt (by omega), add64_of_lt (by omega), put_of_lt (by omega),
        give_some_bind]
      have hlen : (stream.set (pos + 3) seq).length = stream.length := List.length_set
      exact ih _ (by omega) (by omega) (by omega)
    · rw [if_neg hlt, if_neg hlt]

theorem renumber_eq {stream : Bytes} (hd : stream.length < 2 ^ 63) (start_seq : UInt8) :
    renumber stream start_seq = give (some (Mysql.renumber stream start_seq)) :=
  renumberLoop_eq _ _ hd (Nat.zero_le _) (lt_rounds _)

theorem nextLoop_eq {buf : Bytes} (hd : buf.length < 2 ^ 63) {start : Nat} (fuel : Nat) :
    ∀ {pos g : Nat} (acc : Bytes) (first : Option UInt8), start ≤ pos → pos ≤ buf.length →
      buf.length - pos < 4 * fuel → buf.length - pos < g →
      nextLoop buf start fuel pos acc first = give (MessageReader.nextLoop buf start g pos acc first) := by
  have hk : kHeaderLen = 4 := rfl
  induction fuel with
  | zero =>
    intro pos g acc first _ _ hf _
    omega
  | succ fuel ih =>
    intro pos g acc first hstart hpos hf hg
    obtain ⟨g, rfl⟩ : ∃ g', g = g' + 1 := ⟨g - 1, by omega⟩
    rw [nextLoop, MessageReader.nextLoop, sub64_of_le (by omega) hpos]
    refine guard_eq Iff.rfl fun hhdr => ?_
    rw [leRead_of_le _ (by omega), give_some_bind, byteAt_of_lt (by omega), give_some_bind,
      sub64_of_le (by omega) (by omega)]
    refine guard_eq Iff.rfl fun hbody => ?_
    rw [span_of_le (by omega), give_some_bind, add64_of_lt (by omega)]
    dsimp only
    rw [sub64_of_le (by omega) (by omega)]
    split_ifs with hfull
    · exact ih _ _ (by omega) (by omega) (by omega) (by omega)
    · rfl

theorem next_eq {r : MessageReader} (hd : r.buf.length < 2 ^ 63) (hc : r.consumed ≤ r.buf.length) :
    next r = give r.next := by
  have hrounds := lt_rounds r.buf.length
  rw [next, nextLoop_eq hd _ _ _ (Nat.le_refl _) hc (by omega) (by omega : _ < r.buf.length + 1), MessageReader.next]
  cases MessageReader.nextLoop r.buf r.consumed (r.buf.length + 1) r.consumed [] none with
  | none => rfl
  | some mp => rfl

/-! ### Handshakes -/

def authPart2 (d : Bytes) (pos : Nat) (capabilities : UInt32) (auth_data_len : UInt8) : Checked (Bytes × Nat) :=
  if hasCap capabilities CLIENT_SECURE_CONNECTION then
    let part2 := part2Length auth_data_len
    if add64 pos part2 > d.length then refuse
    else do
      let part ← span d pos (part2 - 1)
      give (some (part, add64 pos part2))
  else give (some ([], pos))

def authPlugin (d : Bytes) (pos : Nat) (capabilities : UInt32) : Checked Bytes :=
  if hasCap capabilities CLIENT_PLUGIN_AUTH then do
    let (plugin, pos) ← readNulString d pos
    match plugin with
    | some plugin => give (some plugin)
    | none => if pos < d.length then span d pos (sub64 d.length pos) else give (some [])
  else give (some [])

def serverTail (d : Bytes) (pos : Nat) (out : ServerHandshake) : Checked ServerHandshake :=
  if add64 pos 1 > d.length then refuse
  else do
    let charset ← byteAt d pos
    let pos := add64 pos 1
    if add64 pos 2 > d.length then refuse
    else do
      let status ← leRead d pos 2
      let pos := add64 pos 2
      if add64 pos 2 > d.length then refuse
      else do
        let hi ← leRead d pos 2
        let pos := add64 pos 2
        let capabilities := out.capabilities ||| (UInt32.ofNat hi <<< 16)
        if add64 pos 1 > d.length then refuse
        else do
          let auth_data_len ← byteAt d pos
          let pos := add64 (add64 pos 1) 10
          if pos > d.length then refuse
          else do
            let (part2, pos) ← authPart2 d pos capabilities auth_data_len
            let auth_plugin ← authPlugin d pos capabilities
            give (some { out with
              charset, status_flags := UInt16.ofNat status, capabilities
              scramble := out.scramble ++ part2, auth_plugin })

def serverBody (d : Bytes) (pos : Nat) (protocol_version : UInt8) (server_version : Bytes) :
    Checked ServerHandshake :=
  if add64 pos 4 > d.length then refuse
  else do
    let id ← leRead d pos 4
    let pos := add64 pos 4
    if add64 pos 9 > d.length then refuse
    else do
      let scramble ← span d pos 8
      let pos := add64 (add64 pos 8) 1
      if add64 pos 2 > d.length then refuse
      else do
        let lo ← leRead d pos 2
        let pos := add64 pos 2
        let out : ServerHandshake :=
          { protocol_version, server_version, connection_id := UInt32.ofNat id, scramble
            capabilities := UInt32.ofNat lo }
        if pos ≥ d.length then give (some out) else serverTail d pos out

def parseServerHandshake (d : Bytes) : Checked ServerHandshake :=
  if d.length < 1 then refuse
  else do
    let protocol_version ← byteAt d 0
    if protocol_version ≠ 10 then refuse
    else do
      let (server_version, pos) ← readNulString d 1
      match server_version with
      | none => refuse
      | some server_version => serverBody d pos protocol_version server_version

/-- `none` where the reply is cut off: the parser stops there without refusing it. -/
def skipAuth (d : Bytes) (pos : Nat) (capabilities : UInt32) : Checked (Option Nat) :=
  if hasCap capabilities CLIENT_SECURE_CONNECTION then
    if pos ≥ d.length then give (some none)
    else do
      let n ← byteAt d pos
      give (some (some (add64 (add64 pos 1) n.toNat)))
  else do
    let (ignored, pos) ← readNulString d pos
    match ignored with
    | none => give (some none)
    | some _ => give (some (some pos))

def clientDatabase (d : Bytes) (pos : Nat) : Checked Bytes :=
  if pos < d.length then do
    let (db, _) ← readNulString d pos
    give (some (db.getD []))
  else give (some [])

def parseClientHandshake (d : Bytes) : Checked ClientHandshake :=
  if d.length < 32 then refuse
  else do
    let caps ← leRead d 0 4
    let size ← leRead d 4 4
    let charset ← byteAt d 8
    let out : ClientHandshake :=
      { capabilities := UInt32.ofNat caps, max_packet_size := UInt32.ofNat size, charset }
    if 32 ≥ d.length then give (some { out with ssl_request := true })
    else do
      let (user, pos) ← readNulString d 32
      match user with
      | none => give (some out)
      | some username => do
        let pos ← skipAuth d pos out.capabilities
        match pos with
        | none => give (some { out with username })
        | some pos => do
          let database ← clientDatabase d pos
          give (some { out with username, database })

section
variable {d : Bytes} {pos : Nat}

theorem part2Length_bounds (n : UInt8) : 13 ≤ part2Length n ∧ part2Length n < 256 := by
  have hn := n.toNat_lt
  simp only [part2Length]
  split_ifs <;> omega

theorem authPart2_eq (hd : d.length < 2 ^ 63) (hpos : pos ≤ d.length) (capabilities : UInt32) (n : UInt8) :
    authPart2 d pos capabilities n = give (Mysql.authPart2 d pos capabilities n) := by
  have hb := part2Length_bounds n
  rw [authPart2, Mysql.authPart2]
  by_cases hc : hasCap capabilities CLIENT_SECURE_CONNECTION = true
  · rw [if_pos hc, if_pos hc]
    dsimp only
    rw [add64_of_lt (by omega)]
    refine guard_eq Iff.rfl fun h => ?_
    rw [span_of_le (by omega), give_some_bind]
  · rw [if_neg hc, if_neg hc]

theorem authPlugin_eq (hd : d.length < 2 ^ 63) (pos : Nat) (capabilities : UInt32) :
    authPlugin d pos capabilities = give (some (Mysql.authPlugin d pos capabilities)) := by
  rw [authPlugin, Mysql.authPlugin]
  by_cases hc : hasCap capabilities CLIENT_PLUGIN_AUTH = true
  · rw [if_pos hc, if_pos hc, readNulString_eq hd, give_some_bind]
    obtain ⟨plugin, p⟩ := Mysql.readNulString d pos
    cases plugin with
    | some plugin => rfl
    | none =>
      dsimp only
      by_cases hp : p < d.length
      · rw [if_pos hp, if_pos hp, sub64_of_le (by omega) (by omega), span_of_le (by omega),
          List.take_of_length_le (by rw [List.length_drop])]
      · rw [if_neg hp, if_neg hp]
  · rw [if_neg hc, if_neg hc]

theorem serverTail_eq (hd : d.length < 2 ^ 63) (hpos : pos ≤ d.length) (out : ServerHandshake) :
    serverTail d pos out = give (Mysql.serverTail d pos out) := by
  rw [serverTail, Mysql.serverTail, add64_of_lt (by omega)]
  refine guard_eq Iff.rfl fun h1 => ?_
  rw [byteAt_of_lt (by omega), give_some_bind]
  dsimp only
  rw [add64_of_lt (a := pos + 1) (by omega)]
  refine guard_eq Iff.rfl fun h2 => ?_
  rw [leRead_of_le _ (by omega), give_some_bind, add64_of_lt (a := pos + 1 + 2) (by omega)]
  refine guard_eq Iff.rfl fun h3 => ?_
  rw [leRead_of_le _ (by omega), give_some_bind, add64_of_lt (a := pos + 1 + 2 + 2) (by omega)]
  refine guard_eq Iff.rfl fun h4 => ?_
  rw [byteAt_of_lt (by omega), give_some_bind, add64_of_lt (a := pos + 1 + 2 + 2 + 1) (by omega)]
  refine guard_eq Iff.rfl fun h5 => ?_
  rw [authPart2_eq hd (by omega)]
  generalize Mysql.authPart2 d _ _ _ = o
  cases o with
  | none => rfl
  | some pp =>
    rw [give_some_bind]
    dsimp only
    rw [authPlugin_eq hd, give_some_bind]

theorem serverBody_eq (hd : d.length < 2 ^ 63) (hpos : pos ≤ d.length) (v : UInt8) (s : Bytes) :
    serverBody d pos v s = give (Mysql.serverBody d pos v s) := by
  rw [serverBody, Mysql.serverBody, add64_of_lt (by omega)]
  refine guard_eq Iff.rfl fun h1 => ?_
  rw [leRead_of_le _ (by omega), give_some_bind]
  dsimp only
  rw [add64_of_lt (a := pos + 4) (by omega)]
  refine guard_eq Iff.rfl fun h2 => ?_
  rw [span_of_le (by omega), give_some_bind, add64_of_lt (a := pos + 4) (b := 8) (by omega),
    add64_of_lt (a := pos + 4 + 8) (by omega), add64_of_lt (a := pos + 4 + 8 + 1) (by omega)]
  refine guard_eq Iff.rfl fun h3 => ?_
  rw [leRead_of_le _ (by omega), give_some_bind]
  by_cases hend : pos + 4 + 8 + 1 + 2 ≥ d.length
  · rw [if_pos hend, if_pos hend]
  · rw [if_neg hend, if_neg hend]
    exact serverTail_eq hd (by omega) _

/-- A string that is there ends inside the buffer. -/
theorem readNulString_le {s : Bytes} {p : Nat} (h : Mysql.readNulString d pos = (some s, p)) : p ≤ d.length := by
  rw [Mysql.readNulString] at h
  by_cases hend : pos + ((d.drop pos).takeWhile (· ≠ 0)).length ≥ d.length
  · rw [if_pos hend] at h
    cases (congrArg Prod.fst h)
  · rw [if_neg hend] at h
    have hp := congrArg Prod.snd h
    dsimp only at hp
    omega

theorem parseServerHandshake_eq (hd : d.length < 2 ^ 63) :
    parseServerHandshake d = give (Mysql.parseServerHandshake d) := by
  rw [parseServerHandshake, Mysql.parseServerHandshake]
  cases hb : d[0]? with
  | none => rw [if_pos (by rw [List.getElem?_eq_none_iff] at hb; omega)]; rfl
  | some v =>
    obtain ⟨hlt, -⟩ := List.getElem?_eq_some_iff.mp hb
    rw [if_neg (by omega), byteAt_of_getElem? hb, give_some_bind]
    refine guard_eq Iff.rfl fun _ => ?_
    rw [readNulString_eq hd, give_some_bind]
    rcases hs : Mysql.readNulString d 1 with ⟨_ | s, p⟩
    · rfl
    · exact serverBody_eq hd (readNulString_le hs) v s

theorem skipAuth_eq (hd : d.length < 2 ^ 63) (pos : Nat) (capabilities : UInt32) :
    skipAuth d pos capabilities = give (some (Mysql.skipAuth d pos capabilities)) := by
  rw [skipAuth, Mysql.skipAuth]
  by_cases hc : hasCap capabilities CLIENT_SECURE_CONNECTION = true
  · rw [if_pos hc, if_pos hc]
    by_cases hpos : pos ≥ d.length
    · rw [if_pos hpos, if_pos hpos]
    · have hn := (d.getD pos 0).toNat_lt
      rw [if_neg hpos, if_neg hpos, byteAt_of_lt (by omega), give_some_bind, add64_of_lt (b := 1) (by omega),
        add64_of_lt (by omega)]
  · rw [if_neg hc, if_neg hc, readNulString_eq hd, give_some_bind]
    obtain ⟨o, p⟩ := Mysql.readNulString d pos
    cases o with
    | none => rfl
    | some s => rfl

theorem clientDatabase_eq (hd : d.length < 2 ^ 63) (pos : Nat) :
    clientDatabase d pos = give (some (Mysql.clientDatabase d pos)) := by
  rw [clientDatabase, Mysql.clientDatabase, readNulString_eq hd, give_some_bind]
  split_ifs <;> rfl

theorem parseClientHandshake_eq (hd : d.length < 2 ^ 63) :
    parseClientHandshake d = give (Mysql.parseClientHandshake d) := by
  rw [parseClientHandshake, Mysql.parseClientHandshake]
  refine guard_eq Iff.rfl fun h => ?_
  rw [leRead_of_le _ (by omega), give_some_bind, leRead_of_le _ (by omega), give_some_bind,
    byteAt_of_lt (by omega), give_some_bind]
  dsimp only
  by_cases hend : 32 ≥ d.length
  · rw [if_pos hend, if_pos hend]
  rw [if_neg hend, if_neg hend, readNulString_eq hd, give_some_bind]
  obtain ⟨o, p⟩ := Mysql.readNulString d 32
  cases o with
  | none => rfl
  | some user =>
    dsimp only
    rw [skipAuth_eq hd, give_some_bind]
    cases Mysql.skipAuth d p (UInt32.ofNat (leAt d 0 4)) with
    | none => rfl
    | some p' =>
      dsimp only
      rw [clientDatabase_eq hd, give_some_bind]

end

end Barnacle.Mysql.Bounds
