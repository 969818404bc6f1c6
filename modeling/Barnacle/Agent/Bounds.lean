import Barnacle.Agent.Session
import Barnacle.Mysql.Reads

/-! Bytes off the network never lead a parser outside them (`src/common/mysql/protocol.cpp`,
    `src/common/mysql/resultset.cpp`, `src/common/session.cpp`), nor round for ever. Here the tracker of
    responses joins the parsers, and a `MessageReader` is taken through any use of it. -/

namespace Barnacle.Agent
open Barnacle.Lib Barnacle.Lib.Checked Barnacle.Mysql

/-! ### The tracker, as the code does its reads -/

namespace ResponseTracker

def readsEof (d : Bytes) (caps : UInt32) : Checked Bool :=
  if d.length ≥ 1 then do
    let h ← byteAt d 0
    give (some (h = 0xFE ∧ d.length < 9 ∧ ¬ hasCap caps CLIENT_DEPRECATE_EOF))
  else give (some false)

/-- Whether a status was read, and which. -/
def readsStatus (d : Bytes) (caps : UInt32) : Checked (Option UInt16) := do
  let isEof ← readsEof d caps
  if isEof then do
    let eof ← attempt (Bounds.parseEof d)
    give (some (eof.map EofPacket.status_flags))
  else do
    let ok ← attempt (Bounds.parseOk d caps)
    give (some (ok.map OkPacket.status_flags))

def readsFinish (t : ResponseTracker) (msg : Message) : Checked ResponseTracker := do
  let got ← readsStatus msg.payload t.caps
  match got with
  | some status =>
    give (some { t with
      in_transaction := hasStatus status SERVER_STATUS_IN_TRANS
      poisoned := t.poisoned || hasStatus status SERVER_MORE_RESULTS_EXISTS
      state := .Done })
  | none => give (some { t with state := .Done })

def readsFeedInit (t : ResponseTracker) (msg : Message) : Checked (Bool × ResponseTracker) := do
  let kind ← Bounds.classifyResponse msg.payload t.caps
  match kind with
  | .Ok => do
    let t ← t.readsFinish msg
    give (some (true, t))
  | .Err => give (some (true, t.poison))
  | .LocalInfile => give (some (true, t.poison))
  | .Eof => do
    let t ← t.readsFinish msg
    give (some (true, t))
  | .ResultSet => do
    let cols ← attempt (Bounds.readLenEnc msg.payload 0)
    match cols with
    | none => give (some (true, t.poison))
    | some (cols, _) =>
      if cols = 0 then give (some (true, t.poison))
      else give (some (false, { t with columns_left := cols, state := .ColumnDefs }))
  | .Unknown => give (some (true, t.poison))

/-- `feed`. -/
def readsFeed (t : ResponseTracker) (msg : Message) : Checked (Bool × ResponseTracker) :=
  if t.state = .Done then give (some (true, t))
  else if msg.payload.length = 0 then give (some (false, t))
  else
    match t.state with
    | .Init => t.readsFeedInit msg
    | .ColumnDefs =>
      let t := { t with columns_left := t.columns_left - 1 }
      if t.columns_left = 0 then
        let state : State := if hasCap t.caps CLIENT_DEPRECATE_EOF then .Rows else .ColumnEof
        give (some (false, { t with state := state }))
      else give (some (false, t))
    | .ColumnEof => give (some (false, { t with state := .Rows }))
    | .Rows => do
      let h ← byteAt msg.payload 0
      if h = 0xFF then give (some (true, t.poison))
      else if h = 0xFE ∧ msg.payload.length < 9 then do
        let t ← t.readsFinish msg
        give (some (true, t))
      else give (some (false, t))
    | .Done => give (some (true, t))

theorem readsStatus_eq {d : Bytes} (hd : d.length < 2 ^ 63) (caps : UInt32) :
    readsStatus d caps = give (some (statusOf d caps)) := by
  have heof : readsEof d caps =
      give (some (decide (d[0]? = some 0xFE ∧ d.length < 9 ∧ ¬ hasCap caps CLIENT_DEPRECATE_EOF))) := by
    rw [readsEof]
    cases d with
    | nil => simp
    | cons h rest =>
      rw [if_pos (by simp), byteAt_of_getElem? (b := h) rfl, give_some_bind, List.getElem?_cons_zero]
      simp only [Option.some.injEq]
  rw [readsStatus, statusOf, heof, give_some_bind, Bounds.parseEof_eq, Bounds.parseOk_eq hd]
  by_cases hc : d[0]? = some 0xFE ∧ d.length < 9 ∧ ¬ hasCap caps CLIENT_DEPRECATE_EOF
  · rw [decide_eq_true hc, if_pos rfl, if_pos hc]
    rfl
  · rw [decide_eq_false hc, if_neg (by simp), if_neg hc]
    rfl

theorem readsFinish_eq (t : ResponseTracker) {msg : Message} (hd : msg.payload.length < 2 ^ 63) :
    t.readsFinish msg = give (some (t.finish msg)) := by
  rw [readsFinish, finish, readsStatus_eq hd, give_some_bind]
  cases statusOf msg.payload t.caps with
  | none => rfl
  | some status => rfl

theorem readsFeedInit_eq (t : ResponseTracker) {msg : Message} (hd : msg.payload.length < 2 ^ 63) :
    t.readsFeedInit msg = give (some (t.feedInit msg)) := by
  rw [readsFeedInit, feedInit, Bounds.classifyResponse_eq, give_some_bind, readsFinish_eq t hd,
    Bounds.readLenEnc_eq hd, attempt_give]
  cases classifyResponse msg.payload t.caps with
  | ResultSet =>
    dsimp only
    rw [give_some_bind]
    cases readLenEnc msg.payload 0 with
    | none => rfl
    | some np =>
      dsimp only
      split_ifs <;> rfl
  | Ok | Err | Eof | LocalInfile | Unknown => rfl

theorem readsFeed_eq (t : ResponseTracker) {msg : Message} (hd : msg.payload.length < 2 ^ 63) :
    t.readsFeed msg = give (some (t.feed msg)) := by
  rw [readsFeed, feed]
  by_cases hdone : t.state = .Done
  · rw [if_pos hdone, if_pos hdone]
  rw [if_neg hdone, if_neg hdone]
  rcases hp : msg.payload with _ | ⟨h, rest⟩
  · rfl
  · rw [if_neg (by simp)]
    dsimp only
    cases t.state with
    | Init => exact t.readsFeedInit_eq hd
    | ColumnDefs =>
      dsimp only
      split_ifs <;> rfl
    | ColumnEof => rfl
    | Done => rfl
    | Rows =>
      dsimp only
      rw [byteAt_of_getElem? (b := h) rfl, give_some_bind, t.readsFinish_eq hd]
      split_ifs <;> rfl

end ResponseTracker

/-! ### A reader in use -/

inductive ReaderOp
  | append (data : Bytes)
  | next
  | reset

/-- Bytes that do not fit into a vector any more are not taken. -/
def ReaderOp.apply (r : MessageReader) : ReaderOp → MessageReader
  | .append data => if (r.append data).buf.length < 2 ^ 63 then r.append data else r.compact
  | .next => (r.next.map Prod.snd).getD r
  | .reset => r.reset

theorem sound_compact {r : MessageReader} (h : Bounds.Sound r) : Bounds.Sound r.compact := by
  have hf := h.fits
  rw [MessageReader.compact]
  split_ifs
  · exact h
  · exact ⟨by simp, by simp⟩
  · exact ⟨by rw [List.length_drop]; omega, by simp⟩
  · exact h

theorem sound_apply {r : MessageReader} (h : Bounds.Sound r) (op : ReaderOp) : Bounds.Sound (op.apply r) := by
  cases op with
  | append data =>
    rw [ReaderOp.apply]
    split_ifs with hfit
    · refine ⟨hfit, ?_⟩
      have hc := (sound_compact h).within
      rw [MessageReader.append]
      split_ifs
      · exact h.within
      · dsimp only
        rw [List.length_append]
        omega
    · exact sound_compact h
  | next =>
    rw [ReaderOp.apply]
    cases hn : r.next with
    | none => exact h
    | some mr => exact (h.next hn).1
  | reset => exact ⟨by rw [ReaderOp.apply, MessageReader.reset]; decide, Nat.le_refl _⟩

theorem sound_foldl (ops : List ReaderOp) : ∀ {r : MessageReader}, Bounds.Sound r →
    Bounds.Sound (ops.foldl ReaderOp.apply r) := by
  induction ops with
  | nil => exact fun h => h
  | cons op ops ih =>
    intro r h
    exact ih (sound_apply h op)

/-! ### All of them -/

/-- Whatever the bytes and the capabilities, the parsers end without having read outside what they were
    given, with the results they have over byte lists. The views they return lie inside the input, and
    the response is walked in no more messages than there is room for. -/
theorem parsers_stay_inside (b : Buffer) (caps : UInt32) :
    (∃ reads, Bounds.parseResultSet b.bytes caps = .ok (parseResultSet b.bytes caps, reads) ∧
      reads ≤ b.bytes.length / 4 + 1) ∧
    Bounds.parseServerHandshake b.bytes = give (parseServerHandshake b.bytes) ∧
    Bounds.parseClientHandshake b.bytes = give (parseClientHandshake b.bytes) ∧
    (∃ view, Bounds.extractQuery b.bytes caps = give view ∧
      view.map (View.bytes · b.bytes) = extractQuery b.bytes caps ∧ ∀ v ∈ view, v.Inside b.bytes) ∧
    (∀ pos, ∃ view, Bounds.readLenEncString b.bytes pos = give view ∧
      view.map (fun vp => (vp.1.bytes b.bytes, vp.2)) = readLenEncString b.bytes pos ∧
      ∀ vp ∈ view, vp.1.Inside b.bytes) ∧
    Bounds.parseOk b.bytes caps = give (parseOk b.bytes caps) ∧
    Bounds.parseEof b.bytes = give (parseEof b.bytes) ∧
    Bounds.parseErr b.bytes caps = give (parseErr b.bytes caps) ∧
    (∀ seq, Bounds.renumber b.bytes seq = give (some (renumber b.bytes seq))) ∧
    (∀ ops : List ReaderOp, Bounds.next (ops.foldl ReaderOp.apply {}) = give (ops.foldl ReaderOp.apply {}).next) ∧
    (∀ (t : ResponseTracker) (first_seq last_seq : UInt8) (wire_size : Nat),
      t.readsFeed ⟨b.bytes, first_seq, last_seq, wire_size⟩ =
        give (some (t.feed ⟨b.bytes, first_seq, last_seq, wire_size⟩))) := by
  obtain ⟨reads, hr, hle⟩ := Bounds.parseResultSet_eq b.fits caps
  refine ⟨⟨reads, hr, by omega⟩, Bounds.parseServerHandshake_eq b.fits, Bounds.parseClientHandshake_eq b.fits,
    Bounds.extractQuery_eq b.fits caps, Bounds.readLenEncString_eq b.fits, Bounds.parseOk_eq b.fits caps,
    Bounds.parseEof_eq b.bytes, Bounds.parseErr_eq b.fits caps, Bounds.renumber_eq b.fits, ?_, ?_⟩
  · intro ops
    have hs : Bounds.Sound (ops.foldl ReaderOp.apply {}) := sound_foldl ops ⟨by decide, Nat.le_refl _⟩
    exact Bounds.next_eq hs.fits hs.within
  · intro t first_seq last_seq wire_size
    exact t.readsFeed_eq b.fits

end Barnacle.Agent
