import Barnacle.Mysql.Packets

/-! A `MessageReader` in use: bytes are appended in pieces and messages are pulled in between, in any
    order. `nextOut` is `next` with its locals and its output argument, as the source has them; it
    assigns to the reader and to the argument behind its loop alone, so a call that fails leaves both.

    What a caller has been given so far and what it could still pull are together the messages of the
    bytes appended so far (`Use.Faithful`), whatever the pieces and the order of the calls were. -/

namespace Barnacle.Mysql
open Barnacle.Lib

namespace MessageReader

/-- The locals of `next`. -/
structure Locals where
  pos : Nat
  payload : Bytes := []
  first : Bool := true
  first_seq : UInt8 := 0
  last_seq : UInt8 := 0

/-- The locals behind a packet with this header and body. -/
def Locals.packet (l : Locals) (plen : Nat) (seq : UInt8) (body : Bytes) : Locals :=
  { pos := l.pos + (kHeaderLen + plen),
    payload := l.payload ++ body,
    first := false,
    first_seq := if l.first then seq else l.first_seq,
    last_seq := seq }

/-- The loop of `next`: whether the chain is all there, and the locals at the end of it. -/
def walk (buf : Bytes) : Nat → Locals → Bool × Locals
  | 0, l => (false, l)
  | fuel + 1, l =>
    if buf.length - l.pos < kHeaderLen then (false, l)
    else
      let plen := leAt buf l.pos 3
      let seq := buf.getD (l.pos + 3) 0
      if buf.length - l.pos - kHeaderLen < plen then (false, l)
      else
        let l := l.packet plen seq ((buf.drop (l.pos + kHeaderLen)).take plen)
        if plen = kMaxPayload then walk buf fuel l else (true, l)

/-- The message the loop has put together, of a chain that began at `start`. -/
def Locals.message (l : Locals) (start : Nat) : Message :=
  { payload := l.payload, first_seq := l.first_seq, last_seq := l.last_seq, wire_size := l.pos - start }

/-- `next(out)`: what it returns, and the reader and the argument after it. -/
def nextOut (r : MessageReader) (out : Message) : Bool × MessageReader × Message :=
  match walk r.buf (r.buf.length + 1) { pos := r.consumed } with
  | (true, l) => (true, { r with consumed := l.pos }, l.message r.consumed)
  | (false, _) => (false, r, out)

/-- Pull messages until there is none, as every caller does. -/
def drainLoop : Nat → MessageReader → List Message × MessageReader
  | 0, r => ([], r)
  | fuel + 1, r =>
    match r.next with
    | none => ([], r)
    | some (m, r) => (m :: (drainLoop fuel r).1, (drainLoop fuel r).2)

def drain (r : MessageReader) : List Message × MessageReader := drainLoop (r.buffered + 1) r

/-! ### The two forms of `next` -/

/-- The sequence id the loop has met first, if it has met one. -/
def Locals.seen (l : Locals) : Option UInt8 := if l.first then none else some l.first_seq

/-- What a loop that has come to its end hands on. -/
def found (start : Nat) : Bool × Locals → Option (Message × Nat)
  | (true, l) => some (l.message start, l.pos)
  | (false, _) => none

/-- The loop with all its locals finds what the loop without them returns. -/
theorem walk_eq (buf : Bytes) (start fuel : Nat) : ∀ l : Locals,
    nextLoop buf start fuel l.pos l.payload l.seen = found start (walk buf fuel l) := by
  induction fuel with
  | zero =>
    intro l
    rfl
  | succ fuel ih =>
    intro l
    -- the sequence id of the message is settled by the first packet
    have hseen : ∀ (plen : Nat) (seq : UInt8) (body : Bytes),
        (l.packet plen seq body).seen = some (l.seen.getD seq) ∧
          (l.packet plen seq body).first_seq = l.seen.getD seq := by
      intro plen seq body
      rcases l with ⟨pos, payload, _ | _, first_seq, last_seq⟩ <;> exact ⟨rfl, rfl⟩
    rw [nextLoop, walk]
    dsimp only
    split_ifs with h1 h2 h3
    · rfl
    · rfl
    · rw [← ih, (hseen _ _ _).1]
      rfl
    · rw [found, Locals.message, (hseen _ _ _).2]
      rfl

theorem nextOut_of_none {r : MessageReader} (out : Message) (h : r.next = none) :
    r.nextOut out = (false, r, out) := by
  have hw : nextLoop r.buf r.consumed (r.buf.length + 1) r.consumed [] none = _ :=
    walk_eq r.buf r.consumed (r.buf.length + 1) { pos := r.consumed }
  rw [next, Option.map_eq_none_iff, hw] at h
  rw [nextOut]
  generalize walk r.buf (r.buf.length + 1) { pos := r.consumed } = res at h ⊢
  rcases res with ⟨_ | _, l⟩
  · rfl
  · cases h

theorem nextOut_of_some {r r' : MessageReader} {m : Message} (out : Message)
    (h : r.next = some (m, r')) : r.nextOut out = (true, r', m) := by
  have hw : nextLoop r.buf r.consumed (r.buf.length + 1) r.consumed [] none = _ :=
    walk_eq r.buf r.consumed (r.buf.length + 1) { pos := r.consumed }
  rw [next, hw] at h
  rw [nextOut]
  generalize walk r.buf (r.buf.length + 1) { pos := r.consumed } = res at h ⊢
  rcases res with ⟨_ | _, l⟩
  · cases h
  · cases h
    rfl

/-! ### Pulling everything -/

/-- The messages of a byte string, as a reader yields them that got it in one piece. -/
def messagesOf (b : Bytes) : List Message := (({} : MessageReader).append b).drain.1

theorem drainLoop_split (fuel : Nat) : ∀ r : MessageReader, r.view.length < fuel →
    (drainLoop fuel r).1 = (packets.split r.view).1.map Prod.fst ∧
      (drainLoop fuel r).2.view = (packets.split r.view).2 := by
  induction fuel with
  | zero =>
    intro r h
    exact absurd h (Nat.not_lt_zero _)
  | succ fuel ih =>
    intro r h
    rw [drainLoop]
    rcases ht : takeMessage r.view with _ | ⟨m, rest⟩
    · rw [next_of_view_none ht, Framing.split_none (F := packets) ht]
      exact ⟨rfl, rfl⟩
    · obtain ⟨r', hn, hv⟩ := next_of_view ht
      have hlt := Framing.take_length_lt (F := packets) ht
      obtain ⟨w, -, hw⟩ := packets.takes ht
      obtain ⟨ih1, ih2⟩ := ih r' (by rw [hv]; omega)
      rw [hw] at ht ⊢
      rw [hn, Framing.split_some (F := packets) ht, List.map_cons, ← hv, ← ih1, ← ih2]
      exact ⟨rfl, rfl⟩

theorem drain_split (r : MessageReader) :
    r.drain.1 = (packets.split r.view).1.map Prod.fst ∧ r.drain.2.view = (packets.split r.view).2 :=
  drainLoop_split _ r (by rw [length_view]; exact Nat.lt_succ_self _)

theorem messagesOf_eq (b : Bytes) : messagesOf b = (packets.split b).1.map Prod.fst := by
  rw [messagesOf, (drain_split _).1, view_append, view_empty, List.nil_append]

theorem messagesOf_of_none {b : Bytes} (h : takeMessage b = none) : messagesOf b = [] := by
  rw [messagesOf_eq, Framing.split_none (F := packets) h]
  rfl

theorem messagesOf_of_take {b rest : Bytes} {m : Message} (h : takeMessage b = some (m, rest)) :
    messagesOf b = m :: messagesOf rest := by
  obtain ⟨w, -, rfl⟩ := packets.takes h
  rw [messagesOf_eq, messagesOf_eq, Framing.split_some (F := packets) h]
  rfl

theorem messagesOf_payloads (b : Bytes) : (messagesOf b).map Message.payload = payloads b := by
  rw [messagesOf_eq, payloads, List.map_map]
  rfl

/-! ### The size of a message on the wire -/

theorem nextLoop_wire_size {b : Bytes} {start fuel pos : Nat} {acc : Bytes} {first : Option UInt8}
    {mp : Message × Nat} (h : nextLoop b start fuel pos acc first = some mp) :
    mp.1.wire_size = mp.2 - start := by
  induction fuel generalizing pos acc first with
  | zero => simp [nextLoop] at h
  | succ fuel ih =>
    rw [nextLoop] at h
    simp only at h
    split_ifs at h with h1 h2 h3
    · exact ih h
    · rw [Option.some.injEq] at h
      subst h
      rfl

/-- The bytes of a message are counted in its size. -/
theorem takeMessage_wire_size {b rest : Bytes} {m : Message} (h : takeMessage b = some (m, rest)) :
    m.wire_size + rest.length = b.length := by
  obtain ⟨pos, hn, rfl, -, hle⟩ := takeMessage_eq_some h
  have hw := nextLoop_wire_size hn
  simp only at hw
  rw [hw, List.length_drop]
  omega

end MessageReader

/-! ### A run of calls -/

open MessageReader

inductive Call
  | append (data : Bytes)
  | next

/-- A reader and its caller: the caller's message, the bytes it has appended and what it was given. -/
structure Use where
  reader : MessageReader := {}
  out : Message
  appended : Bytes := []
  returned : List Message := []

def Use.call (u : Use) : Call → Use
  | .append data => { u with reader := u.reader.append data, appended := u.appended ++ data }
  | .next =>
    let res := u.reader.nextOut u.out
    { u with reader := res.2.1, out := res.2.2,
             returned := if res.1 then u.returned ++ [res.2.2] else u.returned }

/-- The calls made on a fresh reader, `out` being the caller's message. -/
def Use.run (out : Message) (calls : List Call) : Use := calls.foldl Use.call { out := out }

/-- The byte string the calls append, in one piece. -/
def appendedBy (calls : List Call) : Bytes :=
  calls.flatMap fun
    | .append data => data
    | .next => []

theorem Use.run_appended (out : Message) (calls : List Call) :
    (Use.run out calls).appended = appendedBy calls := by
  have hstep : ∀ (calls : List Call) (u : Use),
      (calls.foldl Use.call u).appended = u.appended ++ appendedBy calls := by
    intro calls
    induction calls with
    | nil =>
      intro u
      simp [appendedBy]
    | cons c calls ih =>
      intro u
      rw [List.foldl_cons, ih]
      cases c with
      | append data => simp [Use.call, appendedBy]
      | next => simp [Use.call, appendedBy]
  exact hstep calls _

/-- What was given and what could still be pulled are the messages of the bytes appended. -/
structure Use.Faithful (u : Use) : Prop where
  read : u.returned ++ (packets.split u.reader.view).1.map Prod.fst =
    (packets.split u.appended).1.map Prod.fst
  left : (packets.split u.reader.view).2 = (packets.split u.appended).2
  held : u.reader.buffered + (u.returned.map Message.wire_size).sum = u.appended.length

theorem Use.Faithful.append {u : Use} (h : u.Faithful) (data : Bytes) :
    (u.call (.append data)).Faithful := by
  have hv : (u.call (.append data)).reader.view = u.reader.view ++ data := view_append _ _
  have hs : (u.call (.append data)).appended = u.appended ++ data := rfl
  have hr : (u.call (.append data)).returned = u.returned := rfl
  refine ⟨?_, ?_, ?_⟩
  · rw [hv, hs, hr, Framing.split_append u.reader.view, Framing.split_append u.appended, h.left,
      List.map_append, List.map_append, ← List.append_assoc, h.read]
  · rw [hv, hs, Framing.split_append u.reader.view, Framing.split_append u.appended, h.left]
  · have hheld := h.held
    rw [← length_view] at hheld ⊢
    rw [hv, hs, hr, List.length_append, List.length_append]
    omega

theorem Use.Faithful.next {u : Use} (h : u.Faithful) : (u.call .next).Faithful := by
  rcases ht : takeMessage u.reader.view with _ | ⟨m, rest⟩
  · have hu : u.call .next = u := by
      rw [Use.call, nextOut_of_none _ (next_of_view_none ht)]
      rfl
    rw [hu]
    exact h
  · obtain ⟨r', hn, hv⟩ := next_of_view ht
    have hu : u.call .next = { u with reader := r', out := m, returned := u.returned ++ [m] } := by
      rw [Use.call, nextOut_of_some _ hn]
      rfl
    have hsize := takeMessage_wire_size ht
    obtain ⟨w, -, hw⟩ := packets.takes ht
    have hsplit : packets.split u.reader.view =
        ((m, w) :: (packets.split rest).1, (packets.split rest).2) := by
      rw [hw] at ht ⊢
      exact Framing.split_some (F := packets) ht
    obtain ⟨hread, hleft, hheld⟩ := h
    rw [hsplit] at hread hleft
    rw [← length_view] at hheld
    rw [hu]
    refine ⟨?_, ?_, ?_⟩ <;> dsimp only
    · rw [hv, ← hread, List.map_cons, List.append_assoc, List.singleton_append]
    · rw [hv, ← hleft]
    · rw [← length_view, hv, List.map_append, List.sum_append, List.map_singleton, List.sum_singleton]
      omega

/-- A whole run keeps it. -/
theorem Use.run_faithful (out : Message) (calls : List Call) : (Use.run out calls).Faithful := by
  have hstep : ∀ (calls : List Call) (u : Use), u.Faithful → (calls.foldl Use.call u).Faithful := by
    intro calls
    induction calls with
    | nil =>
      intro u h
      exact h
    | cons c calls ih =>
      intro u h
      cases c with
      | append data => exact ih _ (h.append data)
      | next => exact ih _ h.next
  exact hstep calls _ ⟨rfl, rfl, rfl⟩

/-- Compaction: behind an append, the bytes already consumed are no more than half of the buffer. -/
theorem consumed_append (r : MessageReader) {data : Bytes} (h : data ≠ []) :
    2 * (r.append data).consumed ≤ (r.append data).buf.length := by
  have hpos := List.length_pos_of_ne_nil h
  rw [append, if_neg (by omega), compact]
  split_ifs with h1 h2 h3
  · simp [h1]
  · simp
  · simp
  · simp only [List.length_append]
    omega

/-- The pieces a byte string is appended in, and the calls of `next` in between, do not matter. What
    was returned and what a caller could go on to pull are together the messages of the string in one
    piece, with their sequence ids and sizes; the bytes in no returned message are those buffered; a
    `next` that returns false changes neither the reader nor the message it was given, and comes only
    when every message was returned; and an append leaves at most half of the buffer consumed. -/
theorem chunking_independent (out : Message) (calls : List Call) :
    let u := Use.run out calls
    let b := appendedBy calls
    u.returned ++ u.reader.drain.1 = messagesOf b ∧
      u.reader.buffered + (u.returned.map Message.wire_size).sum = b.length ∧
      (∀ o, (u.reader.nextOut o).1 = false →
        (u.reader.nextOut o).2 = (u.reader, o) ∧ u.returned = messagesOf b) ∧
      ∀ data, data ≠ [] → 2 * (u.reader.append data).consumed ≤ (u.reader.append data).buf.length := by
  intro u b
  have hb : u.appended = b := Use.run_appended out calls
  have hf := Use.run_faithful out calls
  have hread : u.returned ++ u.reader.drain.1 = messagesOf b := by
    rw [(drain_split _).1, messagesOf_eq, ← hb]
    exact hf.read
  refine ⟨hread, by rw [← hb]; exact hf.held, ?_, fun data hne => consumed_append _ hne⟩
  intro o hfalse
  rcases hn : u.reader.next with _ | ⟨m, r'⟩
  · refine ⟨by rw [nextOut_of_none o hn], ?_⟩
    rw [← hread, drain, drainLoop, hn, List.append_nil]
  · rw [nextOut_of_some o hn] at hfalse
    cases hfalse

end Barnacle.Mysql
