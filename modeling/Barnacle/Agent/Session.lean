import Barnacle.Mysql.Stream

/-! What the agent follows on one connection (`src/common/session.cpp`): the commands an application
    sends and the response the server gives to each.

    `RequestTracker` reassembles the written bytes into packets and stops at every COM_QUERY.
    `ResponseTracker` walks one response to its end, for the sake of the status flags of the packet
    that ends it. `next_spec` says which packet of the stream the first of them stops at. -/

namespace Barnacle.Agent
open Barnacle.Lib Barnacle.Mysql

/-! ### Requests -/

structure RequestTracker where
  reader : MessageReader := {}
  caps : UInt32 := 0
  last_cmd : UInt8 := 0
  last_seq : UInt8 := 0
  deriving DecidableEq, Repr

namespace RequestTracker

def begin (t : RequestTracker) (c : UInt32) : RequestTracker :=
  { caps := c, last_cmd := 0, last_seq := 0, reader := t.reader.reset }

/-- Packets off the reader until one is a COM_QUERY whose text can be extracted. -/
def nextLoop : Nat → RequestTracker → Option Bytes × RequestTracker
  | 0, t => (none, t)
  | fuel + 1, t =>
    match t.reader.next with
    | none => (none, t)
    | some (m, reader) =>
      match m.payload with
      | [] => nextLoop fuel { t with reader := reader }
      | cmd :: _ =>
        let t := { t with reader := reader, last_cmd := cmd, last_seq := m.last_seq }
        if cmd ≠ COM_QUERY then nextLoop fuel t
        else
          match extractQuery m.payload t.caps with
          | none => nextLoop fuel t
          | some q => (some q, t)

def next (t : RequestTracker) : Option Bytes × RequestTracker := nextLoop (t.reader.buffered + 1) t

def feed (t : RequestTracker) (data : Bytes) : Option Bytes × RequestTracker :=
  next { t with reader := t.reader.append data }

end RequestTracker

/-! ### Responses -/

inductive State where | Init | ColumnDefs | ColumnEof | Rows | Done
  deriving DecidableEq, Repr

structure ResponseTracker where
  state : State := .Init
  caps : UInt32 := 0
  columns_left : Nat := 0
  poisoned : Bool := false
  in_transaction : Bool := false
  deriving DecidableEq, Repr

namespace ResponseTracker

def begin (caps : UInt32) : ResponseTracker :=
  { state := .Init, caps := caps, columns_left := 0, poisoned := false, in_transaction := false }

/-- The status flags of a terminating packet, if they can be read: a five-byte EOF keeps them behind
    the warnings, an OK packet behind two length-encoded integers. -/
def statusOf (d : Bytes) (caps : UInt32) : Option UInt16 :=
  if d[0]? = some 0xFE ∧ d.length < 9 ∧ ¬ hasCap caps CLIENT_DEPRECATE_EOF then
    (parseEof d).map EofPacket.status_flags
  else (parseOk d caps).map OkPacket.status_flags

/-- Pull the transaction flag out of the terminating packet. -/
def finish (t : ResponseTracker) (msg : Message) : ResponseTracker :=
  match statusOf msg.payload t.caps with
  | some status =>
    { t with in_transaction := hasStatus status SERVER_STATUS_IN_TRANS,
             poisoned := t.poisoned || hasStatus status SERVER_MORE_RESULTS_EXISTS,
             state := .Done }
  | none => { t with state := .Done }

/-- Give up on the response: it has ended, or ends nowhere this tracker can see. -/
def poison (t : ResponseTracker) : ResponseTracker := { t with poisoned := true, state := .Done }

/-- The first packet of a response. -/
def feedInit (t : ResponseTracker) (msg : Message) : Bool × ResponseTracker :=
  match classifyResponse msg.payload t.caps with
  | .Ok => (true, t.finish msg)
  | .Err => (true, t.poison)
  | .LocalInfile => (true, t.poison)
  | .Eof => (true, t.finish msg)
  | .ResultSet =>
    match readLenEnc msg.payload 0 with
    | none => (true, t.poison)
    | some (cols, _) =>
      if cols = 0 then (true, t.poison)
      else (false, { t with columns_left := cols, state := .ColumnDefs })
  | .Unknown => (true, t.poison)

/-- Feed one reassembled response message; true once the whole response has been seen. -/
def feed (t : ResponseTracker) (msg : Message) : Bool × ResponseTracker :=
  if t.state = .Done then (true, t)
  else
    match msg.payload with
    | [] => (false, t)
    | h :: _ =>
      match t.state with
      | .Init => t.feedInit msg
      | .ColumnDefs =>
        let t := { t with columns_left := t.columns_left - 1 }
        if t.columns_left = 0 then
          let state : State := if hasCap t.caps CLIENT_DEPRECATE_EOF then .Rows else .ColumnEof
          (false, { t with state := state })
        else (false, t)
      | .ColumnEof => (false, { t with state := .Rows })
      | .Rows =>
        if h = 0xFF then (true, t.poison)
        -- a longer packet led by 0xFE is a row whose first value starts with that byte
        else if h = 0xFE ∧ msg.payload.length < 9 then (true, t.finish msg)
        else (false, t)
      | .Done => (true, t)

end ResponseTracker

/-! ### Which packet `next` stops at -/

namespace RequestTracker

/-- What `nextLoop` does with one packet: stop at a query, pass over anything else. -/
theorem nextLoop_of_view {t : RequestTracker} {m : Message} {rest : Bytes} (fuel : Nat)
    (h : takeMessage t.reader.view = some (m, rest)) :
    ∃ t', t'.reader.view = rest ∧ t'.caps = t.caps ∧ (m.payload ≠ [] → t'.last_seq = m.last_seq) ∧
      nextLoop (fuel + 1) t =
        match extractQuery m.payload t.caps with
        | none => nextLoop fuel t'
        | some q => (some q, t') := by
  obtain ⟨reader, hn, hv⟩ := next_of_view h
  rw [nextLoop, hn]
  rcases hp : m.payload with _ | ⟨cmd, body⟩
  · refine ⟨{ t with reader := reader }, hv, rfl, fun h => absurd rfl h, ?_⟩
    simp only [hp]
    rfl
  · refine ⟨{ t with reader := reader, last_cmd := cmd, last_seq := m.last_seq }, hv, rfl, fun _ => rfl,
      ?_⟩
    simp only [hp]
    by_cases hq : cmd = COM_QUERY
    · rw [if_neg (not_not_intro hq)]
    · rw [if_pos hq, extractQuery, if_pos (by simpa using hq)]

/-- Where `next` stops: behind the last message if none is a query, else behind the first that is. -/
def Stops (caps : UInt32) (v v' : Bytes) : Option Bytes → Prop
  | none => v' = (packets.split v).2 ∧ ∀ mw ∈ (packets.split v).1, extractQuery mw.1.payload caps = none
  | some q => ∃ ms m w, packets.split v = (ms ++ (m, w) :: (packets.split v').1, (packets.split v').2) ∧
      (∀ mw ∈ ms, extractQuery mw.1.payload caps = none) ∧ extractQuery m.payload caps = some q

theorem nextLoop_stops (fuel : Nat) : ∀ (t : RequestTracker), t.reader.view.length < fuel →
    Stops t.caps t.reader.view (nextLoop fuel t).2.reader.view (nextLoop fuel t).1 ∧
      (nextLoop fuel t).2.caps = t.caps := by
  induction fuel with
  | zero =>
    intro t h
    exact absurd h (Nat.not_lt_zero _)
  | succ fuel ih =>
    intro t hf
    rcases ht : takeMessage t.reader.view with _ | ⟨m, rest⟩
    · rw [nextLoop, next_of_view_none ht, Stops, Framing.split_none ht]
      simp
    · obtain ⟨t', hv, hc, -, hl⟩ := nextLoop_of_view fuel ht
      have hlt := Framing.take_length_lt (F := packets) ht
      obtain ⟨w, -, hw⟩ := packets.takes ht
      rw [hw] at ht ⊢
      have hs := Framing.split_some (F := packets) ht
      rw [hl]
      rcases hq : extractQuery m.payload t.caps with _ | q
      · obtain ⟨ih, ihc⟩ := ih t' (by rw [hv]; omega)
        rw [hc, hv] at ih
        refine ⟨?_, by rw [ihc, hc]⟩
        rcases hn : (nextLoop fuel t').1 with _ | q
        · simp only [hn, Stops, hs] at ih ⊢
          refine ⟨ih.1, ?_⟩
          rintro mw (_ | ⟨_, hm⟩)
          · exact hq
          · exact ih.2 mw hm
        · simp only [hn, Stops, hs] at ih ⊢
          obtain ⟨ms, m', w', hs', hnone, hsome⟩ := ih
          refine ⟨(m, w) :: ms, m', w', by rw [hs']; rfl, ?_, hsome⟩
          rintro mw (_ | ⟨_, hm⟩)
          · exact hq
          · exact hnone mw hm
      · refine ⟨⟨[], m, w, ?_, by simp, hq⟩, hc⟩
        rw [hs, hv]; rfl

theorem next_spec (t : RequestTracker) :
    Stops t.caps t.reader.view t.next.2.reader.view t.next.1 ∧ t.next.2.caps = t.caps :=
  nextLoop_stops _ t (by rw [MessageReader.length_view]; exact Nat.lt_succ_self _)

theorem nextLoop_of_view_none {t : RequestTracker} (h : takeMessage t.reader.view = none) :
    ∀ fuel, nextLoop fuel t = (none, t)
  | 0 => rfl
  | fuel + 1 => by rw [nextLoop, next_of_view_none h]

/-- A reader that holds no whole packet yields nothing. -/
theorem next_of_none {t : RequestTracker} (h : takeMessage t.reader.view = none) :
    t.next = (none, t) := nextLoop_of_view_none h _

/-- A reader that holds one packet yields its text if it is a query, and is empty afterwards. -/
theorem next_of_one {t : RequestTracker} {m : Message} (h : takeMessage t.reader.view = some (m, [])) :
    ∃ t', t'.reader.view = [] ∧ t'.caps = t.caps ∧ t.next = (extractQuery m.payload t.caps, t') := by
  obtain ⟨t', hv, hc, -, hl⟩ := nextLoop_of_view t.reader.buffered h
  refine ⟨t', hv, hc, ?_⟩
  rw [next, hl]
  rcases extractQuery m.payload t.caps with _ | q
  · exact nextLoop_of_view_none (by rw [hv]; rfl) _
  · rfl

end RequestTracker

end Barnacle.Agent
