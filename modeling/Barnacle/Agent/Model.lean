import Barnacle.Agent.Session
import Barnacle.Daemon.Model

/-! The agent inside the application (`src/uclient/agent.cpp`): one connection, its `SSL_write` and
    its `SSL_read` replaced.

    A write is parsed, and every query in it is considered: let through, let through with its response
    captured, or held back while the daemon is asked. A read settles what was asked — the response is
    owed from the cache, or the held bytes are sent after all — and otherwise hands the server's bytes
    on, watching them for transaction state, framing and a response to capture.

    What the rest of the system answers is an input of each call: the daemon's switches, whether the
    arena holds a payload and a pipe can be had, the daemon's reply and the payload then found, and
    the bytes the real `SSL_read` returns. -/

namespace Barnacle.Agent
open Barnacle.Lib Barnacle.Mysql
open Barnacle.Daemon (BNCL_STMT_MAX)

/-- What is assumed of a connection whose handshake was not seen. -/
def baseCaps : UInt32 := CLIENT_PROTOCOL_41 ||| CLIENT_TRANSACTIONS

/-- The one status byte of a reply that lets a payload be served. -/
def REPLY_OK : UInt8 := 0x01

/-- `struct Conn`. -/
structure Conn where
  req : RequestTracker := ({} : RequestTracker).begin baseCaps
  resp : ResponseTracker := {}
  /-- a response owed to the caller, and how far through it we are -/
  owed : Bytes := []
  owed_off : Nat := 0
  in_txn : Bool := false
  /-- read-through capture -/
  pending : Bytes := []
  captured : Bytes := []
  rd : MessageReader := {}
  capturing : Bool := false
  /-- the connection's framing, once learned -/
  caps : UInt32 := 0
  caps_known : Bool := false
  last_seq : UInt8 := 0
  /-- between asking the daemon and hearing back, and the bytes held meanwhile -/
  awaiting : Bool := false
  query : Bytes := []
  deriving DecidableEq, Repr

/-- The daemon's switches and the statement list, as `refreshLocked` last saw them. -/
structure Switches where
  on : Bool := true
  local_on : Bool := true
  list : List Bytes := []

/-- What the shared maps answer for one statement: whether `lookupPayload` finds a payload, whether
    a pipe is acquired and whether the request is posted on it. -/
structure Look where
  payload : Bool := false
  acquired : Bool := false
  posted : Bool := false

/-- `lookupPayload` and `acquire` refuse a text the statement table cannot key. -/
def keyed (sql : Bytes) : Bool := sql.length ≤ BNCL_STMT_MAX - 1

/-- `(int)` of a size. -/
def intOf (n : Nat) : Int := (n : Int).bmod (2 ^ 32)

namespace Conn

/-- The capabilities a response is read under. -/
def assumed (c : Conn) : UInt32 := if c.caps_known then c.caps else baseCaps

/-! ### The write side -/

/-- What came of one statement. -/
inductive Act where | pass | capture | ask
  deriving DecidableEq, Repr

/-- The body of `handleWrite`'s loop, for one statement of the buffer. -/
def consider (sw : Switches) (look : Look) (buf : Bytes) (c : Conn) (sql : Bytes) : Act × Conn :=
  let c := { c with last_seq := c.req.last_seq, resp := ResponseTracker.begin c.assumed }
  if !sw.on then (.pass, c)
  else if sql ∉ sw.list then (.pass, c)
  else if c.in_txn then (.pass, c)
  else if sw.local_on && !(keyed sql && look.payload) then
    (.capture, { c with pending := sql, captured := [], rd := c.rd.reset, capturing := true })
  else if !(keyed sql && look.acquired) then (.pass, c)
  else if !look.posted then (.pass, c)
  else (.ask, { c with awaiting := true, pending := sql, query := buf })

/-- What `handleWrite` leaves: whether the write is suppressed, and what came of each statement. -/
structure Handled where
  conn : Conn
  suppress : Bool
  acts : List (Act × Bytes)

/-- One statement after another; `looks i` is what the maps answer for the `i`-th. -/
def handleLoop (sw : Switches) (looks : Nat → Look) (buf : Bytes) : Nat → Nat → Conn → Bytes → Handled
  | 0, _, c, _ => ⟨c, false, []⟩
  | fuel + 1, i, c, sql =>
    let r := consider sw (looks i) buf c sql
    if r.1 = .ask then ⟨r.2, true, [(.ask, sql)]⟩
    else
      let n := r.2.req.next
      match n.1 with
      | none => ⟨{ r.2 with req := n.2 }, false, [(r.1, sql)]⟩
      | some sql' =>
        let h := handleLoop sw looks buf fuel (i + 1) { r.2 with req := n.2 } sql'
        ⟨h.conn, h.suppress, (r.1, sql) :: h.acts⟩

/-- Suppress the write if it can be answered. -/
def handleWrite (c : Conn) (sw : Switches) (looks : Nat → Look) (buf : Bytes) : Handled :=
  let n := c.req.feed buf
  match n.1 with
  | none => ⟨{ c with req := n.2 }, false, []⟩
  | some sql => handleLoop sw looks buf (n.2.reader.buffered + 1) 0 { c with req := n.2 } sql

/-- `rep_SSL_write`: what `handleWrite` left, and the bytes that reach the real `SSL_write`. -/
def rep_SSL_write (c : Conn) (sw : Switches) (looks : Nat → Look) (buf : Bytes) : Handled × Bytes :=
  if buf = [] then (⟨c, false, []⟩, [])
  else
    let h := c.handleWrite sw looks buf
    (h, if h.suppress then [] else buf)

/-! ### The read side -/

/-- Hand over as much of the owed response as the call has room for. -/
def drainLocked (c : Conn) (cap : Nat) : Bytes × Conn :=
  if c.owed_off ≥ c.owed.length then ([], c)
  else
    let n := min (c.owed.length - c.owed_off) cap
    let c' := { c with owed_off := c.owed_off + n }
    ((c.owed.drop c.owed_off).take n,
      if c'.owed_off ≥ c'.owed.length then { c' with owed := [], owed_off := 0 } else c')

/-- Whether the connection negotiated CLIENT_DEPRECATE_EOF, from one captured response: the reading
    that succeeds, or the one that finds more rows when both do. -/
def inferCaps (resp : Bytes) : Option UInt32 :=
  match parseResultSet resp baseCaps, parseResultSet resp (baseCaps ||| CLIENT_DEPRECATE_EOF) with
  | some plain, some deprecated =>
    if plain.rows.length ≥ deprecated.rows.length then some baseCaps
    else some (baseCaps ||| CLIENT_DEPRECATE_EOF)
  | some _, none => some baseCaps
  | none, some _ => some (baseCaps ||| CLIENT_DEPRECATE_EOF)
  | none, none => none

/-- Take the framing from a captured response, unless it is known. -/
def learn (c : Conn) (whole : Bytes) : Conn :=
  if c.caps_known then c
  else
    match inferCaps whole with
    | some caps => { c with caps := caps, caps_known := true }
    | none => c

/-- A captured response is complete: learn the framing from it and return what is to be stored, under
    the canonical capabilities. -/
def harvest (c : Conn) : Conn × Option Bytes :=
  let whole := c.captured
  let c := learn { c with capturing := false, captured := [] } whole
  if c.resp.poisoned || c.in_txn || !c.caps_known then (c, none)
  else
    match parseResultSet whole c.caps with
    | none => (c, none)
    | some rs => ({ c with pending := [] }, some (encodeResultSet rs BNCL_CANONICAL_CAPS 1))

/-- The body of `observe`'s loop, for one message; what it hands the daemon is the statement pending
    and the response to store for it. -/
def hear (c : Conn) (m : Message) : Conn × List (Bytes × Bytes) :=
  let f := c.resp.feed m
  let c := { c with resp := f.2 }
  if !f.1 then (c, [])
  else
    let c := { c with in_txn := c.resp.in_transaction }
    if !c.capturing then (c, [])
    else
      let r := c.harvest
      (r.1, (r.2.map fun canon => (c.pending, canon)).toList)

def observeLoop : Nat → Conn → Conn × List (Bytes × Bytes)
  | 0, c => (c, [])
  | fuel + 1, c =>
    match c.rd.next with
    | none => (c, [])
    | some (m, rd) =>
      let r := hear { c with rd := rd } m
      let o := observeLoop fuel r.1
      (o.1, r.2 ++ o.2)

/-- Watch bytes the server sent. -/
def observe (c : Conn) (chunk : Bytes) : Conn × List (Bytes × Bytes) :=
  let captured := if c.capturing then c.captured ++ chunk else c.captured
  let c := { c with rd := c.rd.append chunk, captured := captured }
  observeLoop (c.rd.buffered + 1) c

/-- The response a reply lets us owe: the daemon confirmed the payload, the framing is known, and the
    payload found parses. -/
def answer (c : Conn) (reply : Option UInt8) (payload : Option Bytes) : Option ResultSet :=
  if reply = some REPLY_OK ∧ c.caps_known then
    payload.bind fun canon => parseResultSet canon BNCL_CANONICAL_CAPS
  else none

/-- What a read leaves: the bytes returned to the caller, those of them that are the server's, those
    sent to the server after all, and what was handed to the daemon. -/
structure Taken where
  conn : Conn
  got : Bytes := []
  heard : Bytes := []
  resent : Bytes := []
  handed : List (Bytes × Bytes) := []

/-- What the real `SSL_write` sends of the buffer held back: its length is passed as an `int`. -/
def resend (c : Conn) : Bytes := c.query.take (intOf c.query.length).toNat

/-- Act on the verdict. `reply` is the status byte read off the socket, `none` when the wait ran out
    or less than a reply was read. -/
def settle (c : Conn) (cap : Nat) (reply : Option UInt8) (payload : Option Bytes) : Taken :=
  if !c.awaiting then { conn := c }
  else
    let c := { c with awaiting := false }
    match c.answer reply payload with
    | some rs =>
      let d := drainLocked { c with owed := encodeResultSet rs c.caps (c.last_seq + 1), owed_off := 0,
                                    pending := [] } cap
      { conn := d.2, got := d.1 }
    | none =>
      if c.query = [] then { conn := c }
      else { conn := { c with captured := [], rd := c.rd.reset, capturing := true }, resent := c.resend }

/-- What one `SSL_read` meets: the room in the caller's buffer, the daemon's reply and the payload
    then found, and the bytes the real `SSL_read` returns if it is called. -/
structure Read where
  cap : Nat
  reply : Option UInt8 := none
  payload : Option Bytes := none
  chunk : Bytes := []
  fits : chunk.length ≤ cap

/-- This read answers the statement asked about from the cache. -/
def answers (c : Conn) (r : Read) : Bool :=
  c.awaiting && decide (r.cap > 0) && (c.answer r.reply r.payload).isSome

/-- The rest of a read, once there is nothing to settle: drain what is owed, else ask the server. -/
def readOn (c : Conn) (r : Read) : Taken :=
  let d := if r.cap > 0 then c.drainLocked r.cap else ([], c)
  if d.1 ≠ [] then { conn := d.2, got := d.1 }
  else if r.chunk = [] then { conn := d.2 }
  else
    let o := d.2.observe r.chunk
    { conn := o.1, got := r.chunk, heard := r.chunk, handed := o.2 }

/-- `rep_SSL_read`. -/
def rep_SSL_read (c : Conn) (r : Read) : Taken :=
  let s := if r.cap > 0 then c.settle r.cap r.reply r.payload else { conn := c }
  if s.got ≠ [] then s
  else { s.conn.readOn r with resent := s.resent }

end Conn

end Barnacle.Agent
