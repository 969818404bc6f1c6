import Barnacle.Lib.Bytes

/-! The Valkey client (`src/common/valkey.cpp`): commands written to a socket, replies read from it
    through one buffer that is carried over from call to call.

    What a socket does is a script of its own, one entry for each `read` and each `write` that is made on
    it: a `read` returns some bytes (none at the end of the stream), is interrupted, or fails; a `write`
    takes some bytes, is interrupted, or fails. A call that finds no entry left for its `read` is still
    waiting, which is the outer `none` of every function here. -/

namespace Barnacle.Valkey
open Barnacle.Lib

def CR : UInt8 := 13
def LF : UInt8 := 10
def crlf : Bytes := [CR, LF]

/-! ### Numbers in text -/

def digit (n : Nat) : UInt8 := UInt8.ofNat (48 + n % 10)

def decimalLoop : Nat → Nat → Bytes
  | 0, _ => []
  | fuel + 1, n => if n < 10 then [digit n] else decimalLoop fuel (n / 10) ++ [digit n]

/-- `std::to_string` of a number that is not negative. -/
def decimal (n : Nat) : Bytes := decimalLoop (n + 1) n

def isDigit (b : UInt8) : Bool := 48 ≤ b && b ≤ 57

def isSpace (b : UInt8) : Bool := b = 32 || (9 ≤ b && b ≤ 13)

/-- The number the digits at the front denote. -/
def digitsVal (s : Bytes) : Nat := (s.takeWhile isDigit).foldl (fun n b => 10 * n + (b.toNat - 48)) 0

def LONG_MAX : Int := 2 ^ 63 - 1
def LONG_MIN : Int := -2 ^ 63

/-- `strtol(s, nullptr, 10)`: spaces, a sign, digits; out of range it stops at the nearest `long`. -/
def strtol (s : Bytes) : Int :=
  match s.dropWhile isSpace with
  | [] => 0
  | b :: rest =>
    if b = 45 then max (-(digitsVal rest : Int)) LONG_MIN
    else if b = 43 then min (digitsVal rest) LONG_MAX
    else min (digitsVal (b :: rest)) LONG_MAX

/-! ### Sockets -/

/-- What one `read` returns: some bytes, an interruption, or a failure. No bytes are the end of the
    stream. -/
inductive Recv where | got (bytes : Bytes) | eintr | failed
  deriving DecidableEq, Repr

/-- What one `write` returns: how many bytes it took, an interruption, or a failure. -/
inductive Send where | took (n : Nat) | eintr | failed
  deriving DecidableEq, Repr

/-- A connected socket: the `read`s and `write`s to come, and what has been written. A `write` past the
    script takes all it is given. -/
structure Socket where
  reads : List Recv := []
  writes : List Send := []
  sent : Bytes := []
  deriving DecidableEq, Repr

end Valkey

open Barnacle.Lib Barnacle.Valkey

/-- The client. `fd` is the socket while there is one; `dials` is what connecting anew will come to. -/
structure Valkey where
  fd : Option Valkey.Socket := none
  inbuf : Bytes := []
  dials : List (Option Valkey.Socket) := []
  deriving DecidableEq, Repr

namespace Valkey

def healthy (v : Valkey) : Bool := v.fd.isSome

def disconnect (v : Valkey) : Valkey := { v with fd := none, inbuf := [] }

/-- False if the server cannot be reached. -/
def connect (v : Valkey) : Bool × Valkey :=
  if v.healthy then (true, v)
  else
    match v.dials with
    | some s :: dials => (true, { v with fd := some s, dials := dials })
    | none :: dials => (false, { v with dials := dials })
    | [] => (false, v)

/-! ### Writing -/

def encodeArg (a : Bytes) : Bytes := [36] ++ decimal a.length ++ crlf ++ a ++ crlf

/-- `"*" + size`, then every argument with its length. -/
def encodeCommand (args : List Bytes) : Bytes :=
  [42] ++ decimal args.length ++ crlf ++ args.flatMap encodeArg

/-- `write` until everything is taken: the bytes taken, the `write`s left, and whether it succeeded. -/
def sendLoop : List Send → Bytes → Bytes × List Send × Bool
  | [], out => (out, [], true)
  | w :: writes, out =>
    if out = [] then ([], w :: writes, true)
    else
      match w with
      | .eintr => sendLoop writes out
      | .failed => ([], writes, false)
      | .took n =>
        if n = 0 then ([], writes, false)
        else
          let r := sendLoop writes (out.drop n)
          (out.take n ++ r.1, r.2)

def sendCommand (v : Valkey) (args : List Bytes) : Bool × Valkey :=
  match v.fd with
  | none => (false, v.disconnect)
  | some s =>
    let r := sendLoop s.writes (encodeCommand args)
    if r.2.2 then (true, { v with fd := some { s with writes := r.2.1, sent := s.sent ++ r.1 } })
    else (false, v.disconnect)

/-! ### Reading -/

/-- `inbuf_.find("\r\n")`: the bytes in front of the first line end, and those behind it. -/
def findCrlf : Bytes → Option (Bytes × Bytes)
  | [] => none
  | b :: rest =>
    if b = CR ∧ rest.head? = some LF then some ([], rest.tail)
    else (findCrlf rest).map fun r => (b :: r.1, r.2)

/-- What a read off the buffer comes to: the bytes read, those left in the buffer and the `read`s left;
    or the connection is lost. -/
inductive Took where | bytes (x inbuf : Bytes) (reads : List Recv) | lost
  deriving DecidableEq, Repr

/-- What both reading functions do: until the buffer holds what is asked for, `read` more. -/
def readLoop (take : Bytes → Option (Bytes × Bytes)) : List Recv → Bytes → Option Took
  | [], inbuf => (take inbuf).map fun x => .bytes x.1 x.2 []
  | r :: reads, inbuf =>
    match take inbuf with
    | some x => some (.bytes x.1 x.2 (r :: reads))
    | none =>
      match r with
      | .eintr => readLoop take reads inbuf
      | .failed => some .lost
      | .got bytes => if bytes = [] then some .lost else readLoop take reads (inbuf ++ bytes)

/-- The first `want` bytes, once there are as many. -/
def takeExactly (want : Nat) (inbuf : Bytes) : Option (Bytes × Bytes) :=
  if inbuf.length < want then none else some (inbuf.take want, inbuf.drop want)

/-- Read off the buffer and the socket; on loss the connection is dropped. -/
def reading (v : Valkey) (take : Bytes → Option (Bytes × Bytes)) : Option (Option Bytes × Valkey) :=
  match v.fd with
  | none => some (none, v.disconnect)
  | some s =>
    (readLoop take s.reads v.inbuf).map fun t =>
      match t with
      | .bytes x inbuf reads => (some x, { v with fd := some { s with reads := reads }, inbuf := inbuf })
      | .lost => (none, v.disconnect)

def readLine (v : Valkey) : Option (Option Bytes × Valkey) := v.reading findCrlf

def readExactly (v : Valkey) (want : Nat) : Option (Option Bytes × Valkey) := v.reading (takeExactly want)

/-! ### The calls -/

/-- What the calls have in common: connect if need be, send the command and read a line. `none` inside
    is failure. -/
def command (v : Valkey) (args : List Bytes) : Option (Option Bytes × Valkey) :=
  let c := v.connect
  if !c.1 then some (none, c.2)
  else
    let s := c.2.sendCommand args
    if !s.1 then some (none, s.2) else s.2.readLine

/-- The value, if there is one. -/
def get (v : Valkey) (key : Bytes) : Option (Option Bytes × Valkey) :=
  match v.command [[71, 69, 84], key] with
  | none => none
  | some (none, v) => some (none, v)
  | some (some [], v) => some (none, v)
  | some (some (b :: line), v) =>
    if b = 36 then
      let n := strtol line
      -- nil: cache miss
      if n < 0 then some (none, v)
      else
        (v.readExactly (n.toNat + 2)).map fun r => (r.1.map fun body => body.take n.toNat, r.2)
    else if b = 45 then some (none, v)
    else some (none, v.disconnect)

/-- The number of keys; `none` inside is failure. -/
def dbsize (v : Valkey) : Option (Option Int × Valkey) :=
  match v.command [[68, 66, 83, 73, 90, 69]] with
  | none => none
  | some (none, v) => some (none, v)
  | some (some line, v) =>
    if line.length < 2 ∨ line.head? ≠ some 58 then some (none, v) else some (some (strtol line.tail), v)

def setex (v : Valkey) (key val : Bytes) (ttl_secs : Int) : Option (Bool × Valkey) :=
  let ttl := if ttl_secs ≤ 0 then 1 else ttl_secs
  match v.command [[83, 69, 84, 69, 88], key, decimal ttl.toNat, val] with
  | none => none
  | some (none, v) => some (false, v)
  | some (some line, v) => some (line.head? = some 43, v)

end Valkey

end Barnacle
