import Barnacle.Mysql.Protocol

/-! A response as data (`src/common/mysql/resultset.cpp`): columns and rows, the wire packets
    generated from them for a connection's capabilities, and the parser that takes them back.

        column count │ column definition × n │ EOF (without DEPRECATE_EOF) │ row × m │ terminator

    Each box is one message, so each is split by `encodeMessage` when it reaches 16 MiB. The
    separator and the terminator are the only packets whose shape depends on the capabilities. -/

namespace Barnacle.Mysql
open Barnacle.Lib

/-- The capabilities a cached response is stored under: protocol 4.1, transactions, deprecated EOF. -/
def BNCL_CANONICAL_CAPS : UInt32 := 0x01002200

/-- Protocol::ColumnDefinition41, every field kept. -/
structure Column where
  catalog : Bytes
  schema : Bytes
  table : Bytes
  org_table : Bytes
  name : Bytes
  org_name : Bytes
  charset : UInt16
  length : UInt32
  type : UInt8
  flags : UInt16
  decimals : UInt8
  deriving DecidableEq, Repr

/-- One field; `none` is SQL NULL, which is not the empty string. -/
abbrev Value := Option Bytes
abbrev Row := List Value

structure ResultSet where
  cols : List Column
  rows : List Row
  status : UInt16
  warnings : UInt16
  deriving DecidableEq, Repr

/-! ### Writing -/

def putU16 (x : UInt16) : Bytes := leBytes 2 x.toNat
def putU32 (x : UInt32) : Bytes := leBytes 4 x.toNat

/-- Length-encoded integer, the width chosen by magnitude. -/
def putLenEnc (x : Nat) : Bytes :=
  if x < 0xFB then [UInt8.ofNat x]
  else if x ≤ 0xFFFF then 0xFC :: leBytes 2 x
  else if x ≤ 0xFFFFFF then 0xFD :: leBytes 3 x
  else 0xFE :: leBytes 8 x

def putLenEncStr (s : Bytes) : Bytes := putLenEnc s.length ++ s

/-- Append one payload as a message and advance the sequence id — by one, whatever number of wire
    packets the message took. -/
def emit (out : Bytes × UInt8) (payload : Bytes) : Bytes × UInt8 :=
  (out.1 ++ encodeMessage payload out.2, out.2 + 1)

def columnPayload (c : Column) : Bytes :=
  putLenEncStr c.catalog ++ putLenEncStr c.schema ++ putLenEncStr c.table ++
    putLenEncStr c.org_table ++ putLenEncStr c.name ++ putLenEncStr c.org_name ++
    putLenEnc 0x0c ++ putU16 c.charset ++ putU32 c.length ++ [c.type] ++ putU16 c.flags ++
    [c.decimals] ++ putU16 0

def valuePayload : Value → Bytes
  | none => [0xFB]
  | some v => putLenEncStr v

def rowPayload (r : Row) : Bytes := (r.map valuePayload).flatten

/-- The terminating packet: a five-byte EOF, or an OK packet wearing an 0xFE header. -/
def terminator (rs : ResultSet) (caps : UInt32) : Bytes :=
  if hasCap caps CLIENT_DEPRECATE_EOF then
    0xFE :: (putLenEnc 0 ++ putLenEnc 0 ++ putU16 rs.status ++ putU16 rs.warnings)
  else 0xFE :: (putU16 rs.warnings ++ putU16 rs.status)

/-- The payloads of a response, in wire order. -/
def responsePayloads (rs : ResultSet) (caps : UInt32) : List Bytes :=
  putLenEnc rs.cols.length :: rs.cols.map columnPayload ++
    (if hasCap caps CLIENT_DEPRECATE_EOF then []
     else [0xFE :: (putU16 rs.warnings ++ putU16 rs.status)]) ++
    rs.rows.map rowPayload ++ [terminator rs caps]

def encodeResultSet (rs : ResultSet) (caps : UInt32) (seq : UInt8) : Bytes :=
  ((responsePayloads rs caps).foldl emit ([], seq)).1

/-! ### Reading -/

def parseColumn (m : Message) : Option Column := do
  let d := m.payload
  let (catalog, pos) ← readLenEncString d 0
  let (schema, pos) ← readLenEncString d pos
  let (table, pos) ← readLenEncString d pos
  let (org_table, pos) ← readLenEncString d pos
  let (name, pos) ← readLenEncString d pos
  let (org_name, pos) ← readLenEncString d pos
  let (_, pos) ← readLenEnc d pos
  if pos + 10 > d.length then none
  else some { catalog, schema, table, org_table, name, org_name,
              charset := UInt16.ofNat (leAt d pos 2),
              length := UInt32.ofNat (leAt d (pos + 2) 4),
              type := d.getD (pos + 6) 0,
              flags := UInt16.ofNat (leAt d (pos + 7) 2),
              decimals := d.getD (pos + 9) 0 }

/-- `n` more fields from `pos`, after those already in `r`. -/
def parseFields (d : Bytes) : Nat → Nat → Row → Option Row
  | 0, _, r => some r
  | n + 1, pos, r =>
    match d[pos]? with
    | none => none
    | some b =>
      if b = 0xFB then parseFields d n (pos + 1) (r ++ [none])
      else
        match readLenEncString d pos with
        | none => none
        | some (s, pos) => parseFields d n pos (r ++ [some s])

def parseRow (m : Message) (ncols : Nat) : Option Row := parseFields m.payload ncols 0 []

/-- `n` column definitions off the reader, after those already in `cols`. -/
def parseColumns : Nat → MessageReader → List Column → Option (List Column × MessageReader)
  | 0, rd, cols => some (cols, rd)
  | n + 1, rd, cols =>
    match rd.next with
    | none => none
    | some (m, rd) =>
      match parseColumn m with
      | none => none
      | some c => parseColumns n rd (cols ++ [c])

/-- Status and warnings of a terminator. A read that fails leaves the cursor where it was, and a
    packet too short for the two words leaves both at zero. -/
def terminatorStatus (d : Bytes) (caps : UInt32) : UInt16 × UInt16 :=
  if hasCap caps CLIENT_DEPRECATE_EOF then
    let p := ((readLenEnc d 1).map Prod.snd).getD 1
    let p := ((readLenEnc d p).map Prod.snd).getD p
    if p + 4 ≤ d.length then (UInt16.ofNat (leAt d p 2), UInt16.ofNat (leAt d (p + 2) 2))
    else (0, 0)
  else if d.length ≥ 5 then (UInt16.ofNat (leAt d 3 2), UInt16.ofNat (leAt d 1 2))
  else (0, 0)

/-- Rows until the terminator: the rows, its status and its warnings. -/
def parseRows (caps : UInt32) (ncols : Nat) :
    Nat → MessageReader → List Row → Option (List Row × UInt16 × UInt16)
  | 0, _, _ => none
  | fuel + 1, rd, rows =>
    match rd.next with
    | none => none
    | some (m, rd) =>
      match m.payload[0]? with
      | none => none
      | some h =>
        if h = 0xFF then none
        else if h = 0xFE ∧ m.payload.length < 9 then some (rows, terminatorStatus m.payload caps)
        else
          match parseRow m ncols with
          | none => none
          | some r => parseRows caps ncols fuel rd (rows ++ [r])

/-- Everything after the column count: definitions, separator, rows, terminator. -/
def parseBody (caps : UInt32) (ncols : Nat) (rd : MessageReader) : Option ResultSet :=
  match parseColumns ncols rd [] with
  | none => none
  | some (cols, rd) =>
    let sep := if hasCap caps CLIENT_DEPRECATE_EOF then some rd else rd.next.map Prod.snd
    match sep with
    | none => none
    | some rd =>
      match parseRows caps cols.length (rd.buffered + 1) rd [] with
      | none => none
      | some (rows, status, warnings) => some { cols, rows, status, warnings }

/-- Parse a complete COM_QUERY response; `none` for anything that is not a plain result set. -/
def parseResultSet (data : Bytes) (caps : UInt32) : Option ResultSet :=
  match (({} : MessageReader).append data).next with
  | none => none
  | some (m, rd) =>
    if m.payload = [] then none
    else if classifyResponse m.payload caps ≠ .ResultSet then none
    else
      match readLenEnc m.payload 0 with
      | none => none
      | some (ncols, _) => if ncols = 0 then none else parseBody caps ncols rd

/-- A response with one column `n` and one row, as it is cached. -/
def oneRow : Bytes :=
  encodeResultSet ⟨[⟨[], [], [], [], [110], [], 0, 0, 3, 0, 0⟩], [[some [49]]], 0, 0⟩
    BNCL_CANONICAL_CAPS 1

end Barnacle.Mysql
