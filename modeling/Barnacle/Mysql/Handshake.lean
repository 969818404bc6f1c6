import Barnacle.Mysql.Protocol

/-! The opening of a connection (`src/common/mysql/protocol.cpp`): the server's HandshakeV10 and the
    client's reply, which is cut short when TLS is to follow. -/

namespace Barnacle.Mysql
open Barnacle.Lib

def CLIENT_SECURE_CONNECTION : UInt32 := 0x00008000
def CLIENT_PLUGIN_AUTH : UInt32 := 0x00080000

/-- A NUL-terminated string and the cursor past the terminator. Where there is none the cursor is left
    at the end. -/
def readNulString (data : Bytes) (pos : Nat) : Option Bytes × Nat :=
  let s := (data.drop pos).takeWhile (· ≠ 0)
  if pos + s.length ≥ data.length then (none, pos + s.length) else (some s, pos + s.length + 1)

/-! ### The server -/

structure ServerHandshake where
  protocol_version : UInt8
  server_version : Bytes
  connection_id : UInt32
  /-- both parts joined -/
  scramble : Bytes
  capabilities : UInt32
  charset : UInt8 := 0
  status_flags : UInt16 := 0
  auth_plugin : Bytes := []
  deriving DecidableEq, Repr

/-- How long the second part of the scramble is: at least 13 bytes, the last of them a NUL. -/
def part2Length (auth_data_len : UInt8) : Nat :=
  let part2 := if auth_data_len > 8 then auth_data_len.toNat - 8 else 13
  if part2 < 13 then 13 else part2

/-- The second part of the scramble, if it is sent, and the cursor past it. -/
def authPart2 (data : Bytes) (pos : Nat) (capabilities : UInt32) (auth_data_len : UInt8) : Option (Bytes × Nat) :=
  if hasCap capabilities CLIENT_SECURE_CONNECTION then
    let part2 := part2Length auth_data_len
    if pos + part2 > data.length then none else some ((data.drop pos).take (part2 - 1), pos + part2)
  else some ([], pos)

/-- The plugin's name, if it is sent. -/
def authPlugin (data : Bytes) (pos : Nat) (capabilities : UInt32) : Bytes :=
  if hasCap capabilities CLIENT_PLUGIN_AUTH then
    match readNulString data pos with
    | (some plugin, _) => plugin
    | (none, pos) => if pos < data.length then data.drop pos else []
  else []

/-- What a server that does not stop after the low capabilities sends on. -/
def serverTail (data : Bytes) (pos : Nat) (out : ServerHandshake) : Option ServerHandshake :=
  if pos + 1 > data.length then none
  else
    let charset := data.getD pos 0
    let pos := pos + 1
    if pos + 2 > data.length then none
    else
      let status_flags := UInt16.ofNat (leAt data pos 2)
      let pos := pos + 2
      if pos + 2 > data.length then none
      else
        let caps_hi := UInt32.ofNat (leAt data pos 2)
        let pos := pos + 2
        let capabilities := out.capabilities ||| (caps_hi <<< 16)
        if pos + 1 > data.length then none
        else
          let auth_data_len := data.getD pos 0
          -- ten reserved bytes
          let pos := pos + 1 + 10
          if pos > data.length then none
          else
            match authPart2 data pos capabilities auth_data_len with
            | none => none
            | some (part2, pos) =>
              some { out with
                charset, status_flags, capabilities, scramble := out.scramble ++ part2
                auth_plugin := authPlugin data pos capabilities }

/-- Everything from the connection id on. -/
def serverBody (data : Bytes) (pos : Nat) (protocol_version : UInt8) (server_version : Bytes) :
    Option ServerHandshake :=
  if pos + 4 > data.length then none
  else
    let connection_id := UInt32.ofNat (leAt data pos 4)
    let pos := pos + 4
    if pos + 9 > data.length then none
    else
      let scramble := (data.drop pos).take 8
      -- a filler byte follows
      let pos := pos + 8 + 1
      if pos + 2 > data.length then none
      else
        let caps_lo := UInt32.ofNat (leAt data pos 2)
        let pos := pos + 2
        let out := { protocol_version, server_version, connection_id, scramble, capabilities := caps_lo }
        if pos ≥ data.length then some out else serverTail data pos out

def parseServerHandshake (data : Bytes) : Option ServerHandshake :=
  match data[0]? with
  | none => none
  | some protocol_version =>
    if protocol_version ≠ 10 then none
    else
      match readNulString data 1 with
      | (none, _) => none
      | (some server_version, pos) => serverBody data pos protocol_version server_version

/-! ### The client -/

structure ClientHandshake where
  capabilities : UInt32
  max_packet_size : UInt32
  charset : UInt8
  /-- the truncated form: TLS follows -/
  ssl_request : Bool := false
  username : Bytes := []
  database : Bytes := []
  deriving DecidableEq, Repr

/-- Step over the auth response. The cursor may end up past the end; there is none where the response
    is cut off. -/
def skipAuth (data : Bytes) (pos : Nat) (capabilities : UInt32) : Option Nat :=
  if hasCap capabilities CLIENT_SECURE_CONNECTION then
    if pos ≥ data.length then none else some (pos + 1 + (data.getD pos 0).toNat)
  else
    match readNulString data pos with
    | (none, _) => none
    | (some _, pos) => some pos

def clientDatabase (data : Bytes) (pos : Nat) : Bytes :=
  if pos < data.length then (readNulString data pos).1.getD [] else []

/-- The reply's fixed prefix is 32 bytes; what is missing behind it is left empty. -/
def parseClientHandshake (data : Bytes) : Option ClientHandshake :=
  if data.length < 32 then none
  else
    let out : ClientHandshake :=
      { capabilities := UInt32.ofNat (leAt data 0 4), max_packet_size := UInt32.ofNat (leAt data 4 4)
        charset := data.getD 8 0 }
    if 32 ≥ data.length then some { out with ssl_request := true }
    else
      match readNulString data 32 with
      | (none, _) => some out
      | (some username, pos) =>
        match skipAuth data pos out.capabilities with
        | none => some { out with username }
        | some pos => some { out with username, database := clientDatabase data pos }

end Barnacle.Mysql
