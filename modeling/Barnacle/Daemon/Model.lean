import Barnacle.Arena.Held
import Barnacle.Pipes.Model

/-! The daemon and its heap (`src/daemon/main.cpp`, `src/common/stmtlist.cpp`): the statement records
    it publishes, the payloads it keeps for them, and what it retires. Each function runs to its end
    before the next event.

    A record is named by its arena pointer, and `recs` holds its fields. Every block comes from the
    arena and goes back through `retire`. What Valkey says, the clocks, the outcomes of bpf calls, and
    what clients do to a record's count and to a pipe's pointer are inputs. -/

namespace Barnacle
open Barnacle.Lib Barnacle.Arena
open Barnacle.Pipes (Status BNCL_STORE_MAX)
open Barnacle.Pipes.Sys (storable)

namespace Daemon

def BNCL_STMT_MAX : Nat := 512
/-- `sizeof(struct stmt)`. -/
def STMT_BYTES : Nat := 56

/-! ### Statement lists -/

/-- `find_first_not_of(" \t\r\n")` and its mirror image. -/
def isBlank (b : UInt8) : Bool := b == 32 || b == 9 || b == 13 || b == 10

def trim (line : Bytes) : Bytes := ((line.dropWhile isBlank).reverse.dropWhile isBlank).reverse

/-- `StmtList::add`. -/
def addStmt (stmts : List Bytes) (sql : Bytes) : List Bytes :=
  if sql = [] ∨ sql ∈ stmts then stmts else stmts ++ [sql]

/-- `StmtList::load`, from the lines of the file; `35` is `#`. -/
def loadList (lines : List Bytes) : List Bytes :=
  lines.foldl (fun stmts line =>
    if trim line = [] ∨ (trim line).head? = some 35 then stmts else addStmt stmts (trim line)) []

/-! ### Records -/

inductive StmtState
  | STMT_S_LOCAL
  | STMT_S_PENDING
  | STMT_S_ERROR
deriving DecidableEq, Repr

/-- `struct stmt`; a pointer is an arena offset and `0` is null. -/
structure Stmt where
  txt : Nat := 0
  len : Nat := 0
  ts : UInt64 := 0
  state : StmtState := .STMT_S_LOCAL
  id : UInt32 := 0
  data : Nat := 0
  data_len : Nat := 0
  ttl : UInt32 := 0
  refs : UInt32 := 0
deriving DecidableEq, Repr

/-- A `ttl` of zero means "do not expire"; a record with no timestamp has never been published. -/
def expired (st : Stmt) (now : UInt64) : Bool :=
  if st.ttl = 0 then false
  else if st.ts = 0 then true
  else now - st.ts > st.ttl.toUInt64 * 1000000000

/-- The fields `store` and `serve` write once the payload is in the arena. -/
def Stmt.publish (st : Stmt) (p len : Nat) (ttl : UInt32) (ts : UInt64) : Stmt :=
  { st with data := p, data_len := len, ttl := ttl, ts := ts, state := .STMT_S_LOCAL }

/-- `keep`: put a payload in the arena, reusing what is there when the bytes are identical. The old
    payload is retired, but only after the new one is safely allocated. -/
def keep (w : World) (st : Stmt) (body : Bytes) (now : UInt64) : Option Nat × World :=
  if st.data ≠ 0 ∧ st.data_len = body.length ∧ w.arena.mem.read st.data body.length = body then
    (some st.data, w)
  else
    let r := w.put body
    (r.1, if r.1.isSome ∧ st.data ≠ 0 then r.2.retire st.data now else r.2)

end Daemon

structure Daemon where
  heap : World := {}
  recs : Nat → Daemon.Stmt := fun _ => {}
  known : List (Bytes × Nat) := []
  orphans : List Nat := []
  /-- `dpipes[key].stmt` -/
  pipes : Nat → Nat := fun _ => 0
  next_id : UInt32 := 1

namespace Daemon

def setRec (d : Daemon) (p : Nat) (st : Stmt) : Daemon := { d with recs := Function.update d.recs p st }

/-- The text a record points at, as `store` and `serve` take it. -/
def text (d : Daemon) (st : Stmt) : Bytes :=
  if st.txt = 0 then [] else d.heap.arena.mem.read st.txt st.len

/-! ### Serving -/

/-- Valkey while it can be reached. No value is longer than memory. -/
structure Valkey where
  get : Bytes → Option Bytes
  fits : ∀ key body, get key = some body → body.length < 2 ^ 63

/-- What a request finds: whether the dpipe's own end could be spliced, whether the local tier may
    answer, Valkey (`none` when it cannot be reached), the TTL of new payloads and the clocks. -/
structure Env where
  spliced : Bool
  local_on : Bool
  valkey : Option Valkey
  ttl : UInt32
  now : UInt64
  /-- the clock `keep` reads for the retirement -/
  kept : UInt64

/-- `store`: a response a client observed becomes the payload of the record the pipe points at. -/
def store (d : Daemon) (key : Nat) (body : Bytes) (env : Env) : Daemon :=
  let p := d.pipes key
  if p = 0 then d
  else
    let st := d.recs p
    if d.text st = [] ∨ body = [] ∨ !storable body then d
    else
      let r := keep d.heap st body env.kept
      match r.1 with
      | none => { d with heap := r.2 }
      | some q => { d with heap := r.2 }.setRec p (st.publish q body.length env.ttl env.now)

/-- A STORE request, with the length check of `serve`. -/
def serveStore (d : Daemon) (key : Nat) (body : Bytes) (env : Env) : Daemon :=
  if body.length = 0 ∨ body.length > BNCL_STORE_MAX then d else d.store key body env

/-- The local copy answers: the local tier is on, and there is a payload that has not aged out. -/
def hit (st : Stmt) (env : Env) : Bool :=
  env.local_on && st.state = .STMT_S_LOCAL && st.data ≠ 0 && !expired st env.now

/-- `"bncl:" + sql`. -/
def valkeyKey (sql : Bytes) : Bytes := [98, 110, 99, 108, 58] ++ sql

/-- The payload Valkey has for the record's text. -/
def fetch (d : Daemon) (st : Stmt) (v : Valkey) : Option Bytes :=
  if d.text st = [] then none else (v.get (valkeyKey (d.text st))).filter (!·.isEmpty)

/-- A LOOKUP request: what `serve` does, and the status and id it replies with. -/
def serveLookup (d : Daemon) (key : Nat) (env : Env) : Option (Status × UInt32) × Daemon :=
  let p := d.pipes key
  let st := d.recs p
  if !env.spliced then (none, d)
  else if p = 0 then (some (.AGENT_CACHE_ERROR, 0), d)
  else if hit st env then (some (.AGENT_OK, st.id), d)
  else
    match env.valkey with
    | none => (some (.AGENT_CACHE_ERROR, st.id), d)
    | some v =>
      match d.fetch st v with
      | some payload =>
        let r := keep d.heap st payload env.kept
        match r.1 with
        | none => (some (.AGENT_CACHE_ERROR, st.id), { d with heap := r.2 })
        | some q => (some (.AGENT_OK, st.id),
            { d with heap := r.2 }.setRec p (st.publish q payload.length env.ttl env.now))
      | none => (some (.AGENT_WRITE_THROUGH, st.id), d.setRec p { st with data := 0, data_len := 0, ts := 0 })

/-! ### Retiring -/

/-- `retireStmt`: the payload, the text and the record itself. -/
def retireStmt (d : Daemon) (p : Nat) (now : UInt64) : Daemon :=
  let st := d.recs p
  let d := if st.data ≠ 0 then
      { d with heap := d.heap.retire st.data now }.setRec p { st with data := 0, data_len := 0 }
    else d
  let st := d.recs p
  let d := if st.txt ≠ 0 then
      { d with heap := d.heap.retire st.txt now }.setRec p { st with txt := 0 }
    else d
  { d with heap := d.heap.retire p now }

/-- The loop of `collectOrphans`, with the orphans kept so far. -/
def collectLoop (now : UInt64) : List Nat → Daemon → List Nat → Daemon × List Nat
  | [], d, keep => (d, keep)
  | p :: rest, d, keep =>
    if (d.recs p).refs = 0 then collectLoop now rest (d.retireStmt p now) keep
    else collectLoop now rest d (keep ++ [p])

def collectOrphans (d : Daemon) (now : UInt64) : Daemon :=
  let r := collectLoop now d.orphans d []
  { r.1 with orphans := r.2 }

/-! ### Loading the statement list -/

/-- One statement of the list: a known one keeps its record, a new one gets a text and a record. The
    load fails when the arena is exhausted or `stmts_map` refuses the entry. -/
def seed (d : Daemon) (next : List (Bytes × Nat)) (sql : Bytes) (ttl : UInt32) (refused : Bool) :
    Daemon × Option (List (Bytes × Nat)) :=
  if sql.length > BNCL_STMT_MAX - 1 then (d, some next)
  else
    match d.known.lookup sql with
    | some p =>
      (d.setRec p { d.recs p with ttl := ttl }, if refused then none else some (next ++ [(sql, p)]))
    | none =>
      let t := d.heap.put (sql ++ [0])
      let r := t.2.alloc STMT_BYTES
      match t.1, r.1 with
      | some txt, some p =>
        ({ d with heap := r.2, next_id := d.next_id + 1 }.setRec p
          { txt := txt, len := sql.length, id := d.next_id, ttl := ttl, refs := 1 },
          if refused then none else some (next ++ [(sql, p)]))
      | _, _ => ({ d with heap := r.2 }, none)

def seedAll (ttl : UInt32) (refuse : Bytes → Bool) :
    List Bytes → Daemon → List (Bytes × Nat) → Daemon × Option (List (Bytes × Nat))
  | [], d, next => (d, some next)
  | sql :: rest, d, next =>
    let r := d.seed next sql ttl (refuse sql)
    match r.2 with
    | none => (r.1, none)
    | some next => seedAll ttl refuse rest r.1 next

/-- A statement that left the list: the list's reference is dropped, and the record is retired or
    waits in `orphans`. -/
def remove (d : Daemon) (p : Nat) (now : UInt64) : Daemon :=
  let st := d.recs p
  let d := d.setRec p { st with refs := st.refs - 1 }
  if st.refs - 1 = 0 then d.retireStmt p now else { d with orphans := d.orphans ++ [p] }

/-- The statements that left the list, in the order `known` is walked in: it is an `unordered_map`, and
    the list stands here for the order it happens to have. -/
def removeAll (next : List (Bytes × Nat)) (now : UInt64) : List (Bytes × Nat) → Daemon → Daemon
  | [], d => d
  | (sql, p) :: rest, d =>
    if sql ∈ next.map Prod.fst then removeAll next now rest d
    else removeAll next now rest (d.remove p now)

/-- `loadStatements`, from the lines of the list file. A load that fails leaves `known` as it was. -/
def loadStatements (d : Daemon) (lines : List Bytes) (ttl : UInt32) (refuse : Bytes → Bool)
    (now : UInt64) : Daemon :=
  let r := seedAll ttl refuse (loadList lines) d []
  match r.2 with
  | none => r.1
  | some next => { removeAll next now r.1.known r.1 with known := next }

/-! ### Events -/

inductive Event
  | loadStatements (lines : List Bytes) (ttl : UInt32) (refuse : Bytes → Bool) (now : UInt64)
  | serveLookup (key : Nat) (env : Env)
  | serveStore (key : Nat) (body : Bytes) (env : Env)
  | collectOrphans (now : UInt64)
  | reclaim (now : UInt64)
  /-- clients take references and put them back -/
  | count (p : Nat) (refs : UInt32)
  /-- a client's `acquire` points a pipe at a record -/
  | point (key p : Nat)

def step (d : Daemon) : Event → Option Daemon
  | .loadStatements lines ttl refuse now => some (d.loadStatements lines ttl refuse now)
  | .serveLookup key env => some (d.serveLookup key env).2
  | .serveStore key body env => some (d.serveStore key body env)
  | .collectOrphans now => some (d.collectOrphans now)
  | .reclaim now => some { d with heap := d.heap.reclaim now }
  | .count p refs => some (d.setRec p { d.recs p with refs := refs })
  | .point key p => some { d with pipes := Function.update d.pipes key p }

/-- `Arena::open` has laid the heap out over a region of `len` bytes. -/
def start (mem : Mem) (len : Nat) : Daemon := { heap := World.apply {} (.init (some mem) len) }

end Daemon

end Barnacle
