import Mathlib.Logic.Function.Basic
import Barnacle.Lib.Transition
import Barnacle.Mysql.ResultSet

/-! The pipes between clients and daemon (`src/uclient/shared.cpp`, `src/daemon/main.cpp`): any number
    of clients, one connection each, interleaved with the daemon. Each bpf map call, each atomic on
    the arena, each post on a socket and each served request is one step (in `Pipes.Serving` a request
    is served in several).

    A client is where its program counter says. `acquire` resolves a statement, takes the freelist
    lock, pops a key, takes a reference, points the pipe at the record, gives the lock back and
    splices its socket; `release` undoes this. Requests wait in the dpipe's queue and carry no
    statement: the daemon reads it from `dpipes[key].stmt` when it serves. Replies are delivered into
    the socket that `cpipe_map[key]` names at that moment.

    The fields that no code reads are there for the statements about the code only: a request's
    poster and number, the identity of a record (an address can be used again), and who holds the
    references a record counts. -/

namespace Barnacle.Pipes
open Barnacle.Lib Barnacle.Mysql

def BNCL_STORE_MAX : Nat := 4 * 1024 * 1024
def LOCK_TRIES : Nat := 4096

/-! ### Shared state -/

/-- What a client's `stmts_map` lookup returned: the pointer, and which record it was. -/
structure Target where
  ptr : Nat
  uid : Nat
deriving DecidableEq, Repr

/-- Who a reference belongs to: the statement list, a client, or nobody any more. -/
inductive Owner
  | list
  | client (c : Nat)
  | lost
deriving DecidableEq, Repr

/-- Where the daemon keeps a record: in `known`, taken out of the map but not yet dropped, in
    `orphans`, or retired. -/
inductive Phase
  | known
  | removing
  | orphan
  | retired
deriving DecidableEq, Repr

/-- A statement record, `struct stmt`. -/
structure Rec where
  uid : Nat
  txt : Bytes
  data : Option Bytes
  refs : UInt32
  owners : List Owner
  phase : Phase
deriving DecidableEq, Repr

inductive Kind
  | lookup
  | store (body : Bytes)
deriving DecidableEq, Repr

/-- A request in a dpipe's queue. -/
structure Request where
  kind : Kind
  poster : Nat
  num : Nat
  uid : Nat
deriving DecidableEq, Repr

inductive Status
  | AGENT_OK
  | AGENT_WRITE_THROUGH
  | AGENT_CACHE_ERROR
deriving DecidableEq, Repr

/-- `agent_reply`, with the request it answers. -/
structure Reply where
  status : Status
  num : Nat
deriving DecidableEq, Repr

/-- Where a client is. `t` is what its `acquire` resolved, `key` the pipe it has popped. -/
inductive Pc
  | idle
  | dead
  -- acquire
  | locking (t : Target) (tries : Nat)
  | popMeta (t : Target)
  | popSlot (t : Target) (slot : Nat)
  | popWrite (t : Target) (slot key : Nat)
  | popFail
  | readPipe (t : Target) (key : Nat)
  | getRef (t : Target) (key : Nat)
  | claim (t : Target) (key : Nat)
  | unlock (t : Target) (key : Nat)
  | splice (t : Target) (key : Nat)
  | pair (t : Target) (key : Nat)
  -- the pipe is ours
  | held (t : Target) (key : Nat)
  | waiting (t : Target) (key num : Nat)
  -- release
  | relInfo (t : Target) (key : Nat)
  | relCpipe (t : Target) (key : Nat)
  | relRead (t : Target) (key : Nat)
  | relPut (t : Target) (key : Nat) (stmt : Option Nat)
  -- pushDpipe under the lock
  | pushLock (key tries : Nat)
  | pushMeta (key : Nat)
  | pushSlot (key n : Nat)
  | pushWrite (key n : Nat)
  | pushUnlock
  -- lookupPayload
  | peekGet (t : Target)
  | peek (t : Target)
deriving DecidableEq, Repr

structure Sys where
  /-- `stmts_map` -/
  stmts : Bytes → Option Nat := fun _ => none
  /-- the records in the arena, by address -/
  recs : Nat → Option Rec := fun _ => none
  /-- the freelist lock, and who took it -/
  lock : Option Nat := none
  /-- `dpipes_meta_map`, `dpipe_freelist` -/
  num_free : Nat := 0
  freelist : Nat → Nat := fun _ => 0
  /-- `dpipes[key].stmt` -/
  stmt : Nat → Option Nat := fun _ => none
  /-- `cpipe_map` -/
  cpipe : Nat → Option Nat := fun _ => none
  /-- `pipe_sk_info_map` of a client's socket: the key it is paired with -/
  info : Nat → Option Nat := fun _ => none
  queue : Nat → List Request := fun _ => []
  inbox : Nat → List Reply := fun _ => []
  pc : Nat → Pc := fun _ => .idle
  nextNum : Nat := 0
  nextUid : Nat := 0
  /-- the text each record was published with, and the payload it was last given -/
  texts : Nat → Bytes := fun _ => []
  payloads : Nat → Option Bytes := fun _ => none
  /-- each STORE the daemon published, with the identity of the record it went to -/
  stored : List (Nat × Request) := []

namespace Sys

def goto (s : Sys) (c : Nat) (p : Pc) : Sys := { s with pc := Function.update s.pc c p }

def setRec (s : Sys) (p : Nat) (r : Option Rec) : Sys := { s with recs := Function.update s.recs p r }

/-- The daemon gives a record its payload, or takes it away. -/
def setPayload (s : Sys) (p : Nat) (r : Rec) (d : Option Bytes) : Sys :=
  { s with payloads := Function.update s.payloads r.uid d }.setRec p (some { r with data := d })

/-! ### References -/

/-- `bncl_stmt_get`: refuses at zero. On memory that is no record any more the outcome is whatever
    the bytes there say (`lucky`). -/
def bncl_stmt_get (s : Sys) (c p : Nat) (lucky : Bool) : Option Sys :=
  match s.recs p with
  | none => if lucky then some s else none
  | some r =>
    if r.refs = 0 then none
    else some (s.setRec p (some { r with refs := r.refs + 1, owners := .client c :: r.owners }))

/-- `bncl_stmt_put`. -/
def bncl_stmt_put (s : Sys) (o : Owner) (p : Nat) : Sys :=
  match s.recs p with
  | none => s
  | some r => s.setRec p (some { r with refs := r.refs - 1, owners := r.owners.erase o })

/-- An exit that forgets the reference it took: the count stays. -/
def forget (s : Sys) (c p : Nat) : Sys :=
  match s.recs p with
  | none => s
  | some r => s.setRec p (some { r with owners := .lost :: r.owners.erase (.client c) })

/-! ### A client's next step -/

/-- One step of the call client `c` is in. `ok` is the outcome of a call that may fail: a map call, or
    a reference on memory that is no longer a record. The update that points the pipe at its record is
    one of an array map, which does not fail, and its result is not looked at. -/
def next (s : Sys) (c : Nat) (ok : Bool) : Option Sys :=
  match s.pc c with
  | .idle | .dead | .held .. | .waiting .. => none
  -- lockPipes
  | .locking t n =>
    if s.lock = none then some ({ s with lock := some c }.goto c (.popMeta t))
    else if n + 1 < LOCK_TRIES then some (s.goto c (.locking t (n + 1)))
    else some (s.goto c .idle)
  -- popDpipe
  | .popMeta t =>
    if ok ∧ s.num_free ≠ 0 then some (s.goto c (.popSlot t (s.num_free - 1)))
    else some (s.goto c .popFail)
  | .popSlot t slot =>
    if ok then some (s.goto c (.popWrite t slot (s.freelist slot))) else some (s.goto c .popFail)
  | .popWrite t slot key =>
    if ok then some ({ s with num_free := slot }.goto c (.readPipe t key))
    else some (s.goto c .popFail)
  | .popFail => some ({ s with lock := none }.goto c .idle)
  | .readPipe t key =>
    if ok then some (s.goto c (.getRef t key)) else some (s.goto c (.pushMeta key))
  | .getRef t key =>
    match s.bncl_stmt_get c t.ptr ok with
    | none => some (s.goto c (.pushMeta key))
    | some s => some (s.goto c (.claim t key))
  | .claim t key =>
    some ({ s with stmt := Function.update s.stmt key (some t.ptr) }.goto c (.unlock t key))
  | .unlock t key => some ({ s with lock := none }.goto c (.splice t key))
  | .splice t key =>
    if ok then
      some ({ s with cpipe := Function.update s.cpipe key (some c) }.goto c (.pair t key))
    else some ((s.forget c t.ptr).goto c (.pushLock key 0))
  | .pair t key =>
    if ok then some ({ s with info := Function.update s.info c (some key) }.goto c (.held t key))
    else some ((s.forget c t.ptr).goto c (.pushLock key 0))
  -- release
  | .relInfo t key =>
    some ({ s with info := Function.update s.info c none }.goto c (.relCpipe t key))
  | .relCpipe t key =>
    some ({ s with cpipe := Function.update s.cpipe key none }.goto c (.relRead t key))
  | .relRead t key =>
    if ok then some (s.goto c (.relPut t key (s.stmt key)))
    else some ((s.forget c t.ptr).goto c (.pushLock key 0))
  | .relPut _ key none => some (s.goto c (.pushLock key 0))
  | .relPut _ key (some p) => some ((s.bncl_stmt_put (.client c) p).goto c (.pushLock key 0))
  -- lockPipes, pushDpipe, unlockPipes
  | .pushLock key n =>
    if s.lock = none then some ({ s with lock := some c }.goto c (.pushMeta key))
    else if n + 1 < LOCK_TRIES then some (s.goto c (.pushLock key (n + 1)))
    else some (s.goto c .idle)
  | .pushMeta key =>
    if ok then some (s.goto c (.pushSlot key s.num_free)) else some (s.goto c .pushUnlock)
  | .pushSlot key n =>
    if ok then
      some ({ s with freelist := Function.update s.freelist n key }.goto c (.pushWrite key n))
    else some (s.goto c .pushUnlock)
  | .pushWrite _ n =>
    if ok then some ({ s with num_free := n + 1 }.goto c .pushUnlock)
    else some (s.goto c .pushUnlock)
  | .pushUnlock => some ({ s with lock := none }.goto c .idle)
  -- lookupPayload
  | .peekGet t =>
    match s.bncl_stmt_get c t.ptr ok with
    | none => some (s.goto c .idle)
    | some s => some (s.goto c (.peek t))
  | .peek t => some ((s.bncl_stmt_put (.client c) t.ptr).goto c .idle)

/-! ### Calls a client begins -/

/-- The `stmts_map` lookup that `acquire` and `lookupPayload` begin with. -/
def resolve (s : Sys) (c : Nat) (sql : Bytes) (k : Target → Pc) : Option Sys :=
  if s.pc c = .idle then
    match s.stmts sql with
    | none => some s
    | some p => some (s.goto c (k ⟨p, ((s.recs p).map Rec.uid).getD 0⟩))
  else none

/-- A request on the client's own socket goes to the dpipe it is paired with. A post that fails, or
    the end of a STORE, leads to `release`. -/
def post (s : Sys) (c : Nat) (kind : Kind) (ok : Bool) : Option Sys :=
  match s.pc c with
  | .held t key =>
    if !ok then some (s.goto c (.relInfo t key))
    else
      let after := match kind with
        | .lookup => Pc.waiting t key s.nextNum
        | .store _ => .relInfo t key
      match s.info c with
      | none => some (s.goto c after)
      | some k =>
        some ({ s with
          queue := Function.update s.queue k (s.queue k ++ [Request.mk kind c s.nextNum t.uid])
          nextNum := s.nextNum + 1 }.goto c after)
  | _ => none

def askLookup (s : Sys) (c : Nat) (ok : Bool) : Option Sys := s.post c .lookup ok

def askStore (s : Sys) (c : Nat) (canonical : Bytes) (ok : Bool) : Option Sys :=
  s.post c (.store canonical)
    (ok && !(canonical.isEmpty || decide (canonical.length > BNCL_STORE_MAX)))

/-- `takeReply` reads a reply and `settle` releases the pipe. -/
def takeReply (s : Sys) (c : Nat) : Option Sys :=
  match s.pc c, s.inbox c with
  | .waiting t key _, _ :: rest =>
    some ({ s with inbox := Function.update s.inbox c rest }.goto c (.relInfo t key))
  | _, _ => none

/-- The deadline expires: `poll` found nothing to read. -/
def giveUp (s : Sys) (c : Nat) : Option Sys :=
  match s.pc c, s.inbox c with
  | .waiting t key _, [] => some (s.goto c (.relInfo t key))
  | _, _ => none

/-- The process dies: its socket is closed, with what was still to be read from it, and the kernel
    takes it out of `cpipe_map`. -/
def die (s : Sys) (c : Nat) : Sys :=
  { s with
    cpipe := fun k => if s.cpipe k = some c then none else s.cpipe k
    info := Function.update s.info c none
    inbox := Function.update s.inbox c [] }.goto c .dead

/-! ### The daemon -/

/-- What the daemon finds around it when it serves: whether the local copy may answer (`local_on`,
    the state and the age of the payload), what Valkey says (`none` when it cannot be reached), whether
    the arena had room, and whether the dpipe's own end could be spliced. -/
structure Env where
  fresh : Bool
  valkey : Option (Option Bytes)
  room : Bool
  spliced : Bool

/-- `reply`: into the socket that `cpipe_map[key]` names. -/
def reply (s : Sys) (key : Nat) (r : Reply) : Sys :=
  match s.cpipe key with
  | none => s
  | some c => { s with inbox := Function.update s.inbox c (s.inbox c ++ [r]) }

/-- The body `store` accepts: it parses and was not produced inside a transaction. -/
def storable (body : Bytes) : Bool :=
  match parseResultSet body BNCL_CANONICAL_CAPS with
  | none => false
  | some rs => !hasStatus rs.status SERVER_STATUS_IN_TRANS

/-- `store`, on the record the pipe points at. -/
def store (s : Sys) (p : Nat) (r : Rec) (req : Request) (body : Bytes) (env : Env) : Sys :=
  if r.txt.isEmpty || body.isEmpty || !storable body then s
  else
    let s := if env.valkey.isSome || env.room then { s with stored := (r.uid, req) :: s.stored } else s
    if env.room then s.setPayload p r (some body) else s

/-- The verdict on a LOOKUP, and the record's payload afterwards. -/
def verdict (r : Rec) (env : Env) : Status × Option Bytes :=
  if env.fresh && r.data.isSome then (.AGENT_OK, r.data)
  else
    match env.valkey with
    | none => (.AGENT_CACHE_ERROR, r.data)
    | some v =>
      match (if r.txt.isEmpty then none else v.filter (!·.isEmpty)) with
      | some payload => if env.room then (.AGENT_OK, some payload) else (.AGENT_CACHE_ERROR, r.data)
      | none => (.AGENT_WRITE_THROUGH, none)

/-- A record that may be read: it is there and has not been retired. -/
def live (s : Sys) (p : Nat) : Prop := ∃ r, s.recs p = some r ∧ r.phase ≠ .retired

/-- What `serve` does with a request it has read from dpipe `key`, `ptr` being what it has found in
    `dpipes[key].stmt`. Reading through a pointer to a retired record has no defined outcome. -/
def answer (s : Sys) (key : Nat) (req : Request) (ptr : Option Nat) (env : Env) : Option Sys :=
  match req.kind, ptr with
  | .store _, none => some s
  | .store body, some p =>
    match s.recs p with
    | none => none
    | some r => if r.phase = .retired then none else some (s.store p r req body env)
  | .lookup, ptr =>
    if !env.spliced then some s
    else
      match ptr with
      | none => some (s.reply key ⟨.AGENT_CACHE_ERROR, req.num⟩)
      | some p =>
        match s.recs p with
        | none => none
        | some r =>
          if r.phase = .retired then none
          else
            let v := verdict r env
            some ((s.setPayload p r v.2).reply key ⟨v.1, req.num⟩)

/-- Serve the request at the head of a dpipe's queue, in one step. -/
def serve (s : Sys) (key : Nat) (env : Env) : Option Sys :=
  match s.queue key with
  | [] => none
  | req :: rest => answer { s with queue := Function.update s.queue key rest } key req (s.stmt key) env

/-- `loadStatements` adds a statement: a fresh record where the arena put it, with the list's own
    reference, and the map entry. An entry may be there already, from a load that failed half way. -/
def publish (s : Sys) (sql : Bytes) (p : Nat) : Option Sys :=
  if s.recs p = none then
    some { s with
      recs := Function.update s.recs p (some ⟨s.nextUid, sql, none, 1, [.list], .known⟩)
      stmts := Function.update s.stmts sql (some p)
      texts := Function.update s.texts s.nextUid sql
      payloads := Function.update s.payloads s.nextUid none
      nextUid := s.nextUid + 1 }
  else none

/-- `loadStatements` takes a statement out, first the map entry … -/
def unpublish (s : Sys) (sql : Bytes) : Option Sys :=
  match s.stmts sql with
  | none => none
  | some p =>
    match s.recs p with
    | none => none
    | some r =>
      if r.phase = .known then
        some ({ s with stmts := Function.update s.stmts sql none }.setRec p
          (some { r with phase := .removing }))
      else none

/-- `retireStmt`: payload and text go, and the record's own bytes are overwritten. -/
def retireStmt (s : Sys) (p : Nat) (r : Rec) : Sys :=
  s.setRec p (some { r with data := none, txt := [], phase := .retired })

/-- … then the list's reference. The last one retires the record, otherwise it waits in `orphans`. -/
def drop (s : Sys) (p : Nat) : Option Sys :=
  match s.recs p with
  | none => none
  | some r =>
    if r.phase = .removing then
      let r := { r with refs := r.refs - 1, owners := r.owners.erase .list }
      if r.refs = 0 then some (s.retireStmt p r)
      else some (s.setRec p (some { r with phase := .orphan }))
    else none

/-- `collectOrphans`, one orphan. -/
def collect (s : Sys) (p : Nat) : Option Sys :=
  match s.recs p with
  | none => none
  | some r => if r.phase = .orphan ∧ r.refs = 0 then some (s.retireStmt p r) else none

/-- `reclaim`: the grace period is over and the memory is free for anything. -/
def reclaim (s : Sys) (p : Nat) : Option Sys :=
  match s.recs p with
  | none => none
  | some r => if r.phase = .retired then some (s.setRec p none) else none

/-- `breakStaleLock`, on a lock that somebody has had for a second: it is freed, whoever that is. -/
def breakLock (s : Sys) : Option Sys :=
  match s.lock with
  | none => none
  | some _ => some { s with lock := none }

/-! ### The system -/

inductive Label
  | acquire (c : Nat) (sql : Bytes)
  | lookupPayload (c : Nat) (sql : Bytes)
  | next (c : Nat) (ok : Bool)
  | askLookup (c : Nat) (ok : Bool)
  | askStore (c : Nat) (canonical : Bytes) (ok : Bool)
  | takeReply (c : Nat)
  | giveUp (c : Nat)
  | die (c : Nat)
  | serve (key : Nat) (env : Env)
  | publish (sql : Bytes) (p : Nat)
  | unpublish (sql : Bytes)
  | drop (p : Nat)
  | collect (p : Nat)
  | reclaim (p : Nat)
  | breakLock

/-- The client that takes the step. -/
def Label.client? : Label → Option Nat
  | .acquire c _ | .lookupPayload c _ | .next c _ | .askLookup c _ | .askStore c _ _ | .takeReply c
  | .giveUp c | .die c => some c
  | _ => none

def step (s : Sys) : Label → Option Sys
  | .acquire c sql => s.resolve c sql fun t => .locking t 0
  | .lookupPayload c sql => s.resolve c sql .peekGet
  | .next c ok => s.next c ok
  | .askLookup c ok => s.askLookup c ok
  | .askStore c canonical ok => s.askStore c canonical ok
  | .takeReply c => s.takeReply c
  | .giveUp c => s.giveUp c
  | .die c => some (s.die c)
  | .serve key env => s.serve key env
  | .publish sql p => s.publish sql p
  | .unpublish sql => s.unpublish sql
  | .drop p => s.drop p
  | .collect p => s.collect p
  | .reclaim p => s.reclaim p
  | .breakLock => s.breakLock

/-- `Pool::init` has put the keys below `pipes` on the freelist; nothing is published yet. -/
def start (pipes : Nat) : Sys := { num_free := pipes, freelist := fun i => i }

end Sys

end Barnacle.Pipes
