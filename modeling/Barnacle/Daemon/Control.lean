import Barnacle.Arena.Reclaim
import Barnacle.Daemon.Listing
import Barnacle.Daemon.Options
import Barnacle.Lib.Simulation
import Barnacle.Pipes.StaleLock

/-! The daemon's event loop and its control socket (`start`, `run`, `control`, `cfgSet`, `stats` and the
    counters of `serve`, `store` and `breakStaleLock` in `src/daemon/main.cpp`).

    Commands, requests and ticks come in any order. A RELOAD that goes through is counted on in the
    generation, once the table is as it should be; a switch is written to the slot the agents poll and,
    for the local tier, to the copy that the daemon itself looks at. -/

namespace Barnacle.Daemon
open Barnacle.Lib Barnacle.Lib.Text
open Barnacle.Pipes (Status BNCL_STORE_MAX)
open Barnacle.Pipes.Sys (storable)
open Table (ListFile short)

/-- The slots of the `cfg` map that are in use. -/
inductive Slot
  | BNCL_CFG_ENABLED
  | BNCL_CFG_PORT
  | BNCL_CFG_ERROR_TTL
  | BNCL_CFG_CLIENT_ON
  | BNCL_CFG_GENERATION
  | BNCL_CFG_LOCAL_ON
deriving DecidableEq

structure Counters where
  hits : UInt64 := 0
  misses : UInt64 := 0
  errors : UInt64 := 0
  stores : UInt64 := 0
  refused : UInt64 := 0
  reloads : UInt64 := 0
  lockbreaks : UInt64 := 0
deriving DecidableEq, Inhabited

/-- What `stats` prints. -/
structure Report where
  pid : Int32
  uptime : Int64
  started_at : Int64
  statements : UInt64
  cached : UInt64
  refs : UInt64
  pipes : UInt64
  pipes_free : UInt32
  cnt : Counters
  generation : UInt32
  client_on : UInt32
  local_on : Bool
  ttl : Int32
  valkey_host : Bytes
  valkey_port : UInt16
  valkey_ok : Bool
  valkey_keys : Int64
  arena_used : UInt64
  arena_cap : UInt64
  arena_retired : UInt64
  list : Bytes
deriving Inhabited

/-- `%lu` and `%ld`. -/
def unsignedText (n : Nat) : Bytes := Valkey.decimal n
def signedText (n : Int) : Bytes := Valkey.signed n
def flag (b : Bool) : UInt32 := if b then 1 else 0
def flagText (b : Bool) : Bytes := if b then encode ['1'] else encode ['0']

namespace Report

def fields (r : Report) : List (List Char × Bytes) := [
  ("pid".toList, signedText r.pid.toInt),
  ("uptime".toList, signedText r.uptime.toInt),
  ("started_at".toList, signedText r.started_at.toInt),
  ("statements".toList, unsignedText r.statements.toNat),
  ("cached".toList, unsignedText r.cached.toNat),
  ("refs".toList, unsignedText r.refs.toNat),
  ("pipes".toList, unsignedText r.pipes.toNat),
  ("pipes_free".toList, unsignedText r.pipes_free.toNat),
  ("hits".toList, unsignedText r.cnt.hits.toNat),
  ("misses".toList, unsignedText r.cnt.misses.toNat),
  ("errors".toList, unsignedText r.cnt.errors.toNat),
  ("stores".toList, unsignedText r.cnt.stores.toNat),
  ("refused".toList, unsignedText r.cnt.refused.toNat),
  ("lockbreaks".toList, unsignedText r.cnt.lockbreaks.toNat),
  ("reloads".toList, unsignedText r.cnt.reloads.toNat),
  ("generation".toList, unsignedText r.generation.toNat),
  ("client_on".toList, unsignedText r.client_on.toNat),
  ("local_on".toList, flagText r.local_on),
  ("ttl".toList, signedText r.ttl.toInt),
  ("valkey".toList, r.valkey_host ++ encode [':'] ++ unsignedText r.valkey_port.toNat),
  ("valkey_ok".toList, flagText r.valkey_ok),
  ("valkey_keys".toList, signedText r.valkey_keys.toInt),
  ("arena_used".toList, unsignedText r.arena_used.toNat),
  ("arena_cap".toList, unsignedText r.arena_cap.toNat),
  ("arena_retired".toList, unsignedText r.arena_retired.toNat),
  ("list".toList, r.list)]

/-- `snprintf` into `buf[512]`: what does not fit is cut off. -/
def text (r : Report) : Bytes :=
  (r.fields.flatMap fun f => encode f.1 ++ encode [' '] ++ f.2 ++ encode ['\n']).take 511

end Report

/-! ### The daemon with its control surface -/

structure Service where
  opt : Options
  table : Table
  cfg : Slot → UInt32 := fun _ => 0
  cnt : Counters := {}
  local_on : Bool := true
  /-- the list that was loaded last -/
  list : List Bytes := []
  /-- the control block: the freelist lock and its stamp -/
  lock : Bool := false
  taken_ns : UInt64 := 0

/-- What `stats` finds out beside the daemon's own state. -/
structure Probe where
  pid : Int32
  now : UInt64
  uptime : Int64
  started_at : Int64
  pipes : UInt64
  pipes_free : UInt32
  valkey_ok : Bool
  valkey_keys : Int64

namespace Service

inductive Call
  /-- a connection to the control socket, and what the one `read` has got -/
  | control (got : Bytes) (file : Option (List Bytes)) (refuse : Bytes → Bool) (now : UInt64) (probe : Probe)
  | lookup (key : Nat) (spliced : Bool) (valkey : Option Valkey) (now kept : UInt64)
  | store (key : Nat) (body : Bytes) (now kept : UInt64)
  /-- the part of the loop that runs every time it wakes -/
  | tick (now : UInt64)
  -- clients
  | count (p : Nat) (refs : UInt32)
  | point (key p : Nat)
  | lockWord (lock : Bool) (taken_ns : UInt64)

/-- What shows of a call. -/
inductive Outcome
  | replied (status : Status)
  | stored
  | refused
  | reloaded
  | client (on : Bool)
  | localTier (on : Bool)
  | lockbreak
deriving DecidableEq

def cfgSet (s : Service) (slot : Slot) (val : UInt32) : Service := { s with cfg := Function.update s.cfg slot val }
def cfgGet (s : Service) (slot : Slot) : UInt32 := s.cfg slot

/-- `loadStatements`, with the file `opt.stmt_list` names: its lines, or none if it cannot be read. -/
def loadStatements (s : Service) (file : Option (List Bytes)) (refuse : Bytes → Bool) (now : UInt64) :
    Bool × Service :=
  let f := if s.opt.stmt_list = [] then ListFile.none
    else match file with
      | none => .unreadable
      | some lines => .lines lines
  let r := s.table.loadStatements f s.opt.ttl.toUInt32 refuse now
  (r.1, { s with table := r.2, list := match r.1, f with
    | true, .lines lines => loadList lines
    | _, _ => s.list })

def report (s : Service) (probe : Probe) : Report where
  pid := probe.pid
  uptime := probe.uptime
  started_at := probe.started_at
  statements := .ofNat s.list.length
  cached := .ofNat (s.table.daemon.known.countP fun e =>
    (s.table.daemon.recs e.2).data ≠ 0 && !expired (s.table.daemon.recs e.2) probe.now)
  refs := s.table.daemon.known.foldl (fun refs e => refs + (s.table.daemon.recs e.2).refs.toUInt64) 0
  pipes := probe.pipes
  pipes_free := probe.pipes_free
  cnt := s.cnt
  generation := s.cfgGet .BNCL_CFG_GENERATION
  client_on := s.cfgGet .BNCL_CFG_CLIENT_ON
  local_on := s.local_on
  ttl := s.opt.ttl
  valkey_host := s.opt.valkey_host
  valkey_port := s.opt.valkey_port
  valkey_ok := probe.valkey_ok
  valkey_keys := probe.valkey_keys
  arena_used := .ofNat s.table.daemon.heap.arena.used
  arena_cap := .ofNat s.table.daemon.heap.arena.cap
  arena_retired := .ofNat s.table.daemon.heap.arena.retireList.length
  list := s.opt.stmt_list

/-- The command in what was read: a string in C, without the ends of its line. -/
def command (got : Bytes) : Bytes :=
  (((got.take 255).takeWhile (· ≠ 0)).reverse.dropWhile fun b => b = 10 || b = 13).reverse

/-- The reply, and the daemon afterwards. -/
def control (s : Service) (got : Bytes) (file : Option (List Bytes)) (refuse : Bytes → Bool) (now : UInt64)
    (probe : Probe) : Bytes × Service :=
  let cmd := command got
  if got = [] then ([], s)
  else if cmd = encode "PING".toList then (encode "ok\n".toList, s)
  else if cmd = encode "STATS".toList then ((s.report probe).text, s)
  else if cmd = encode "RELOAD".toList then
    let r := s.loadStatements file refuse now
    if r.1 then
      let t := { r.2 with cnt := { r.2.cnt with reloads := r.2.cnt.reloads + 1 } }
      -- the table is as it should be by now
      (encode "ok ".toList ++ unsignedText t.list.length ++ encode " statement(s)\n".toList,
        t.cfgSet .BNCL_CFG_GENERATION (t.cfgGet .BNCL_CFG_GENERATION + 1))
    else (encode "error cannot reload ".toList ++ s.opt.stmt_list ++ encode ['\n'], r.2)
  else if cmd = encode "CLIENT on".toList ∨ cmd = encode "CLIENT off".toList then
    (encode "ok\n".toList, s.cfgSet .BNCL_CFG_CLIENT_ON (if cmd = encode "CLIENT on".toList then 1 else 0))
  else if cmd = encode "LOCAL on".toList ∨ cmd = encode "LOCAL off".toList then
    let t := { s with local_on := cmd = encode "LOCAL on".toList }
    (encode "ok\n".toList, t.cfgSet .BNCL_CFG_LOCAL_ON (flag t.local_on))
  else (encode "error unknown command\n".toList, s)

def env (s : Service) (spliced : Bool) (valkey : Option Valkey) (now kept : UInt64) : Env :=
  ⟨spliced, s.local_on, valkey, s.opt.ttl.toUInt32, now, kept⟩

def setDaemon (s : Service) (d : Daemon) : Service := { s with table := { s.table with daemon := d } }

/-- A LOOKUP and its counter. -/
def lookup (s : Service) (key : Nat) (env : Env) : Option Status × Service :=
  let r := s.table.daemon.serveLookup key env
  let t := s.setDaemon r.2
  match r.1.map Prod.fst with
  | none => (none, t)
  | some .AGENT_OK => (some .AGENT_OK, { t with cnt := { t.cnt with hits := t.cnt.hits + 1 } })
  | some .AGENT_WRITE_THROUGH =>
    (some .AGENT_WRITE_THROUGH, { t with cnt := { t.cnt with misses := t.cnt.misses + 1 } })
  | some .AGENT_CACHE_ERROR => (some .AGENT_CACHE_ERROR, { t with cnt := { t.cnt with errors := t.cnt.errors + 1 } })

/-- What becomes of the body of a STORE. -/
def verdict (d : Daemon) (key : Nat) (body : Bytes) (env : Env) : Option Outcome :=
  let p := d.pipes key
  if body.length = 0 ∨ body.length > BNCL_STORE_MAX ∨ p = 0 ∨ d.text (d.recs p) = [] then none
  else if !storable body then some .refused
  else if (keep d.heap (d.recs p) body env.kept).1.isSome then some .stored
  else none

def store (s : Service) (key : Nat) (body : Bytes) (env : Env) : Service :=
  let t := s.setDaemon (s.table.daemon.serveStore key body env)
  match verdict s.table.daemon key body env with
  | some .stored => { t with cnt := { t.cnt with stores := t.cnt.stores + 1 } }
  | some .refused => { t with cnt := { t.cnt with refused := t.cnt.refused + 1 } }
  | _ => t

def breakStaleLock (s : Service) (now : UInt64) : Service :=
  if s.lock && Pipes.staleStamp now.toNat s.taken_ns.toNat then
    { s with lock := false, cnt := { s.cnt with lockbreaks := s.cnt.lockbreaks + 1 } }
  else s

def step (s : Service) : Call → Option Service
  | .control got file refuse now probe => some (s.control got file refuse now probe).2
  | .lookup key spliced valkey now kept => some (s.lookup key (s.env spliced valkey now kept)).2
  | .store key body now kept => some (s.store key body (s.env true none now kept))
  | .tick now =>
    let t := s.breakStaleLock now
    let d := t.table.daemon.collectOrphans now
    some (t.setDaemon { d with heap := d.heap.reclaim now })
  | .count p refs =>
    let d := s.table.daemon
    some (s.setDaemon (d.setRec p { d.recs p with refs := refs }))
  | .point key p =>
    let d := s.table.daemon
    some (s.setDaemon { d with pipes := Function.update d.pipes key p })
  | .lockWord lock taken_ns => some { s with lock := lock, taken_ns := taken_ns }

/-- What a connection to the control socket is told, or a waiting client. -/
def outcome (s : Service) : Call → Option Outcome
  | .control got file refuse now _ =>
    let cmd := command got
    if cmd = encode "RELOAD".toList then if (s.loadStatements file refuse now).1 then some .reloaded else none
    else if cmd = encode "CLIENT on".toList then some (.client true)
    else if cmd = encode "CLIENT off".toList then some (.client false)
    else if cmd = encode "LOCAL on".toList then some (.localTier true)
    else if cmd = encode "LOCAL off".toList then some (.localTier false)
    else none
  | .lookup key spliced valkey now kept =>
    (s.table.daemon.serveLookup key (s.env spliced valkey now kept)).1.map fun r => .replied r.1
  | .store key body now kept => verdict s.table.daemon key body (s.env true none now kept)
  | .tick now => if s.lock && Pipes.staleStamp now.toNat s.taken_ns.toNat then some .lockbreak else none
  | .count .. | .point .. | .lockWord .. => none

/-- `start`, from where the maps are there: the slots, and the first load. It fails when that does. The
    maps may be those an earlier daemon has left. -/
def start (opt : Options) (mem : Mem) (len : Nat) (stmts_map : Bytes → Option Nat) (cfg : Slot → UInt32)
    (file : Option (List Bytes)) (refuse : Bytes → Bool) (now : UInt64) : Option Service :=
  let s : Service := { opt, table := { daemon := Daemon.start mem len, stmts_map }, cfg, local_on := opt.local_on }
  let s := s.cfgSet .BNCL_CFG_ENABLED 1
  let s := s.cfgSet .BNCL_CFG_PORT opt.mysql_port.toUInt32
  let s := s.cfgSet .BNCL_CFG_ERROR_TTL opt.error_ttl.toUInt32
  let s := s.cfgSet .BNCL_CFG_CLIENT_ON 1
  let s := s.cfgSet .BNCL_CFG_GENERATION 1
  let s := s.cfgSet .BNCL_CFG_LOCAL_ON (flag s.local_on)
  let r := s.loadStatements file refuse now
  if r.1 then some r.2 else none

/-! ### What a call does to the books -/

end Service

/-- The counters after something has shown. -/
def Counters.after (c : Counters) : Option Service.Outcome → Counters
  | some (.replied .AGENT_OK) => { c with hits := c.hits + 1 }
  | some (.replied .AGENT_WRITE_THROUGH) => { c with misses := c.misses + 1 }
  | some (.replied .AGENT_CACHE_ERROR) => { c with errors := c.errors + 1 }
  | some .stored => { c with stores := c.stores + 1 }
  | some .refused => { c with refused := c.refused + 1 }
  | some .reloaded => { c with reloads := c.reloads + 1 }
  | some .lockbreak => { c with lockbreaks := c.lockbreaks + 1 }
  | some (.client _) | some (.localTier _) | none => c

/-- And the slots. -/
def slotsAfter (cfg : Slot → UInt32) : Option Service.Outcome → Slot → UInt32
  | some .reloaded => Function.update cfg .BNCL_CFG_GENERATION (cfg .BNCL_CFG_GENERATION + 1)
  | some (.client on) => Function.update cfg .BNCL_CFG_CLIENT_ON (flag on)
  | some (.localTier on) => Function.update cfg .BNCL_CFG_LOCAL_ON (flag on)
  | _ => cfg

def localAfter (local_on : Bool) : Option Service.Outcome → Bool
  | some (.localTier on) => on
  | _ => local_on

namespace Service

theorem seed_known (d : Daemon) (next : List (Bytes × Nat)) (sql : Bytes) (ttl : UInt32) (refused : Bool) :
    (d.seed next sql ttl refused).1.known = d.known := by
  unfold seed
  split
  · rfl
  split
  · rfl
  · dsimp only
    split <;> rfl

theorem seedAll_known (ttl : UInt32) (refuse : Bytes → Bool) (sqls : List Bytes) :
    ∀ (d : Daemon) (next : List (Bytes × Nat)), (seedAll ttl refuse sqls d next).1.known = d.known := by
  induction sqls with
  | nil => exact fun d next => rfl
  | cons sql rest ih =>
    intro d next
    have hseed := seed_known d next sql ttl (refuse sql)
    rw [seedAll]
    generalize d.seed next sql ttl (refuse sql) = r at hseed
    obtain ⟨d', _ | next'⟩ := r
    · exact hseed
    · exact (ih d' next').trans hseed

/-- A load that goes through has the texts of its list, and one that fails those there were. -/
theorem load_known (t : Table) (ls : List Bytes) (ttl : UInt32) (refuse : Bytes → Bool) (now : UInt64) :
    ((t.loadStatements (.lines ls) ttl refuse now).1 = true →
      (t.loadStatements (.lines ls) ttl refuse now).2.daemon.known.map Prod.fst = short (loadList ls)) ∧
    ((t.loadStatements (.lines ls) ttl refuse now).1 = false →
      (t.loadStatements (.lines ls) ttl refuse now).2.daemon.known = t.daemon.known) := by
  constructor
  · intro hok
    obtain ⟨next, hn, e⟩ := Table.load_ok hok
    rw [e]
    exact (Table.load_keys hn).2
  · intro hno
    unfold Table.loadStatements at hno ⊢
    dsimp only at hno ⊢
    cases hn : (Table.seedAll ttl refuse (loadList ls) t []).2 with
    | none => rw [(Table.seedAll_daemon ttl refuse (loadList ls) t []).1, seedAll_known]
    | some next =>
      rw [hn] at hno
      cases hno

/-- What a call does, as far as the books go. -/
structure Does (s s' : Service) (o : Option Outcome) : Prop where
  opt : s'.opt = s.opt
  cnt : s'.cnt = s.cnt.after o
  cfg : s'.cfg = slotsAfter s.cfg o
  local_on : s'.local_on = localAfter s.local_on o
  listed : s.table.daemon.known.map Prod.fst = short s.list → s'.table.daemon.known.map Prod.fst = short s'.list

section Does
variable {s s' : Service}

theorem Does.same (s : Service) : Does s s none := ⟨rfl, rfl, rfl, rfl, id⟩

/-- Only the daemon proper changes, and not its list. -/
theorem Does.serve {d : Daemon} (hk : d.known = s.table.daemon.known) : Does s (s.setDaemon d) none :=
  ⟨rfl, rfl, rfl, rfl, fun h => by rw [setDaemon, hk]; exact h⟩

theorem loadStatements_does (s : Service) (file : Option (List Bytes)) (refuse : Bytes → Bool) (now : UInt64) :
    Does s (s.loadStatements file refuse now).2 none := by
  refine ⟨rfl, rfl, rfl, rfl, fun h => ?_⟩
  unfold loadStatements
  dsimp only
  generalize hf : (if s.opt.stmt_list = [] then ListFile.none else match file with
    | none => ListFile.unreadable
    | some lines => ListFile.lines lines) = f
  cases f with
  | none => exact h
  | unreadable => exact h
  | lines ls =>
    have hload := load_known s.table ls s.opt.ttl.toUInt32 refuse now
    cases hr : (s.table.loadStatements (.lines ls) s.opt.ttl.toUInt32 refuse now).1 with
    | true => exact hload.1 hr
    | false =>
      rw [hload.2 hr]
      exact h

theorem Does.reply {t : Service} {o : Option Outcome} (h : Does s t none) (hopt : s'.opt = t.opt)
    (htable : s'.table = t.table) (hlist : s'.list = t.list) (hcnt : s'.cnt = t.cnt.after o)
    (hcfg : s'.cfg = slotsAfter t.cfg o) (hlocal : s'.local_on = localAfter t.local_on o) : Does s s' o := by
  obtain ⟨h1, h2, h3, h4, h5⟩ := h
  refine ⟨hopt.trans h1, ?_, ?_, ?_, ?_⟩
  · rw [hcnt, h2]
    rfl
  · rw [hcfg, h3]
    rfl
  · rw [hlocal, h4]
    rfl
  · rw [htable, hlist]
    exact h5

theorem control_does (s : Service) (got : Bytes) (file : Option (List Bytes)) (refuse : Bytes → Bool) (now : UInt64)
    (probe : Probe) : Does s (s.control got file refuse now probe).2 (s.outcome (.control got file refuse now probe)) := by
  unfold control outcome
  dsimp only
  by_cases h0 : got = []
  · subst h0
    exact Does.same s
  rw [if_neg h0]
  by_cases h1 : command got = encode "PING".toList
  · rw [h1]
    exact Does.same s
  rw [if_neg h1]
  by_cases h2 : command got = encode "STATS".toList
  · rw [h2]
    exact Does.same s
  rw [if_neg h2]
  by_cases h3 : command got = encode "RELOAD".toList
  · have hload := loadStatements_does s file refuse now
    rw [if_pos h3, if_pos h3]
    cases hok : (s.loadStatements file refuse now).1 with
    | true => exact hload.reply rfl rfl rfl rfl rfl rfl
    | false => exact hload
  rw [if_neg h3, if_neg h3]
  by_cases h4 : command got = encode "CLIENT on".toList
  · rw [if_pos (.inl h4), if_pos h4, if_pos h4]
    exact (Does.same s).reply rfl rfl rfl rfl rfl rfl
  by_cases h5 : command got = encode "CLIENT off".toList
  · rw [if_pos (.inr h5), if_neg h4, if_neg h4, if_pos h5]
    exact (Does.same s).reply rfl rfl rfl rfl rfl rfl
  rw [if_neg (not_or.mpr ⟨h4, h5⟩), if_neg h4, if_neg h5]
  by_cases h6 : command got = encode "LOCAL on".toList
  · rw [if_pos (.inl h6), if_pos h6]
    simp only [h6, decide_true]
    exact (Does.same s).reply rfl rfl rfl rfl rfl rfl
  by_cases h7 : command got = encode "LOCAL off".toList
  · rw [if_pos (.inr h7), if_neg h6, if_pos h7]
    simp only [h6, decide_false]
    exact (Does.same s).reply rfl rfl rfl rfl rfl rfl
  · rw [if_neg (not_or.mpr ⟨h6, h7⟩), if_neg h6, if_neg h7]
    exact Does.same s

theorem lookup_does (s : Service) (key : Nat) (env : Env) :
    Does s (s.lookup key env).2 ((s.table.daemon.serveLookup key env).1.map fun r => .replied r.1) := by
  have hserve : Does s (s.setDaemon (s.table.daemon.serveLookup key env).2) none :=
    .serve (serve_frame (e := .serveLookup key env) (by simp) rfl).1
  unfold lookup
  dsimp only
  cases (s.table.daemon.serveLookup key env).1 with
  | none => exact hserve
  | some r =>
    obtain ⟨status, id⟩ := r
    cases status <;> exact hserve.reply rfl rfl rfl rfl rfl rfl

theorem verdict_cases (d : Daemon) (key : Nat) (body : Bytes) (env : Env) :
    verdict d key body env = none ∨ verdict d key body env = some .refused ∨ verdict d key body env = some .stored := by
  unfold verdict
  dsimp only
  split
  · exact .inl rfl
  split
  · exact .inr (.inl rfl)
  split
  · exact .inr (.inr rfl)
  · exact .inl rfl

theorem store_does (s : Service) (key : Nat) (body : Bytes) (env : Env) :
    Does s (s.store key body env) (verdict s.table.daemon key body env) := by
  have hserve : Does s (s.setDaemon (s.table.daemon.serveStore key body env)) none :=
    .serve (serve_frame (e := .serveStore key body env) (by simp) rfl).1
  unfold store
  dsimp only
  rcases verdict_cases s.table.daemon key body env with e | e | e <;> rw [e]
  · exact hserve
  · exact hserve.reply rfl rfl rfl rfl rfl rfl
  · exact hserve.reply rfl rfl rfl rfl rfl rfl

theorem step_does {c : Call} (hs : s.step c = some s') : Does s s' (s.outcome c) := by
  cases c <;> cases hs
  case control got file refuse now probe => exact control_does s got file refuse now probe
  case lookup key spliced valkey now kept => exact lookup_does s key _
  case store key body now kept => exact store_does s key body _
  case tick now =>
    have hbreak : Does s (s.breakStaleLock now)
        (if s.lock && Pipes.staleStamp now.toNat s.taken_ns.toNat then some .lockbreak else none) := by
      unfold breakStaleLock
      split
      · exact (Does.same s).reply rfl rfl rfl rfl rfl rfl
      · exact Does.same s
    have hcollect : ((s.breakStaleLock now).table.daemon.collectOrphans now).known =
        (s.breakStaleLock now).table.daemon.known := (collectLoop_rest ..).2.2
    rw [outcome]
    refine ⟨hbreak.opt, hbreak.cnt, hbreak.cfg, hbreak.local_on, fun h => ?_⟩
    show ((s.breakStaleLock now).table.daemon.collectOrphans now).known.map Prod.fst = _
    rw [hcollect]
    exact hbreak.listed h
  case count p refs => exact .serve rfl
  case point key p => exact .serve rfl
  case lockWord lock taken_ns => exact ⟨rfl, rfl, rfl, rfl, id⟩

end Does

/-! ### The books -/

/-- What the last switch asked for, if there was one. -/
def lastSwitch (which : Outcome → Option Bool) (init : Bool) (past : List Outcome) : Bool :=
  (past.filterMap which).getLast?.getD init

def toClient : Outcome → Option Bool
  | .client on => some on
  | _ => none

def toLocal : Outcome → Option Bool
  | .localTier on => some on
  | _ => none

/-- What the daemon has on its books is what it has done: each counter counts what shows, the generation
    counts the reloads, the slots say what was last asked for, and the table has the texts of the list that
    was loaded last. -/
structure Books (opt : Options) (s : Service) (past : List Outcome) : Prop where
  options : s.opt = opt
  hits : s.cnt.hits = .ofNat (past.count (.replied .AGENT_OK))
  misses : s.cnt.misses = .ofNat (past.count (.replied .AGENT_WRITE_THROUGH))
  errors : s.cnt.errors = .ofNat (past.count (.replied .AGENT_CACHE_ERROR))
  stores : s.cnt.stores = .ofNat (past.count .stored)
  refused : s.cnt.refused = .ofNat (past.count .refused)
  reloads : s.cnt.reloads = .ofNat (past.count .reloaded)
  lockbreaks : s.cnt.lockbreaks = .ofNat (past.count .lockbreak)
  generation : s.cfg .BNCL_CFG_GENERATION = 1 + .ofNat (past.count .reloaded)
  client_on : s.cfg .BNCL_CFG_CLIENT_ON = flag (lastSwitch toClient true past)
  local_on : s.local_on = lastSwitch toLocal opt.local_on past
  local_slot : s.cfg .BNCL_CFG_LOCAL_ON = flag s.local_on
  fixed : s.cfg .BNCL_CFG_ENABLED = 1 ∧ s.cfg .BNCL_CFG_PORT = opt.mysql_port.toUInt32 ∧
    s.cfg .BNCL_CFG_ERROR_TTL = opt.error_ttl.toUInt32
  listed : s.table.daemon.known.map Prod.fst = short s.list

section Books
variable {s s' : Service} {opt : Options} {past : List Outcome}

theorem lastSwitch_snoc (which : Outcome → Option Bool) (init : Bool) (past : List Outcome) (o : Outcome) :
    lastSwitch which init (past ++ [o]) = (which o).getD (lastSwitch which init past) := by
  rw [lastSwitch, List.filterMap_append]
  cases h : which o with
  | none => simp [h, lastSwitch]
  | some on => simp [h]

theorem ofNat_count (past : List Outcome) (o o' : Outcome) :
    UInt64.ofNat ((past ++ [o']).count o) = .ofNat (past.count o) + (if o' = o then 1 else 0) := by
  rw [List.count_append, List.count_singleton]
  by_cases h : o' = o <;> simp [h, UInt64.ofNat_add]

theorem Books.snoc (h : Books opt s past) {o : Outcome} (hd : Does s s' (some o)) : Books opt s' (past ++ [o]) := by
  obtain ⟨d1, d2, d3, d4, d5⟩ := hd
  obtain ⟨h1, h2, h3, h4, h5, h6, h7, h8, h9, h10, h11, h12, h13, h14⟩ := h
  have hg : UInt32.ofNat ((past ++ [o]).count .reloaded) =
      .ofNat (past.count .reloaded) + (if o = .reloaded then 1 else 0) := by
    rw [List.count_append, List.count_singleton]
    by_cases h : o = .reloaded <;> simp [h, UInt32.ofNat_add]
  refine ⟨d1.trans h1, ?_, ?_, ?_, ?_, ?_, ?_, ?_, ?_, ?_, ?_, ?_, ?_, d5 h14⟩
  all_goals
    simp only [d2, d3, d4, ofNat_count, hg, lastSwitch_snoc]
    cases o with
    | replied status => cases status <;> simp [Counters.after, slotsAfter, localAfter, toClient, toLocal, *]
    | stored | refused | lockbreak | client on | localTier on =>
      simp [Counters.after, slotsAfter, localAfter, toClient, toLocal, *]
    | reloaded => simp [Counters.after, slotsAfter, localAfter, toClient, toLocal, UInt32.add_assoc, *]

theorem Books.step (h : Books opt s past) {c : Call} (hs : s.step c = some s') :
    Books opt s' (past ++ (s.outcome c).toList) := by
  have hd := step_does hs
  cases ho : s.outcome c with
  | some o =>
    rw [ho] at hd
    exact h.snoc hd
  | none =>
    rw [ho] at hd
    obtain ⟨h1, h2, h3, h4, h5, h6, h7, h8, h9, h10, h11, h12, h13, h14⟩ := h
    obtain ⟨d1, d2, d3, d4, d5⟩ := hd
    rw [Option.toList_none, List.append_nil]
    refine ⟨d1.trans h1, ?_, ?_, ?_, ?_, ?_, ?_, ?_, ?_, ?_, ?_, ?_, ?_, d5 h14⟩ <;>
      simp only [d2, d3, d4, Counters.after, slotsAfter, localAfter] <;> assumption

theorem start_books {opt : Options} {mem : Mem} {len : Nat} {stmts_map : Bytes → Option Nat} {cfg : Slot → UInt32}
    {file : Option (List Bytes)} {refuse : Bytes → Bool} {now : UInt64}
    (hstart : start opt mem len stmts_map cfg file refuse now = some s) : Books opt s [] := by
  obtain ⟨-, e⟩ := Option.ite_none_right_eq_some.mp hstart
  obtain rfl := Option.some.inj e
  obtain ⟨d1, d2, d3, d4, d5⟩ := loadStatements_does _ file refuse now
  refine ⟨d1, ?_, ?_, ?_, ?_, ?_, ?_, ?_, ?_, ?_, d4, ?_, ?_, d5 rfl⟩
  all_goals
    simp only [d2, d3, d4]
    simp [Counters.after, slotsAfter, localAfter, cfgSet, lastSwitch, show flag true = 1 from rfl]

theorem run_books {opt : Options} {mem : Mem} {len : Nat} {stmts_map : Bytes → Option Nat} {cfg : Slot → UInt32}
    {file : Option (List Bytes)} {refuse : Bytes → Bool} {now : UInt64} {s₀ : Service} {calls : List Call}
    (hstart : start opt mem len stmts_map cfg file refuse now = some s₀) (hrun : run Service.step s₀ calls = some s) :
    Books opt s (visible Service.step Service.outcome s₀ calls) :=
  run_history (fun _ _ _ _ h hs => h.step hs) (start_books hstart) hrun

end Books

/-- Whatever commands, requests and ticks come, and in whatever order: what STATS reports, and what the
    agents poll, is what the daemon has done since it was started, up to the width of the counters. -/
theorem books_balance (opt : Options) (mem : Mem) (len : Nat) (stmts_map : Bytes → Option Nat) (cfg : Slot → UInt32)
    (file : Option (List Bytes)) (refuse : Bytes → Bool) (now : UInt64) (s₀ s : Service)
    (hstart : start opt mem len stmts_map cfg file refuse now = some s₀) (calls : List Call)
    (hrun : run Service.step s₀ calls = some s) :
    Books opt s (visible Service.step Service.outcome s₀ calls) :=
  run_books hstart hrun

def listAt : Options := { stmt_list := encode ['/', 'l'] }
def probe : Probe := ⟨7, 9, 0, 0, 64, 64, true, -1⟩

/-- A miss, the answer that a client stores, a hit, then a reload and the agents switched off. -/
def oneShift : List Call :=
  [.point 0 112, .lookup 0 true (emptyAt 2).valkey 2 2, .store 0 Mysql.oneRow 5 5,
    .lookup 0 true none 7 7, .control (encode "RELOAD\n".toList) (some [[83]]) (fun _ => false) 8 probe,
    .control (encode "CLIENT off".toList) none (fun _ => false) 9 probe, .tick 9]

theorem oneShift_books : ∃ s₀ s, start listAt (fun _ => 0) 600 (fun _ => none) (fun _ => 0) (some [[83]])
      (fun _ => false) 1 = some s₀ ∧ run Service.step s₀ oneShift = some s ∧
    Books listAt s (visible Service.step Service.outcome s₀ oneShift) ∧
      (s.cnt.hits, s.cnt.misses, s.cnt.stores, s.cfg .BNCL_CFG_GENERATION, s.cfg .BNCL_CFG_CLIENT_ON) =
        (1, 1, 1, 2, 0) := by
  have h : ((start listAt (fun _ => 0) 600 (fun _ => none) (fun _ => 0) (some [[83]]) (fun _ => false) 1).bind
      fun s₀ => run Service.step s₀ oneShift).map (fun s =>
        (s.cnt.hits, s.cnt.misses, s.cnt.stores, s.cfg .BNCL_CFG_GENERATION, s.cfg .BNCL_CFG_CLIENT_ON)) =
      some (1, 1, 1, 2, 0) := by decide +kernel
  obtain ⟨s, hs, hx⟩ := Option.map_eq_some_iff.mp h
  obtain ⟨s₀, hstart, hrun⟩ := Option.bind_eq_some_iff.mp hs
  exact ⟨s₀, s, hstart, hrun, books_balance _ _ _ _ _ _ _ _ _ _ hstart _ hrun, hx⟩

end Service

end Barnacle.Daemon
