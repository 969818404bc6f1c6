import Barnacle.Agent.Model
import Barnacle.Lib.Transition

/-! The agent as a whole (`src/uclient/agent.cpp`): the variables its hooks share, every connection of
    the process, and the daemons it may be attached to.

    A connection is found by the address of its SSL object. The switches mirror three slots of the
    daemon's `cfg` map, looked at from the write hook at most every quarter of a second. A daemon that
    starts makes new maps and pins them, one that stops takes the pins away; the maps an agent has
    descriptors of stay readable either way.

    `rep_SSL_read` gives the lock back twice, so its three sections are steps of their own, and so is
    every look of `unhookAll` at the connections. -/

namespace Barnacle.Agent
open Barnacle.Lib Barnacle.Mysql

def CFG_POLL_NS : UInt64 := 250 * 1000 * 1000
/-- How often `unhookAll` looks before it stops waiting. -/
def LOOKS : Nat := 100

/-- The slots `cfgRead` reads. -/
structure Cfg where
  client_on : UInt32 := 0
  generation : UInt32 := 0
  local_on : UInt32 := 0
  deriving DecidableEq, Repr

/-- The variables of the agent. `fds` are the maps its descriptors name. -/
structure Process where
  conns_s : List (Nat × Conn) := []
  list_s : List Bytes := []
  on_s : Bool := true
  gen_s : UInt32 := 0
  next_poll_ns_s : UInt64 := 0
  local_s : Bool := true
  daemon_gone_s : Bool := false
  hooked_s : Bool := false
  fds : Option Nat := none

namespace Process

/-- `conns_s[ssl]`: a connection not seen before starts out fresh. -/
def connFor (p : Process) (ssl : Nat) : Conn := (p.conns_s.lookup ssl).getD {}

def setConn (p : Process) (ssl : Nat) (c : Conn) : Process :=
  { p with conns_s := (ssl, c) :: p.conns_s.filter fun x => x.1 ≠ ssl }

def switches (p : Process) : Switches := { on := p.on_s, local_on := p.local_s, list := p.list_s }

/-- Does `refreshLocked` look at all? -/
def polls (p : Process) (now : UInt64) : Bool := p.next_poll_ns_s ≤ now

/-- `alive` is `daemonAlive()`, `cfg` what `cfgRead` finds, `file` the list at `list_path_s` if it can
    be read. -/
def refreshLocked (p : Process) (now : UInt64) (alive : Bool) (cfg : Option Cfg)
    (file : Option (List Bytes)) : Process :=
  if !p.polls now then p
  else
    let p := { p with next_poll_ns_s := now + CFG_POLL_NS }
    if !alive then { p with daemon_gone_s := true, on_s := false }
    else if p.daemon_gone_s then p
    else
      match cfg with
      | none => p
      | some sw =>
        let p := { p with on_s := sw.client_on ≠ 0, local_s := sw.local_on ≠ 0 }
        if sw.generation = p.gen_s then p
        else
          let p := { p with gen_s := sw.generation }
          match file with
          | none => p
          | some list => { p with list_s := list }

/-- A connection `unhookAll` waits for. -/
def busyConn (c : Conn) : Bool := c.awaiting || decide (c.owed_off < c.owed.length)

def busy (p : Process) : Bool := p.conns_s.any fun x => busyConn x.2

end Process

/-! ### The host -/

/-- Where `unhookAll` is: looking, after `i` looks that found a connection busy, or done with looking,
    after that many. -/
inductive Detach
  | no
  | waiting (i : Nat)
  | leaving (i : Nat)
  deriving DecidableEq, Repr

structure Host where
  agent : Process := {}
  /-- every `cfg` map ever made, and how many there are -/
  cfg : Nat → Cfg := fun _ => {}
  made : Nat := 0
  pinned : Option Nat := none
  detach : Detach := .no

/-- What the agent does for the application in one call. -/
structure Decision where
  suppress : Bool := false
  acts : List (Conn.Act × Bytes) := []
  got : Bytes := []
  resent : Bytes := []
  handed : List (Bytes × Bytes) := []
  /-- the framing the connection is read under afterwards, and its transaction flag -/
  framing : UInt32
  in_txn : Bool
  deriving DecidableEq, Repr

inductive Label
  -- the daemon
  | start (local_on : Bool)
  | stop
  | ctl (sw : Cfg)
  -- `bncl_agent_init`
  | attach (file : Option (List Bytes))
  | detach
  | look
  | revert
  -- the hooks
  | write (ssl : Nat) (now : UInt64) (file : Option (List Bytes)) (looks : Nat → Look) (buf : Bytes)
  | settle (ssl cap : Nat) (reply : Option UInt8) (payload : Option Bytes)
  | drain (ssl cap : Nat)
  | observe (ssl : Nat) (chunk : Bytes)

namespace Host

def daemonAlive (h : Host) : Bool := h.pinned.isSome

def cfgRead (h : Host) : Option Cfg := h.agent.fds.map h.cfg

/-- `bncl_agent_init` with the path of a list. A list that cannot be read, or pins that are not there,
    end it early; the descriptors are closed before the pins are looked for. -/
def attach (h : Host) (file : Option (List Bytes)) : Host :=
  match file with
  | none => h
  | some list =>
    let a := { h.agent with list_s := list, fds := h.pinned }
    match h.pinned with
    | none => { h with agent := a }
    | some m =>
      { h with agent := { a with
          daemon_gone_s := false, on_s := true, next_poll_ns_s := 0, gen_s := (h.cfg m).generation
          local_s := (h.cfg m).local_on ≠ 0, hooked_s := true } }

/-- `handleWrite`. -/
def write (h : Host) (ssl : Nat) (now : UInt64) (file : Option (List Bytes)) (looks : Nat → Look)
    (buf : Bytes) : Conn.Handled × Host :=
  let a := h.agent.refreshLocked now h.daemonAlive h.cfgRead file
  let r := (a.connFor ssl).handleWrite a.switches looks buf
  (r, { h with agent := a.setConn ssl r.conn })

/-- One step, and what was decided in it for which connection. -/
def act (h : Host) : Label → Option (Host × Option (Nat × Decision))
  | .start local_on =>
    match h.pinned with
    | some _ => none
    | none => some ({ h with
        pinned := some h.made, made := h.made + 1
        cfg := Function.update h.cfg h.made ⟨1, 1, if local_on then 1 else 0⟩ }, none)
  | .stop => if h.pinned = none then none else some ({ h with pinned := none }, none)
  | .ctl sw =>
    match h.pinned with
    | none => none
    | some m => some ({ h with cfg := Function.update h.cfg m sw }, none)
  | .attach file => some (h.attach file, none)
  | .detach =>
    if h.detach ≠ .no then none
    else if !h.agent.hooked_s then some (h, none)
    else some ({ h with agent := { h.agent with on_s := false }, detach := .waiting 0 }, none)
  | .look =>
    match h.detach with
    | .waiting i =>
      if !h.agent.busy then some ({ h with detach := .leaving i }, none)
      else if i + 1 < LOOKS then some ({ h with detach := .waiting (i + 1) }, none)
      else some ({ h with detach := .leaving (i + 1) }, none)
    | _ => none
  | .revert =>
    match h.detach with
    | .leaving _ => some ({ h with agent := { h.agent with hooked_s := false }, detach := .no }, none)
    | _ => none
  | .write ssl now file looks buf =>
    if !h.agent.hooked_s then none
    else if buf = [] then some (h, none)
    else
      let r := h.write ssl now file looks buf
      some (r.2, some (ssl, { suppress := r.1.suppress, acts := r.1.acts, framing := r.1.conn.assumed,
                              in_txn := r.1.conn.in_txn }))
  | .settle ssl cap reply payload =>
    if !h.agent.hooked_s ∨ cap = 0 then none
    else
      let t := (h.agent.connFor ssl).settle cap reply payload
      some ({ h with agent := h.agent.setConn ssl t.conn },
        some (ssl, { got := t.got, resent := t.resent, framing := t.conn.assumed, in_txn := t.conn.in_txn }))
  | .drain ssl cap =>
    let d := (h.agent.connFor ssl).drainLocked cap
    some (if (h.agent.conns_s.lookup ssl).isNone then h else { h with agent := h.agent.setConn ssl d.2 },
      some (ssl, { got := d.1, framing := d.2.assumed, in_txn := d.2.in_txn }))
  | .observe ssl chunk =>
    let o := (h.agent.connFor ssl).observe chunk
    some ({ h with agent := h.agent.setConn ssl o.1 },
      some (ssl, { handed := o.2, framing := o.1.assumed, in_txn := o.1.in_txn }))

def step (h : Host) (l : Label) : Option Host := (h.act l).map Prod.fst

/-- The decisions of a run, one after another. -/
def decisions : Host → List Label → List (Nat × Decision)
  | _, [] => []
  | h, l :: ls =>
    match h.act l with
    | none => []
    | some (h', d) => d.toList ++ decisions h' ls

end Host

end Barnacle.Agent
