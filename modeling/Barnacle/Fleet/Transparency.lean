import Barnacle.Agent.Answers
import Barnacle.Mysql.Reframe
import Barnacle.Daemon.Cache

/-! Everything together: connections of any number of applications with an agent behind each, a daemon
    on every host, and the one Valkey the hosts share.

    An exchange is one step, taken when its response has been read; what its agent found in the arena
    meanwhile was there at some earlier step, and what it hands to the daemon is served at some later
    one, if ever, by when its pipe may name another statement: `Careful` has it that it does not. Valkey
    may forget a value at any time. A payload is read as one piece (`Barnacle.Daemon.Publication`).

    Whatever the order, the cache makes no answers up: what an application reads is what its own server
    sent, or else the result set some server gave to the very same statement, outside a transaction and
    with nothing to follow it. -/

namespace Barnacle
open Lib Mysql Arena
open Agent (Exchange Part Session Write capsOf handedAll isQuery readsOf writeAll)
open Daemon (Event valkeyKey)

/-- The last three fields are for the statements only: what agents on a host have handed to its daemon,
    what was found in a host's arena for a statement, and the exchanges so far. -/
structure Fleet where
  hosts : Nat → Daemon
  db : Bytes → Option Bytes := fun _ => none
  conns : Nat → Session := fun _ => {}
  handed : List (Nat × Bytes × Bytes) := []
  found : List (Nat × Bytes × Bytes) := []
  past : List (Nat × Exchange) := []

namespace Fleet

/-! ### Steps -/

inductive Label
  /-- a command on a connection, and its response -/
  | exchange (c : Nat) (x : Exchange)
  /-- `lookupPayload` on a host, whatever the age of what it finds -/
  | lookupPayload (h : Nat) (sql : Bytes)
  /-- an event of a host's daemon; `up` says whether a STORE reaches Valkey -/
  | daemon (h : Nat) (e : Event) (up : Bool)
  /-- Valkey forgets a value -/
  | expire (key : Bytes)
  /-- a daemon was stopped and is started again -/
  | restart (h : Nat) (mem : Mem) (len : Nat)

/-- The text of the statement a pipe is for. -/
def textOn (f : Fleet) (h key : Nat) : Bytes :=
  let d := f.hosts h
  d.text (d.recs (d.pipes key))

/-- Valkey answers a GET with what it was last given, if anything. -/
def Fetches (f : Fleet) (h : Nat) : Event → Prop
  | .serveLookup key env => ∀ v ∈ env.valkey, ∀ body ∈ v.get (valkeyKey (f.textOn h key)),
      f.db (valkeyKey (f.textOn h key)) = some body
  | .serveStore .. | .loadStatements .. | .collectOrphans _ | .reclaim _ | .count .. | .point .. => True

instance (f : Fleet) (h : Nat) : (e : Event) → Decidable (f.Fetches h e)
  | .serveLookup .. => inferInstanceAs (Decidable (∀ _ ∈ _, _))
  | .serveStore .. | .loadStatements .. | .collectOrphans _ | .reclaim _ | .count .. | .point .. => .isTrue trivial

/-- A STORE brings what an agent of the host handed over for the statement that its pipe names now. -/
def Brings (f : Fleet) (h : Nat) : Event → Prop
  | .serveStore key body _ => (h, f.textOn h key, body) ∈ f.handed
  | .serveLookup .. | .loadStatements .. | .collectOrphans _ | .reclaim _ | .count .. | .point .. => True

instance (f : Fleet) (h : Nat) : (e : Event) → Decidable (f.Brings h e)
  | .serveStore .. => inferInstanceAs (Decidable (_ ∈ _))
  | .serveLookup .. | .loadStatements .. | .collectOrphans _ | .reclaim _ | .count .. | .point .. => .isTrue trivial

/-- Valkey after an event: SETEX for a STORE that passes the checks. -/
def dbAfter (f : Fleet) (h : Nat) (up : Bool) : Event → Bytes → Option Bytes
  | .serveStore key body env =>
    if up && ((f.hosts h).brought (.serveStore key body env)).isSome then
      Function.update f.db (valkeyKey (f.textOn h key)) (some body)
    else f.db
  | .serveLookup .. | .loadStatements .. | .collectOrphans _ | .reclaim _ | .count .. | .point .. => f.db

variable (host : Nat → Nat) (dep : Nat → Bool)

/-- `host` says where a connection's application runs, `dep` whether the connection negotiated
    CLIENT_DEPRECATE_EOF. -/
def step (f : Fleet) : Label → Option Fleet
  | .exchange c x =>
    if ∀ r ∈ x.reads, ∀ body ∈ r.payload, (host c, x.cmd.drop 1, body) ∈ f.found then
      ((f.conns c).step (dep c) x).map fun s =>
        { f with
          conns := Function.update f.conns c s
          handed := f.handed ++ (handedAll (writeAll (f.conns c).conn x.writes).1 x.reads).map (host c, ·)
          past := f.past ++ [(c, x)] }
    else none
  | .lookupPayload h sql =>
    (((f.hosts h).cache sql).bind Daemon.Item.body).map fun body => { f with found := f.found ++ [(h, sql, body)] }
  | .daemon h e up =>
    if f.Fetches h e then
      ((f.hosts h).step e).map fun d => { f with hosts := Function.update f.hosts h d, db := f.dbAfter h up e }
    else none
  | .expire key => some { f with db := Function.update f.db key none }
  | .restart h mem len =>
    if BNCL_CTL_BYTES + MIN_BLOCK < len ∧ len < 2 ^ 32 then
      some { f with hosts := Function.update f.hosts h (Daemon.start mem len) }
    else none

/-- Responses are whole and the tracker sees their ends, a pipe names a record that is still there, and a
    STORE has reached the pipe of its statement. -/
def Careful (f : Fleet) : Label → Prop
  | .exchange c x => x.Proper ∧ (f.conns c).SeesEnd (dep c) x
  | .daemon h e _ => (f.hosts h).Served e ∧ f.Brings h e
  | .lookupPayload .. | .expire _ | .restart .. => True

instance (f : Fleet) : (l : Label) → Decidable (f.Careful dep l)
  | .exchange .. => inferInstanceAs (Decidable (_ ∧ _))
  | .daemon .. => inferInstanceAs (Decidable (_ ∧ _))
  | .lookupPayload .. | .expire _ | .restart .. => .isTrue trivial

def start (mem : Nat → Mem) (len : Nat → Nat) : Fleet := { hosts := fun h => Daemon.start (mem h) (len h) }

/-! ### Where a body comes from -/

/-- A body that is brought to a record comes from the request, or from Valkey under the record's text. -/
theorem brought_cases {d : Daemon} {e : Event} {p : Nat} {body : Bytes} {env : Daemon.Env}
    (h : d.brought e = some (p, body, env)) :
    (∃ key, e = .serveStore key body env ∧ p = d.pipes key) ∨
      ∃ key v, e = .serveLookup key env ∧ p = d.pipes key ∧ env.valkey = some v ∧
        v.get (valkeyKey (d.text (d.recs p))) = some body := by
  cases e with
  | serveStore key b env' =>
    unfold Daemon.brought at h
    dsimp only at h
    split_ifs at h
    rw [Option.some.injEq, Prod.mk.injEq, Prod.mk.injEq] at h
    obtain ⟨rfl, rfl, rfl⟩ := h
    exact .inl ⟨key, rfl, rfl⟩
  | serveLookup key env' =>
    obtain ⟨rfl, v, hv, hget⟩ := Daemon.brought_lookup h
    unfold Daemon.brought at h
    dsimp only at h
    split_ifs at h
    obtain ⟨b, -, e⟩ := Option.map_eq_some_iff.mp h
    rw [Prod.mk.injEq] at e
    exact .inr ⟨key, v, rfl, e.1.symm, hv, hget⟩
  | loadStatements | collectOrphans | reclaim | count | point => cases h

/-- The bytes are the canonical form of what a server said to the statement. -/
def Genuine (past : List (Nat × Exchange)) (sql body : Bytes) : Prop :=
  ∃ y ∈ past, y.2.cmd = COM_QUERY :: sql ∧ ∃ p, y.2.parts = [p] ∧ p.WellFormed ∧ p.Plain body

theorem Genuine.mono {past more : List (Nat × Exchange)} {sql body : Bytes} (h : Genuine past sql body) :
    Genuine (past ++ more) sql body := by
  obtain ⟨y, hy, hall⟩ := h
  exact ⟨y, List.mem_append_left _ hy, hall⟩

/-- Whatever the daemon has for a statement is genuine. -/
def Keeps (past : List (Nat × Exchange)) (d : Daemon) : Prop :=
  ∀ sql ts body, Daemon.Has sql body ts d → Genuine past sql body

theorem Keeps.mono {past more : List (Nat × Exchange)} {d : Daemon} (h : Keeps past d) : Keeps (past ++ more) d :=
  fun sql ts body hhas => (h sql ts body hhas).mono

theorem keeps_start (past : List (Nat × Exchange)) (mem : Mem) (len : Nat) : Keeps past (Daemon.start mem len) := by
  rintro sql ts body ⟨ttl, hc⟩
  cases hc

/-- Everything that can still become an answer is genuine. -/
structure Inv (f : Fleet) : Prop where
  ready : ∀ c, (f.conns c).Ready (dep c)
  caches : ∀ h, (f.hosts h).Caches
  handed : ∀ t ∈ f.handed, Genuine f.past t.2.1 t.2.2
  found : ∀ t ∈ f.found, Genuine f.past t.2.1 t.2.2
  db : ∀ sql body, f.db (valkeyKey sql) = some body → Genuine f.past sql body
  kept : ∀ h, Keeps f.past (f.hosts h)

section Step
variable {host dep} {f f' : Fleet}

/-- What a request brings to a host is genuine. -/
theorem Inv.brought (hf : f.Inv dep) {h p : Nat} {e : Event} {body : Bytes} {env : Daemon.Env}
    (hfetches : f.Fetches h e) (hbrings : f.Brings h e) (hb : (f.hosts h).brought e = some (p, body, env)) :
    Genuine f.past ((f.hosts h).text ((f.hosts h).recs p)) body := by
  rcases brought_cases hb with ⟨key, rfl, rfl⟩ | ⟨key, v, rfl, rfl, hv, hget⟩
  · exact hf.handed _ hbrings
  · exact hf.db _ _ (hfetches v hv body hget)

theorem Inv.dbAfter (hf : f.Inv dep) {h : Nat} {e : Event} {up : Bool} (hbrings : f.Brings h e) (sql body : Bytes)
    (hdb : f.dbAfter h up e (valkeyKey sql) = some body) : Genuine f.past sql body := by
  cases e with
  | serveStore key b env =>
    rw [Fleet.dbAfter] at hdb
    split_ifs at hdb
    · by_cases hsql : sql = f.textOn h key
      · subst hsql
        rw [Function.update_self, Option.some.injEq] at hdb
        exact hdb ▸ hf.handed _ hbrings
      · rw [Function.update_of_ne fun h => hsql (Daemon.valkeyKey_inj h)] at hdb
        exact hf.db sql body hdb
    · exact hf.db sql body hdb
  | serveLookup | loadStatements | collectOrphans | reclaim | count | point => exact hf.db sql body hdb

/-- An event of a daemon. -/
theorem Inv.daemon (hf : f.Inv dep) {h : Nat} {e : Event} {up : Bool} {d : Daemon} (hfetches : f.Fetches h e)
    (hbrings : f.Brings h e) (hp : (f.hosts h).Served e) (hs : (f.hosts h).step e = some d) :
    Inv dep { f with hosts := Function.update f.hosts h d, db := f.dbAfter h up e } := by
  have hkept : Keeps f.past d := by
    intro sql ts body hhas
    by_cases h0 : Daemon.Has sql body ts (f.hosts h)
    · exact hf.kept h sql ts body h0
    · obtain ⟨p, env, hm, hb, -⟩ := (hf.caches h).brought_of_has hp hs h0 hhas
      obtain ⟨lost, last, names, hk⟩ := (hf.caches h).kept
      have hgenuine := hf.brought hfetches hbrings hb
      rw [(hk.text_eq hm).1] at hgenuine
      exact hgenuine
  exact ⟨hf.ready, (Function.forall_update_iff f.hosts fun _ d => d.Caches).mpr ⟨(hf.caches h).step hp hs,
      fun h' _ => hf.caches h'⟩, hf.handed, hf.found, fun sql body => hf.dbAfter hbrings sql body,
    (Function.forall_update_iff f.hosts fun _ d => Keeps f.past d).mpr ⟨hkept, fun h' _ => hf.kept h'⟩⟩

/-- An exchange: what its agent hands over is what the server has just said. -/
theorem Inv.exchange (hf : f.Inv dep) {c : Nat} {x : Exchange} {s : Session} (hx : x.Proper)
    (hsees : (f.conns c).SeesEnd (dep c) x) (hs : (f.conns c).step (dep c) x = some s) :
    Inv dep { f with
      conns := Function.update f.conns c s
      handed := f.handed ++ (handedAll (writeAll (f.conns c).conn x.writes).1 x.reads).map (host c, ·)
      past := f.past ++ [(c, x)] } := by
  obtain ⟨m, hm, hcmd, hwf, hans, -⟩ := Session.step_cases hs
  obtain ⟨-, -, hpairs⟩ := (hf.ready c).leaves hx hsees hm hcmd hwf hans
  refine ⟨?_, hf.caches, ?_, fun t ht => (hf.found t ht).mono, fun sql body h => (hf.db sql body h).mono,
    fun h => (hf.kept h).mono⟩
  · exact (Function.forall_update_iff f.conns fun c s => s.Ready (dep c)).mpr
      ⟨Session.ready_step _ x s (hf.ready c) ⟨hx, hsees⟩ hs, fun c' _ => hf.ready c'⟩
  · intro t ht
    rcases List.mem_append.mp ht with ht | ht
    · exact (hf.handed t ht).mono
    · obtain ⟨pair, hpair, rfl⟩ := List.mem_map.mp ht
      obtain ⟨hsql, p, hp, hplain⟩ := hpairs pair hpair
      refine ⟨(c, x), by simp, hsql, p, hp, hwf p ?_, hplain⟩
      rw [hp]
      exact List.mem_singleton.mpr rfl

theorem inv_step (f : Fleet) (l : Label) (f' : Fleet) (hf : f.Inv dep) (hl : f.Careful dep l)
    (hs : f.step host dep l = some f') : f'.Inv dep := by
  cases l with
  | exchange c x =>
    rw [step] at hs
    split_ifs at hs
    obtain ⟨s, hx, rfl⟩ := Option.map_eq_some_iff.mp hs
    exact hf.exchange hl.1 hl.2 hx
  | lookupPayload h sql =>
    obtain ⟨body, hbody, rfl⟩ := Option.map_eq_some_iff.mp hs
    refine ⟨hf.ready, hf.caches, hf.handed, ?_, hf.db, hf.kept⟩
    intro t ht
    rcases List.mem_append.mp ht with ht | ht
    · exact hf.found t ht
    · rw [List.mem_singleton.mp ht]
      obtain ⟨it, hit, hb⟩ := Option.bind_eq_some_iff.mp hbody
      exact hf.kept h sql it.ts body ⟨it.ttl, by rw [hit, ← hb]⟩
  | daemon h e up =>
    rw [step] at hs
    split_ifs at hs with hfetches
    obtain ⟨d, hd, rfl⟩ := Option.map_eq_some_iff.mp hs
    exact hf.daemon hfetches hl.2 hl.1 hd
  | expire key =>
    cases hs
    refine ⟨hf.ready, hf.caches, hf.handed, hf.found, ?_, hf.kept⟩
    intro sql body hdb
    by_cases e : valkeyKey sql = key
    · rw [e] at hdb
      simp at hdb
    · exact hf.db sql body (by rw [← hdb]; exact (Function.update_of_ne e ..).symm)
  | restart h mem len =>
    rw [step] at hs
    split_ifs at hs with hlen
    cases hs
    exact ⟨hf.ready, (Function.forall_update_iff f.hosts fun _ d => d.Caches).mpr
        ⟨Daemon.caches_start hlen.1 hlen.2, fun h' _ => hf.caches h'⟩, hf.handed, hf.found, hf.db,
      (Function.forall_update_iff f.hosts fun _ d => Keeps f.past d).mpr
        ⟨keeps_start f.past mem len, fun h' _ => hf.kept h'⟩⟩

end Step

theorem inv_start (mem : Nat → Mem) {len : Nat → Nat}
    (hlen : ∀ h, BNCL_CTL_BYTES + MIN_BLOCK < len h ∧ len h < 2 ^ 32) : (start mem len).Inv dep := by
  refine ⟨fun c => Session.ready_init (dep c), fun h => Daemon.caches_start (hlen h).1 (hlen h).2, by simp [start],
    by simp [start], ?_, fun h => keeps_start [] (mem h) (len h)⟩
  intro sql body hdb
  cases hdb

/-! ### Answers -/

/-- The exchange a step makes. -/
def Label.made : Label → List (Nat × Exchange)
  | .exchange c x => [(c, x)]
  | .lookupPayload .. | .daemon .. | .expire _ | .restart .. => []

variable {host dep}

open Agent.Session (sampleExchange sampleSelect)
open Agent.Wire (sampleSet)

def canonical : Bytes := encodeResultSet sampleSet BNCL_CANONICAL_CAPS 1

def loads : Event := .loadStatements [sampleSelect] 60 (fun _ => false) 1

/-- The second connection asks, and reads the answer in two pieces. -/
def asks : Exchange where
  cmd := COM_QUERY :: sampleSelect
  writes := [⟨{ list := [sampleSelect] }, fun _ => ⟨true, true, true⟩,
    encodeMessage (COM_QUERY :: sampleSelect) 0⟩]
  parts := []
  reads := [{ cap := 9, reply := some Agent.REPLY_OK, payload := some canonical, fits := by decide },
    { cap := 900, fits := by decide }]

end Fleet

end Barnacle
