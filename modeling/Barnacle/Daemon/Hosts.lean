import Barnacle.Daemon.Payloads

/-! Any number of hosts that share one Valkey (`expired`, `store` and `serve` in
    `src/daemon/main.cpp`). A STORE puts the body into Valkey under the statement's text and into the
    host's own arena; a LOOKUP is answered from the arena while the copy there is young enough, and
    from Valkey otherwise. Every host has the same TTL and all clocks agree.

    A copy filled from Valkey is stamped with the time of the LOOKUP that filled it, not with the time
    of the STORE the body came from. It is good for another whole TTL from there on. -/

namespace Barnacle.Daemon
open Barnacle.Lib Barnacle.Arena
open Barnacle.Pipes (Status)

/-- A TTL in nanoseconds. -/
def span (ttl : UInt32) : Nat := ttl.toNat * 1000000000

/-! ### Valkey -/

/-- What SETEX keeps. -/
structure Entry where
  body : Bytes
  since : UInt64
  fits : body.length < 2 ^ 63

/-- GET returns the value until its TTL is over. -/
def Entry.alive (ttl : UInt32) (now : UInt64) (e : Entry) : Bool := now.toNat ≤ e.since.toNat + span ttl

def valkeyAt (ttl : UInt32) (db : Bytes → Option Entry) (now : UInt64) : Valkey where
  get key := ((db key).filter (Entry.alive ttl now)).map Entry.body
  fits key body h := by
    obtain ⟨e, -, rfl⟩ := Option.map_eq_some_iff.mp h
    exact e.fits

/-- `SETEX key ttl body`. No body is longer than memory. -/
def setex (db : Bytes → Option Entry) (key body : Bytes) (now : UInt64) : Bytes → Option Entry :=
  if h : body.length < 2 ^ 63 then Function.update db key (some ⟨body, now, h⟩) else db

/-! ### Hosts -/

/-- A body that a STORE handed in. -/
structure Handed where
  sql : Bytes
  body : Bytes
  since : UInt64
deriving DecidableEq

structure Cluster where
  hosts : Nat → Traced
  db : Bytes → Option Entry := fun _ => none
  clock : UInt64 := 0
  /-- every STORE that passed the checks of `store` -/
  stores : List Handed := []
  /-- whether the payload of a host's record was filled from Valkey -/
  fetched : Nat → Nat → Bool := fun _ _ => false

/-- What happens on one host. Whether Valkey can be reached and whether the local tier is on may
    differ from one request to the next. -/
inductive Act
  | store (key : Nat) (body : Bytes) (up : Bool)
  | lookup (key : Nat) (spliced local_on up : Bool)
  /-- a client points a pipe at a record it found in `stmts_map` -/
  | acquire (key p : Nat)
  | count (p : Nat) (refs : UInt32)
  | collectOrphans
  | reclaim

/-- The act as an event of the host's daemon, and what the daemon finds. -/
def Cluster.event (ttl : UInt32) (s : Cluster) (now : UInt64) : Act → Event
  | .store key body _ => .serveStore key body ⟨true, true, none, ttl, now, now⟩
  | .lookup key spliced local_on up => .serveLookup key
      ⟨spliced, local_on, if up then some (valkeyAt ttl s.db now) else none, ttl, now, now⟩
  | .acquire key p => .point key p
  | .count p refs => .count p refs
  | .collectOrphans => .collectOrphans now
  | .reclaim => .reclaim now

/-- Time does not go back, and a client finds only records that are published. -/
def Cluster.allowed (s : Cluster) (host : Nat) (now : UInt64) : Act → Bool
  | .acquire _ p => s.clock ≤ now && p ∈ (s.hosts host).daemon.known.map Prod.snd
  | _ => s.clock ≤ now

/-- The body of a STORE, for the statement its pipe names. -/
def Cluster.handed (s : Cluster) (host : Nat) (now : UInt64) (e : Event) : Act → Option Handed
  | .store .. =>
    let d := (s.hosts host).daemon
    (d.brought e).map fun r => ⟨d.text (d.recs r.1), r.2.1, now⟩
  | _ => none

/-- A STORE reaches Valkey only when Valkey can be reached. -/
def Act.up : Act → Bool
  | .store _ _ up => up
  | _ => false

def Act.fills : Act → Bool
  | .lookup .. => true
  | _ => false

/-- What is in Valkey after a STORE. -/
def Cluster.dbAfter (s : Cluster) (up : Bool) (now : UInt64) : Option Handed → Bytes → Option Entry
  | some h => if up then setex s.db (valkeyKey h.sql) h.body now else s.db
  | none => s.db

/-- Which copies come from Valkey after a body was stored. -/
def Cluster.mark (s : Cluster) (host : Nat) (fills : Bool) : Option (Nat × Bytes) → Nat → Nat → Bool
  | some (p, _) => Function.update s.fetched host (Function.update (s.fetched host) p fills)
  | none => s.fetched

def Cluster.step (ttl : UInt32) (s : Cluster) (l : Nat × UInt64 × Act) : Option Cluster :=
  let host := l.1
  let now := l.2.1
  let act := l.2.2
  let t := s.hosts host
  let e := s.event ttl now act
  if s.allowed host now act then
    (t.step e).map fun t' =>
      let h := s.handed host now e act
      { hosts := Function.update s.hosts host t'
        db := s.dbAfter act.up now h
        clock := now
        stores := h.toList ++ s.stores
        fetched := s.mark host act.fills (t.daemon.stored e) }
  else none

/-- Every host has loaded its list. -/
def Cluster.start (mem : Nat → Mem) (len : Nat → Nat) (ttl : UInt32) (lines : Nat → List Bytes)
    (refuse : Nat → Bytes → Bool) : Cluster :=
  { hosts := fun h =>
      { daemon := (Daemon.start (mem h) (len h)).loadStatements (lines h) ttl (refuse h) 0 } }

/-- What a LOOKUP on a host replies. -/
def Cluster.reply (ttl : UInt32) (s : Cluster) (host : Nat) (now : UInt64) : Act → Option Status
  | .lookup key spliced local_on up =>
    (((s.hosts host).daemon.serveLookup key
      ⟨spliced, local_on, if up then some (valkeyAt ttl s.db now) else none, ttl, now, now⟩).1).map Prod.fst
  | _ => none

/-! ### What a step does to one record -/

section Records
variable {d d' : Daemon} {lost : List Nat} {last : Nat → Option Bytes} {sql : Nat → Bytes}

/-- The step stores nothing for the record: its payload and times stay, or the payload goes. -/
def Stays (d d' : Daemon) (e : Event) (p : Nat) : Prop :=
  (∀ body, d.stored e ≠ some (p, body)) ∧ (d'.recs p).ttl = (d.recs p).ttl ∧
    ((d'.recs p).data = 0 ∨ (d'.recs p).data = (d.recs p).data ∧ (d'.recs p).ts = (d.recs p).ts)

/-- The step stores a body for the record. -/
def Fills (d d' : Daemon) (e : Event) (p : Nat) : Prop :=
  ∃ body env, d.brought e = some (p, body, env) ∧ d.stored e = some (p, body) ∧
    (d'.recs p).ttl = env.ttl ∧ (d'.recs p).ts = env.now ∧ (d'.recs p).data ≠ 0

theorem stays_of_rec {e : Event} {p : Nat} (hb : d.brought e = none) (hr : d'.recs p = d.recs p) :
    Stays d d' e p := by
  refine ⟨fun _ hc => ?_, by rw [hr], .inr ⟨by rw [hr], by rw [hr]⟩⟩
  rw [stored_of_none hb] at hc
  cases hc

/-- A body that is brought fills its record, or there is no room and nothing changes. -/
theorem install_rec {e : Event} {p : Nat} {body : Bytes} {env : Env} (h : d.Kept lost last sql)
    (hb : d.brought e = some (p, body, env)) (hp : p ∈ d.stmts) (hlen : body.length < 2 ^ 63) (q : Nat) :
    Stays d (d.install p body env) e q ∨ Fills d (d.install p body env) e q := by
  rcases h.sound.publish (List.mem_append_left lost hp) hlen env.kept with he | ⟨x, he, hx0, -⟩
  · have hst : d.stored e = none := by rw [stored, hb, Option.bind_some, he]; rfl
    have hi : d.install p body env = d := by unfold install; rw [he]
    left
    rw [hi]
    refine ⟨fun _ hc => ?_, rfl, .inr ⟨rfl, rfl⟩⟩
    rw [hst] at hc
    cases hc
  · have hst : d.stored e = some (p, body) := by rw [stored, hb, Option.bind_some, he]; rfl
    have hi : (d.install p body env).recs =
        Function.update d.recs p ((d.recs p).publish x body.length env.ttl env.now) := by
      unfold install
      dsimp only
      rw [he]
      rfl
    by_cases e1 : q = p
    · right
      subst e1
      rw [Fills, hi, Function.update_self]
      exact ⟨body, env, hb, hst, rfl, rfl, hx0⟩
    · left
      have hr : (d.install p body env).recs q = d.recs q := by rw [hi, Function.update_of_ne e1]
      refine ⟨?_, by rw [hr], .inr ⟨by rw [hr], by rw [hr]⟩⟩
      rw [hst]
      intro b hc
      cases hc
      exact e1 rfl

theorem stays_quiet {e : Event} (h : d.Kept lost last sql) (hb : d.brought e = none)
    (hl : ∀ lines ttl refuse now, e ≠ .loadStatements lines ttl refuse now) (hs : d.step e = some d') :
    ∀ k ∈ d.known, Stays d d' e k.2 := by
  intro k hk
  have hst : ∀ body, d.stored e ≠ some (k.2, body) := by
    intro body hc
    rw [stored_of_none hb] at hc
    cases hc
  cases e <;> cases hs
  case loadStatements lines ttl refuse now => exact absurd rfl (hl lines ttl refuse now)
  case serveLookup key env =>
    rcases serveLookup_cases d key env with ⟨p, body, hb', -⟩ | ⟨-, e | ⟨h0, e⟩⟩
    · rw [hb'] at hb
      cases hb
    · rw [e]
      exact stays_of_rec hb rfl
    · rw [e]
      by_cases e1 : k.2 = d.pipes key
      · exact ⟨hst, by rw [clear, e1, setRec_self], .inl (by rw [clear, e1, setRec_self])⟩
      · exact stays_of_rec hb (setRec_of_ne d e1 _)
  case serveStore key body env =>
    rw [serveStore_eq, hb]
    exact stays_of_rec hb rfl
  case collectOrphans now => exact stays_of_rec hb ((collect_kept h now).2 k hk)
  case reclaim now => exact stays_of_rec hb rfl
  case count p refs =>
    by_cases e1 : k.2 = p
    · exact ⟨hst, by rw [e1, setRec_self], .inr ⟨by rw [e1, setRec_self], by rw [e1, setRec_self]⟩⟩
    · exact stays_of_rec hb (setRec_of_ne d e1 _)
  case point key p => exact stays_of_rec hb rfl

theorem rec_step {e : Event} (h : d.Kept lost last sql)
    (hl : ∀ lines ttl refuse now, e ≠ .loadStatements lines ttl refuse now) (hp : d.Served e)
    (hs : d.step e = some d') : ∀ k ∈ d.known, Stays d d' e k.2 ∨ Fills d d' e k.2 := by
  intro k hk
  cases hb : d.brought e with
  | some r =>
    obtain ⟨p, body, env⟩ := r
    obtain ⟨rfl, hlen, hmem⟩ := brought_install hb hs
    exact install_rec h hb (hmem hp) hlen k.2
  | none => exact .inl (stays_quiet h hb hl hs k hk)

end Records

/-! ### Where a copy comes from -/

/-- What holds of one host, given the bodies handed in so far on any host. -/
structure Host (ttl : UInt32) (t : Traced) (fetched : Nat → Bool) (stores : List Handed) (clock : UInt64) :
    Prop where
  kept : ∃ lost sql, t.daemon.Kept lost t.last sql
  pipes : ∀ key, t.daemon.pipes key = 0 ∨ t.daemon.pipes key ∈ t.daemon.known.map Prod.snd
  ttl : ∀ k ∈ t.daemon.known, (t.daemon.recs k.2).ttl = ttl
  copies : ∀ k ∈ t.daemon.known, (t.daemon.recs k.2).data ≠ 0 → ∃ h ∈ stores, h.sql = k.1 ∧
    t.last k.2 = some h.body ∧ h.since ≤ clock ∧ (fetched k.2 = false → (t.daemon.recs k.2).ts = h.since)

structure Cluster.Inv (ttl : UInt32) (s : Cluster) : Prop where
  host : ∀ h, Host ttl (s.hosts h) (s.fetched h) s.stores s.clock
  db : ∀ key e, s.db key = some e → ∃ h ∈ s.stores, valkeyKey h.sql = key ∧ h.body = e.body ∧
    h.since = e.since ∧ h.since ≤ s.clock

theorem valkeyKey_inj {a b : Bytes} (h : valkeyKey a = valkeyKey b) : a = b := List.append_cancel_left h

/-- A LOOKUP brings what Valkey has for the record's text. -/
theorem brought_lookup {d : Daemon} {key p : Nat} {env env' : Env} {body : Bytes}
    (h : d.brought (.serveLookup key env) = some (p, body, env')) :
    env' = env ∧ ∃ v, env.valkey = some v ∧ v.get (valkeyKey (d.text (d.recs p))) = some body := by
  unfold brought at h
  dsimp only at h
  split at h
  · cases h
  · obtain ⟨b, hb, e⟩ := Option.map_eq_some_iff.mp h
    cases e
    obtain ⟨v, hv, hf⟩ := Option.bind_eq_some_iff.mp hb
    refine ⟨rfl, v, hv, ?_⟩
    unfold fetch at hf
    split at hf
    · cases hf
    · exact (Option.filter_eq_some_iff.mp hf).1

theorem valkeyAt_get {ttl : UInt32} {db : Bytes → Option Entry} {now : UInt64} {key body : Bytes}
    (h : (valkeyAt ttl db now).get key = some body) :
    ∃ e, db key = some e ∧ e.body = body ∧ now.toNat ≤ e.since.toNat + span ttl := by
  obtain ⟨e, he, rfl⟩ := Option.map_eq_some_iff.mp h
  obtain ⟨h1, h2⟩ := Option.filter_eq_some_iff.mp he
  exact ⟨e, h1, rfl, of_decide_eq_true h2⟩

section Step
variable {ttl : UInt32} {s s' : Cluster} {host : Nat} {now : UInt64} {act : Act}

/-- Later, with more bodies handed in. -/
theorem Host.mono {t : Traced} {fetched : Nat → Bool} {stores more : List Handed} {clock : UInt64}
    (h : Host ttl t fetched stores clock) (hc : clock ≤ now) : Host ttl t fetched (more ++ stores) now := by
  refine ⟨h.kept, h.pipes, h.ttl, ?_⟩
  intro k hk h0
  obtain ⟨x, hx, e1, e2, e3, e4⟩ := h.copies k hk h0
  exact ⟨x, List.mem_append_right _ hx, e1, e2, UInt64.le_trans e3 hc, e4⟩

theorem event_not_load : ∀ lines ttl' refuse now', s.event ttl now act ≠ .loadStatements lines ttl' refuse now' := by
  intro _ _ _ _ h
  cases act <;> cases h

theorem Host.served {t : Traced} {fetched : Nat → Bool} {stores : List Handed} {clock : UInt64}
    (h : Host ttl t fetched stores clock) (e : Event) : t.daemon.Served e := by
  have hp : ∀ key, t.daemon.pipes key = 0 ∨ t.daemon.pipes key ∈ t.daemon.stmts := fun key =>
    (h.pipes key).imp_right fun hm => List.mem_append_left _ hm
  cases e with
  | serveLookup key env => exact hp key
  | serveStore key body env => exact hp key
  | _ => trivial

/-- The entry a payload comes from, when a LOOKUP fills a record from Valkey. -/
theorem Cluster.Inv.fetched_from (h : s.Inv ttl) {key p : Nat} {spliced local_on up : Bool} {body : Bytes}
    {env : Env}
    (hb : (s.hosts host).daemon.brought (s.event ttl now (.lookup key spliced local_on up)) =
      some (p, body, env)) :
    ∃ x ∈ s.stores, x.sql = (s.hosts host).daemon.text ((s.hosts host).daemon.recs p) ∧ x.body = body ∧
      x.since ≤ s.clock ∧ now.toNat ≤ x.since.toNat + span ttl := by
  obtain ⟨-, v, hv, hg⟩ := brought_lookup hb
  cases up with
  | false => cases hv
  | true =>
    cases hv
    obtain ⟨e, he, rfl, ha⟩ := valkeyAt_get hg
    obtain ⟨x, hx, e1, e2, e3, e4⟩ := h.db _ _ he
    exact ⟨x, hx, valkeyKey_inj e1, e2, e4, e3 ▸ ha⟩

theorem Cluster.step_some (hs : s.step ttl (host, now, act) = some s') :
    s.allowed host now act = true ∧ ∃ d', (s.hosts host).daemon.step (s.event ttl now act) = some d' ∧
      s' = { hosts := Function.update s.hosts host
              ⟨d', (s.hosts host).daemon.afterStep (s.hosts host).last (s.event ttl now act)⟩
             db := s.dbAfter act.up now (s.handed host now (s.event ttl now act) act)
             clock := now
             stores := (s.handed host now (s.event ttl now act) act).toList ++ s.stores
             fetched := s.mark host act.fills ((s.hosts host).daemon.stored (s.event ttl now act)) } := by
  unfold Cluster.step at hs
  dsimp only at hs
  split at hs
  next ha =>
    obtain ⟨t', ht, rfl⟩ := Option.map_eq_some_iff.mp hs
    obtain ⟨d', hd, rfl⟩ := Option.map_eq_some_iff.mp ht
    exact ⟨ha, d', hd, rfl⟩
  next => cases hs

theorem clock_le (h : s.allowed host now act = true) : s.clock ≤ now := by
  cases act <;> simp only [Cluster.allowed, Bool.and_eq_true, decide_eq_true_eq] at h <;> first
    | exact h.1
    | exact h

/-- Pipes keep naming records of the list. -/
theorem pipes_step {d' : Daemon} (ha : s.allowed host now act = true)
    (hd : (s.hosts host).daemon.step (s.event ttl now act) = some d')
    (hp : ∀ key, (s.hosts host).daemon.pipes key = 0 ∨
      (s.hosts host).daemon.pipes key ∈ (s.hosts host).daemon.known.map Prod.snd) (key : Nat) :
    d'.pipes key = 0 ∨ d'.pipes key ∈ (s.hosts host).daemon.known.map Prod.snd := by
  have hsame : d'.pipes = (s.hosts host).daemon.pipes →
      d'.pipes key = 0 ∨ d'.pipes key ∈ (s.hosts host).daemon.known.map Prod.snd := by
    intro e
    rw [e]
    exact hp key
  cases hb : (s.hosts host).daemon.brought (s.event ttl now act) with
  | some r =>
    obtain ⟨p, body, env⟩ := r
    obtain ⟨rfl, -⟩ := brought_install hb hd
    exact hsame (install_frame ..).2.1
  | none =>
    cases act with
    | store k body up =>
      cases hd
      refine hsame ?_
      rw [serveStore_eq]
      rw [Cluster.event] at hb
      rw [hb]
    | lookup k spliced local_on up =>
      cases hd
      rw [Cluster.event] at hb
      rcases serveLookup_cases (s.hosts host).daemon k _ with ⟨p, body, hb', -⟩ | ⟨-, e | ⟨-, e⟩⟩
      · rw [hb'] at hb
        cases hb
      · exact hsame (by rw [e])
      · exact hsame (by rw [e]; rfl)
    | acquire k p =>
      cases hd
      simp only [Cluster.allowed, Bool.and_eq_true, decide_eq_true_eq] at ha
      by_cases e : key = k
      · right
        rw [e]
        simp only [Function.update_self]
        exact ha.2
      · simp only [Function.update_of_ne e]
        exact hp key
    | count p refs => cases hd; exact hsame rfl
    | collectOrphans => cases hd; exact hsame (collectLoop_rest ..).1
    | reclaim => cases hd; exact hsame rfl

theorem handed_db (h : s.Inv ttl) (hc : s.clock ≤ now) (hd : Option Handed) (up : Bool)
    (hsince : ∀ x, hd = some x → x.since = now) (key : Bytes) (e : Entry)
    (he : s.dbAfter up now hd key = some e) :
    ∃ x ∈ hd.toList ++ s.stores, valkeyKey x.sql = key ∧ x.body = e.body ∧ x.since = e.since ∧
      x.since ≤ now := by
  have hold : s.db key = some e → ∃ x ∈ hd.toList ++ s.stores, valkeyKey x.sql = key ∧ x.body = e.body ∧
      x.since = e.since ∧ x.since ≤ now := by
    intro hk
    obtain ⟨x, hx, e1, e2, e3, e4⟩ := h.db key e hk
    exact ⟨x, List.mem_append_right _ hx, e1, e2, e3, UInt64.le_trans e4 hc⟩
  cases hd with
  | none => exact hold he
  | some x =>
    cases up with
    | false => exact hold he
    | true =>
      simp only [Cluster.dbAfter, if_true, setex] at he
      split at he
      next hfit =>
        by_cases ek : key = valkeyKey x.sql
        · rw [ek, Function.update_self] at he
          cases he
          have := hsince x rfl
          exact ⟨x, by simp, ek.symm, rfl, this, this ▸ UInt64.le_refl _⟩
        · rw [Function.update_of_ne ek] at he
          exact hold he
      next => exact hold he

/-- The TTL and the clock of a request are the cluster's. -/
theorem event_env {d : Daemon} {p : Nat} {body : Bytes} {env : Env}
    (hb : d.brought (s.event ttl now act) = some (p, body, env)) : env.ttl = ttl ∧ env.now = now := by
  cases act with
  | store key b up =>
    simp only [Cluster.event, brought] at hb
    split at hb
    · cases hb
    · cases hb
      exact ⟨rfl, rfl⟩
  | lookup key spliced local_on up =>
    obtain ⟨rfl, -⟩ := brought_lookup hb
    exact ⟨rfl, rfl⟩
  | _ => cases hb

theorem afterStep_of_ne {d : Daemon} {last : Nat → Option Bytes} {e : Event} {p : Nat}
    (h : ∀ body, d.stored e ≠ some (p, body)) : d.afterStep last e p = last p := by
  unfold afterStep
  cases hst : d.stored e with
  | none => rfl
  | some r =>
    refine Function.update_of_ne ?_ ..
    intro hp
    exact h r.2 (by rw [hst, hp])

theorem mark_of_ne {r : Option (Nat × Bytes)} {fills : Bool} {p : Nat} (h : ∀ body, r ≠ some (p, body)) :
    s.mark host fills r host p = s.fetched host p := by
  cases r with
  | none => rfl
  | some r =>
    rw [Cluster.mark, Function.update_self]
    refine Function.update_of_ne ?_ ..
    intro hp
    exact h r.2 (by rw [hp])

theorem mark_other {r : Option (Nat × Bytes)} {fills : Bool} {q : Nat} (h : q ≠ host) :
    s.mark host fills r q = s.fetched q := by
  cases r with
  | none => rfl
  | some r => exact Function.update_of_ne h ..

/-- After a step each copy is one there was, or the body that was just handed in, or one that was just
    fetched. -/
theorem copies_step (h : s.Inv ttl) (hc : s.clock ≤ now) {d' : Daemon}
    (hd : (s.hosts host).daemon.step (s.event ttl now act) = some d') {k : Bytes × Nat}
    (hk : k ∈ (s.hosts host).daemon.known) (h0 : (d'.recs k.2).data ≠ 0) :
    ∃ x ∈ (s.handed host now (s.event ttl now act) act).toList ++ s.stores, x.sql = k.1 ∧
      (s.hosts host).daemon.afterStep (s.hosts host).last (s.event ttl now act) k.2 = some x.body ∧
      x.since ≤ now ∧
      (s.mark host act.fills ((s.hosts host).daemon.stored (s.event ttl now act)) host k.2 = false →
        (d'.recs k.2).ts = x.since) := by
  have hH := h.host host
  obtain ⟨lost, sql, hkept⟩ := hH.kept
  have hrec := rec_step hkept event_not_load (hH.served _) hd
  rcases hrec k hk with ⟨hns, -, hdata⟩ | ⟨body, env, hb, hst, -, hts, -⟩
  · obtain ⟨e1, e2⟩ := hdata.resolve_left h0
    obtain ⟨x, hx, e3, e4, e5, e6⟩ := hH.copies k hk (by rw [← e1]; exact h0)
    refine ⟨x, List.mem_append_right _ hx, e3, ?_, UInt64.le_trans e5 hc, ?_⟩
    · rw [afterStep_of_ne hns]
      exact e4
    · intro hf
      rw [e2]
      rw [mark_of_ne hns] at hf
      exact e6 hf
  · obtain ⟨-, enow⟩ := event_env hb
    have hlast : (s.hosts host).daemon.afterStep (s.hosts host).last (s.event ttl now act) k.2 = some body := by
      rw [afterStep, hst]
      exact Function.update_self ..
    have htext := (hkept.text_eq hk).1
    rw [hlast, hst]
    simp only [Cluster.mark, Function.update_self]
    cases act with
    | store key b up =>
      refine ⟨⟨k.1, body, now⟩, ?_, rfl, rfl, UInt64.le_refl _, fun _ => hts.trans enow⟩
      simp only [Cluster.handed, hb, Option.map_some, htext]
      simp
    | lookup key spliced local_on up =>
      obtain ⟨x, hx, e1, rfl, e3, -⟩ := h.fetched_from hb
      refine ⟨x, List.mem_append_right _ hx, e1.trans htext, rfl, UInt64.le_trans e3 hc, ?_⟩
      exact fun hf => by cases hf
    | _ => cases hb

theorem inv_step (h : s.Inv ttl) (hs : s.step ttl (host, now, act) = some s') : s'.Inv ttl := by
  obtain ⟨ha, d', hd, rfl⟩ := Cluster.step_some hs
  have hc := clock_le ha
  have hH := h.host host
  obtain ⟨lost, sql, hkept⟩ := hH.kept
  have hknown := (serve_frame event_not_load hd).1
  have hrec := rec_step hkept event_not_load (hH.served _) hd
  refine ⟨?_, ?_⟩
  · intro q
    by_cases e : q = host
    · subst e
      simp only [Function.update_self]
      refine ⟨?_, ?_, ?_, ?_⟩
      · obtain ⟨lost', h'⟩ := kept_serve hkept event_not_load (hH.served _) hd
        exact ⟨lost', sql, h'⟩
      · dsimp only
        rw [hknown]
        exact pipes_step ha hd hH.pipes
      · intro k hk
        dsimp only at hk ⊢
        rw [hknown] at hk
        rcases hrec k hk with ⟨-, e1, -⟩ | ⟨body, env, hb, -, e1, -, -⟩
        · rw [e1]
          exact hH.ttl k hk
        · rw [e1]
          exact (event_env hb).1
      · intro k hk h0
        dsimp only at hk h0
        rw [hknown] at hk
        exact copies_step h hc hd hk h0
    · simp only [Function.update_of_ne e, mark_other e]
      exact (h.host q).mono hc
  · intro key e he
    refine handed_db h hc _ act.up ?_ key e he
    intro x hx
    cases act with
    | store k b up =>
      obtain ⟨r, -, rfl⟩ := Option.map_eq_some_iff.mp hx
      rfl
    | _ => cases hx

end Step

/-! ### Where a host starts -/

section Start
variable {ttl : UInt32} {refuse : Bytes → Bool}

/-- A statement that is loaded has the TTL of the load; pipes stay as they were. -/
theorem seed_ttl (d : Daemon) (next : List (Bytes × Nat)) (sql : Bytes) (ttl : UInt32) (refused : Bool)
    (h : ∀ e ∈ next, (d.recs e.2).ttl = ttl) :
    (d.seed next sql ttl refused).1.pipes = d.pipes ∧
      ∀ next' ∈ (d.seed next sql ttl refused).2, ∀ e ∈ next', ((d.seed next sql ttl refused).1.recs e.2).ttl = ttl := by
  have hset : ∀ {d' : Daemon} {p : Nat} {st : Stmt}, d'.recs = d.recs → st.ttl = ttl →
      ∀ next' ∈ (if refused then none else some (next ++ [(sql, p)])), ∀ e ∈ next',
        ((d'.setRec p st).recs e.2).ttl = ttl := by
    intro d' p st hr hst next' hn e he
    by_cases e1 : e.2 = p
    · rw [e1, setRec_self, hst]
    · rw [setRec_of_ne d' e1, hr]
      cases refused with
      | true => cases hn
      | false =>
        cases hn
        rcases List.mem_append.mp he with he | he
        · exact h e he
        · exact absurd (by rw [List.mem_singleton.mp he]) e1
  unfold seed
  split
  · exact ⟨rfl, fun next' hn => by cases hn; exact h⟩
  · split
    · exact ⟨rfl, hset rfl rfl⟩
    · dsimp only
      split
      · exact ⟨rfl, hset rfl rfl⟩
      · exact ⟨rfl, fun next' hn => nomatch hn⟩

theorem seedAll_ttl (ttl : UInt32) (refuse : Bytes → Bool) (sqls : List Bytes) :
    ∀ (d : Daemon) (next : List (Bytes × Nat)), (∀ e ∈ next, (d.recs e.2).ttl = ttl) →
    (seedAll ttl refuse sqls d next).1.pipes = d.pipes ∧ ∀ next' ∈ (seedAll ttl refuse sqls d next).2,
      ∀ e ∈ next', ((seedAll ttl refuse sqls d next).1.recs e.2).ttl = ttl := by
  induction sqls with
  | nil =>
    intro d next h
    exact ⟨rfl, fun next' hn => by cases hn; exact h⟩
  | cons sql rest ih =>
    intro d next h
    obtain ⟨e1, h1⟩ := seed_ttl d next sql ttl (refuse sql) h
    rw [seedAll]
    generalize d.seed next sql ttl (refuse sql) = r at e1 h1
    obtain ⟨d', _ | next'⟩ := r
    · exact ⟨e1, fun next' hn => by cases hn⟩
    · obtain ⟨e2, h2⟩ := ih d' next' (h1 next' rfl)
      exact ⟨e2.trans e1, h2⟩

theorem removeAll_pipes (next : List (Bytes × Nat)) (now : UInt64) (l : List (Bytes × Nat)) :
    ∀ d : Daemon, (removeAll next now l d).pipes = d.pipes := by
  induction l with
  | nil => exact fun d => rfl
  | cons e l ih =>
    intro d
    rw [removeAll]
    split
    · exact ih d
    · refine (ih _).trans ?_
      unfold remove
      dsimp only
      split
      · exact (retireStmt_rest ..).1
      · rfl

/-- A daemon that has just started, whether its load went through or not. -/
theorem host_start {mem : Mem} {len : Nat} (hmin : BNCL_CTL_BYTES + MIN_BLOCK < len) (hmax : len < 2 ^ 32)
    (lines : List Bytes) :
    Host ttl { daemon := (start mem len).loadStatements lines ttl refuse 0 } (fun _ => false) [] 0 := by
  have hk : Kept (start mem len) [] _ _ := kept_start hmin hmax
  obtain ⟨e1, h1⟩ := seedAll_ttl ttl refuse (loadList lines) (start mem len) []
    fun e he => absurd he List.not_mem_nil
  have hs := seedAll_sound ttl refuse (loadList lines) hk.seeding (loadList_nodup lines) (by simp)
  have hload := load_kept hk lines ttl refuse 0
  obtain ⟨lost, sql, hload⟩ := hload
  refine ⟨⟨lost, sql, hload⟩, ?_, ?_, ?_⟩
  · intro key
    left
    show ((start mem len).loadStatements lines ttl refuse 0).pipes key = 0
    unfold loadStatements
    dsimp only
    split
    · rw [e1]
      rfl
    · dsimp only
      rw [removeAll_pipes, e1]
      rfl
  · intro k hkn
    revert hkn
    show k ∈ ((start mem len).loadStatements lines ttl refuse 0).known →
      (((start mem len).loadStatements lines ttl refuse 0).recs k.2).ttl = ttl
    unfold loadStatements
    dsimp only
    cases hn : (seedAll ttl refuse (loadList lines) (start mem len) []).2 with
    | none =>
      rw [hn] at hs
      obtain ⟨next, lost', sql', hs⟩ := hs
      intro hkn
      rw [show (seedAll ttl refuse (loadList lines) (start mem len) []).1.known = [] from hs.known] at hkn
      exact absurd hkn List.not_mem_nil
    | some next =>
      rw [hn] at hs
      obtain ⟨lost', sql', hs⟩ := hs
      intro hkn
      dsimp only at hkn ⊢
      rw [(hs.leave hk.keys 0).2 k hkn]
      exact h1 next hn k hkn
  · intro k _ h0
    obtain ⟨body, hb, -⟩ := hload.sound.payload k.2 h0
    cases hb

end Start

/-! ### How old an answer is -/

/-- The payload the pipe's record points at was handed in for its statement, no longer than the TTL
    ago. -/
def Cluster.Fresh (ttl : UInt32) (s : Cluster) (host key : Nat) (now : UInt64) : Prop :=
  let d := (s.hosts host).daemon
  let st := d.recs (d.pipes key)
  ∃ h ∈ s.stores, h.sql = d.text st ∧ d.heap.arena.mem.read st.data st.data_len = h.body ∧
    h.since ≤ now ∧ now.toNat ≤ h.since.toNat + span ttl

/-- A LOOKUP the local tier answers finds a copy that a STORE on the same host put there. -/
def Cluster.Direct (ttl : UInt32) (s : Cluster) (l : Nat × UInt64 × Act) : Prop :=
  match l.2.2 with
  | .lookup key spliced local_on up =>
    let d := (s.hosts l.1).daemon
    hit (d.recs (d.pipes key)) ⟨spliced, local_on, if up then some (valkeyAt ttl s.db l.2.1) else none, ttl,
      l.2.1, l.2.1⟩ = true → s.fetched l.1 (d.pipes key) = false
  | _ => True

instance (ttl : UInt32) (s : Cluster) : (l : Nat × UInt64 × Act) → Decidable (Cluster.Direct ttl s l)
  | (_, _, .lookup ..) => inferInstanceAs (Decidable (_ = true → _ = false))
  | (_, _, .store ..) | (_, _, .acquire ..) | (_, _, .count ..) | (_, _, .collectOrphans)
  | (_, _, .reclaim) => .isTrue trivial

theorem toNat_span (ttl : UInt32) : (ttl.toUInt64 * 1000000000).toNat = span ttl := by
  have hlt := ttl.toNat_lt
  have hns : (1000000000 : UInt64).toNat = 1000000000 := rfl
  rw [UInt64.toNat_mul, UInt32.toNat_toUInt64, hns, span]
  exact Nat.mod_eq_of_lt (by omega)

theorem expired_iff (st : Stmt) (now : UInt64) :
    expired st now = true ↔ st.ttl ≠ 0 ∧ (st.ts = 0 ∨ span st.ttl < (now - st.ts).toNat) := by
  rw [expired, ← toNat_span]
  by_cases httl : st.ttl = 0
  · simp [httl]
  · by_cases hts : st.ts = 0 <;> simp [httl, hts, UInt64.lt_iff_toNat_lt]

/-- A copy that answers has not aged out. -/
theorem not_expired {st : Stmt} {now : UInt64} (httl : 1 ≤ st.ttl.toNat) (hts : st.ts ≤ now)
    (h : expired st now = false) : now.toNat ≤ st.ts.toNat + span st.ttl := by
  have hne : st.ttl ≠ 0 := by
    intro h0
    rw [h0] at httl
    exact absurd httl (by decide)
  have hage : ¬span st.ttl < (now - st.ts).toNat := by
    intro hlt
    rw [(expired_iff st now).mpr ⟨hne, .inr hlt⟩] at h
    cases h
  have hle := UInt64.le_iff_toNat_le.mp hts
  rw [UInt64.toNat_sub_of_le _ _ hts] at hage
  omega

section Answers
variable {ttl : UInt32} {s s' : Cluster} {host key : Nat} {now : UInt64} {spliced local_on up : Bool}

/-- A LOOKUP that is answered found a young copy or a body in Valkey, and either way the record then
    has a payload. -/
theorem reply_cases {d : Daemon} {env : Env} {id : UInt32}
    (h : (d.serveLookup key env).1 = some (.AGENT_OK, id)) :
    d.pipes key ≠ 0 ∧ (hit (d.recs (d.pipes key)) env = true ∧ (d.serveLookup key env).2 = d ∨
      ∃ body, d.brought (.serveLookup key env) = some (d.pipes key, body, env) ∧
        d.stored (.serveLookup key env) = some (d.pipes key, body)) := by
  unfold serveLookup at h ⊢
  dsimp only at h ⊢
  split at h
  · cases h
  next h1 =>
  split at h
  · cases h
  next h2 =>
  refine ⟨h2, ?_⟩
  split at h
  next h3 =>
    left
    rw [if_neg h1, if_neg h2, if_pos h3]
    exact ⟨h3, rfl⟩
  next h3 =>
  right
  split at h
  · cases h
  next v hv =>
  split at h
  next payload hf =>
    have hb : d.brought (.serveLookup key env) = some (d.pipes key, payload, env) := by
      unfold brought
      dsimp only
      rw [if_neg (by tauto), hv, Option.bind_some, hf]
      rfl
    split at h
    · cases h
    next q hq =>
      refine ⟨payload, hb, ?_⟩
      rw [stored, hb, Option.bind_some, if_pos (by rw [hq]; rfl)]
  · cases h

theorem Cluster.Inv.known_of (h : s.Inv ttl) (hp : (s.hosts host).daemon.pipes key ≠ 0) :
    ∃ k ∈ (s.hosts host).daemon.known, k.2 = (s.hosts host).daemon.pipes key :=
  List.mem_map.mp (((h.host host).pipes key).resolve_left hp)

/-- The local tier answers with what a STORE put there. -/
theorem fresh_hit (h : s.Inv ttl) (httl : 1 ≤ ttl.toNat) (hc : s.clock ≤ now) {env : Env}
    (hnow : env.now = now) (hp : (s.hosts host).daemon.pipes key ≠ 0)
    (hhit : hit ((s.hosts host).daemon.recs ((s.hosts host).daemon.pipes key)) env = true)
    (hf : s.fetched host ((s.hosts host).daemon.pipes key) = false) : s.Fresh ttl host key now := by
  obtain ⟨k, hk, e⟩ := h.known_of hp
  obtain ⟨lost, sql, hkept⟩ := (h.host host).kept
  simp only [hit, Bool.and_eq_true, decide_eq_true_eq, Bool.not_eq_true', hnow, ← e] at hhit
  obtain ⟨⟨-, h0⟩, hexp⟩ := hhit
  have h0 : ((s.hosts host).daemon.recs k.2).data ≠ 0 := h0
  obtain ⟨x, hx, e1, e2, e3, e4⟩ := (h.host host).copies k hk h0
  have hts := e4 (e ▸ hf)
  have httl' := (h.host host).ttl k hk
  obtain ⟨body, hlast, hlen, hst⟩ := hkept.sound.payload k.2 h0
  have hbody : body = x.body := by
    rw [hlast] at e2
    exact Option.some.inj e2
  have hage := not_expired (by rw [httl']; exact httl) (by rw [hts]; exact UInt64.le_trans e3 hc) hexp
  rw [hts, httl'] at hage
  refine ⟨x, hx, ?_, ?_, UInt64.le_trans e3 hc, hage⟩
  · rw [← e, (hkept.text_eq hk).1, e1]
  · rw [← e, hlen, ← hbody]
    exact hst.read

/-- Valkey answers with what a STORE put there. -/
theorem fresh_fetch (h : s.Inv ttl) (hp : (s.hosts host).daemon.pipes key ≠ 0) {body : Bytes} {env : Env}
    (hs : s.step ttl (host, now, .lookup key spliced local_on up) = some s')
    (hb : (s.hosts host).daemon.brought (s.event ttl now (.lookup key spliced local_on up)) =
      some ((s.hosts host).daemon.pipes key, body, env))
    (hst : (s.hosts host).daemon.stored (s.event ttl now (.lookup key spliced local_on up)) =
      some ((s.hosts host).daemon.pipes key, body)) : s'.Fresh ttl host key now := by
  have h' := inv_step h hs
  obtain ⟨k, hk, e⟩ := h.known_of hp
  obtain ⟨lost, sql, hkept⟩ := (h.host host).kept
  obtain ⟨x, hx, e1, rfl, e3, e4⟩ := h.fetched_from hb
  obtain ⟨ha, d', hd, rfl⟩ := Cluster.step_some hs
  have hknown := (serve_frame event_not_load hd).1
  have hrec := rec_step hkept event_not_load ((h.host host).served _) hd
  have hpipes : d'.pipes = (s.hosts host).daemon.pipes := by
    obtain ⟨rfl, -⟩ := brought_install hb hd
    exact (install_frame ..).2.1
  obtain ⟨lost', sql', hkept'⟩ := (h'.host host).kept
  simp only [Function.update_self] at hkept'
  have h0 : (d'.recs k.2).data ≠ 0 := by
    rcases hrec k hk with ⟨hns, -⟩ | ⟨_, _, -, -, -, -, h0⟩
    · exact absurd hst (e ▸ hns x.body)
    · exact h0
  obtain ⟨body, hlast, hlen, hstores⟩ := hkept'.sound.payload k.2 h0
  have hbody : body = x.body := by
    rw [afterStep, hst, e] at hlast
    simp only [Function.update_self, Option.some.injEq] at hlast
    exact hlast.symm
  refine ⟨x, List.mem_append_right _ hx, ?_, ?_, UInt64.le_trans e3 (clock_le ha), e4⟩
  · simp only [Function.update_self, hpipes, ← e]
    rw [(hkept'.text_eq (by rw [hknown]; exact hk)).1, e1, ← e, (hkept.text_eq hk).1]
  · simp only [Function.update_self, hpipes, ← e]
    rw [hlen, ← hbody]
    exact hstores.read

end Answers

/-- In every run, with a TTL of at least a second: a LOOKUP that is answered, and that finds no copy
    filled from Valkey when the local tier answers it, is answered with a payload that a STORE handed
    in no longer than the TTL ago. -/
theorem answers_fresh (mem : Nat → Mem) (len : Nat → Nat)
    (hlen : ∀ h, BNCL_CTL_BYTES + MIN_BLOCK < len h ∧ len h < 2 ^ 32) (ttl : UInt32) (httl : 1 ≤ ttl.toNat)
    (lines : Nat → List Bytes) (refuse : Nat → Bytes → Bool) (events : List (Nat × UInt64 × Act))
    (s s' : Cluster) (hrun : run (Cluster.step ttl) (Cluster.start mem len ttl lines refuse) events = some s)
    (hdirect : Along (Cluster.step ttl) (Cluster.Direct ttl) (Cluster.start mem len ttl lines refuse) events)
    (host key : Nat) (now : UInt64) (spliced local_on up : Bool)
    (hstep : s.step ttl (host, now, .lookup key spliced local_on up) = some s')
    (hlast : s.Direct ttl (host, now, .lookup key spliced local_on up))
    (hok : s.reply ttl host now (.lookup key spliced local_on up) = some .AGENT_OK) :
    s'.Fresh ttl host key now := by
  have h : s.Inv ttl := by
    refine run_inv_along (I := Cluster.Inv ttl) (fun _ _ _ h _ hs => inv_step h hs) ?_ hdirect hrun
    exact ⟨fun h => host_start (hlen h).1 (hlen h).2 (lines h), fun _ _ he => nomatch he⟩
  obtain ⟨⟨st, id⟩, hr, rfl⟩ := Option.map_eq_some_iff.mp hok
  obtain ⟨hp, ⟨hhit, hsame⟩ | ⟨body, hb, hst⟩⟩ := reply_cases hr
  · obtain ⟨ha, d', hd, rfl⟩ := Cluster.step_some hstep
    have hd' : d' = (s.hosts host).daemon := (Option.some.inj hd).symm.trans hsame
    obtain ⟨x, hx, e1, e2, e3, e4⟩ := fresh_hit h httl (clock_le ha) rfl hp hhit (hlast hhit)
    refine ⟨x, List.mem_append_right _ hx, ?_, ?_, e3, e4⟩
    · simp only [Function.update_self, hd']
      exact e1
    · simp only [Function.update_self, hd']
      exact e2
  · exact fresh_fetch h hp hstep hb hst

/-- Two hosts, both with the statement `S` in their lists. -/
def pairOfHosts : Cluster := Cluster.start (fun _ _ => 0) (fun _ => 600) 60 (fun _ => [[83]]) (fun _ _ => false)

theorem answers_fresh_sample :
    ∃ s s', run (Cluster.step 60) pairOfHosts [(0, 1000000000, .acquire 0 112),
        (0, 1000000000, .store 0 Mysql.oneRow true), (1, 2000000000, .acquire 0 112),
        (1, 60000000000, .lookup 0 true true true)] = some s ∧
      s.step 60 (0, 61000000000, .lookup 0 true true true) = some s' ∧ s'.Fresh 60 0 0 61000000000 := by
  have h : ((run (Cluster.step 60) pairOfHosts [(0, 1000000000, .acquire 0 112),
      (0, 1000000000, .store 0 Mysql.oneRow true), (1, 2000000000, .acquire 0 112),
      (1, 60000000000, .lookup 0 true true true)]).bind fun s =>
        (s.step 60 (0, 61000000000, .lookup 0 true true true)).map fun _ =>
          (decide (s.Direct 60 (0, 61000000000, .lookup 0 true true true)),
            s.reply 60 0 61000000000 (.lookup 0 true true true))) = some (true, some .AGENT_OK) := by
    decide +kernel
  obtain ⟨s, hs, h⟩ := Option.bind_eq_some_iff.mp h
  obtain ⟨s', hs', h⟩ := Option.map_eq_some_iff.mp h
  simp only [Prod.mk.injEq] at h
  refine ⟨s, s', hs, hs', answers_fresh _ _ (fun _ => by decide) 60 (by decide) _ _ _ s s' hs
    (by decide +kernel) 0 0 61000000000 true true true hs' (of_decide_eq_true h.1) h.2⟩

/-- A body handed in at second 1 is fetched by another host just before Valkey drops it, and answers
    there at second 100, with a TTL of 60 seconds. -/
theorem answer_too_old :
    ∃ s s', run (Cluster.step 60) pairOfHosts [(0, 1000000000, .acquire 0 112),
        (0, 1000000000, .store 0 Mysql.oneRow true), (1, 2000000000, .acquire 0 112),
        (1, 60000000000, .lookup 0 true true true)] = some s ∧
      s.step 60 (1, 100000000000, .lookup 0 true true true) = some s' ∧
      s.reply 60 1 100000000000 (.lookup 0 true true true) = some .AGENT_OK ∧
      ¬ s'.Fresh 60 1 0 100000000000 := by
  have h : ((run (Cluster.step 60) pairOfHosts [(0, 1000000000, .acquire 0 112),
      (0, 1000000000, .store 0 Mysql.oneRow true), (1, 2000000000, .acquire 0 112),
      (1, 60000000000, .lookup 0 true true true)]).bind fun s =>
        (s.step 60 (1, 100000000000, .lookup 0 true true true)).map fun s' =>
          (s'.stores.map Handed.since, s.reply 60 1 100000000000 (.lookup 0 true true true))) =
      some ([1000000000], some .AGENT_OK) := by decide +kernel
  obtain ⟨s, hs, h⟩ := Option.bind_eq_some_iff.mp h
  obtain ⟨s', hs', h⟩ := Option.map_eq_some_iff.mp h
  simp only [Prod.mk.injEq] at h
  refine ⟨s, s', hs, hs', h.2, ?_⟩
  rintro ⟨x, hx, -, -, -, hage⟩
  have hx : x.since ∈ s'.stores.map Handed.since := List.mem_map_of_mem hx
  rw [h.1, List.mem_singleton] at hx
  rw [hx] at hage
  exact absurd hage (by decide)

end Barnacle.Daemon
