import Barnacle.Daemon.Hosts
import Barnacle.Daemon.Publication
import Barnacle.Valkey.Exchange

/-! A LOOKUP that asks Valkey (`serve` in `src/daemon/main.cpp`), down to the bytes on the socket, and the
    two tests of a payload's age.

    `Valkey::get` returns false when the key is absent, when the server reports an error and when the
    connection is lost, and `serve` takes all of these for absence. Only a server that cannot be reached
    to begin with is told apart. -/

namespace Barnacle.Valkey
open Barnacle.Lib

/-! ### How a GET can end -/

/-- What a server says to a GET. -/
inductive Reply
  | value (body : Bytes) (fits : body.length < 2 ^ 63)
  | absent
  | error (text : Bytes) (line : CR ∉ text)

namespace Reply

def line : Reply → Bytes
  | .value body _ => 36 :: decimal body.length
  | .absent => [36, 45, 49]
  | .error text _ => 45 :: text

def body : Reply → Bytes
  | .value body _ => body ++ crlf
  | _ => []

def bytes (r : Reply) : Bytes := r.line ++ crlf ++ r.body

/-- What `get` makes of the reply. -/
def got : Reply → Option Bytes
  | .value body _ => some body
  | _ => none

theorem cr_notMem_line (r : Reply) : CR ∉ r.line := by
  cases r with
  | value body fits => simpa [line, CR] using cr_notMem_decimal body.length
  | absent => simp [line, CR]
  | error text hline => simpa [line, CR] using hline

theorem findCrlf_bytes (r : Reply) : findCrlf r.bytes = some (r.line, r.body) := findCrlf_line r.cr_notMem_line r.body

end Reply

/-- The ways an exchange can end. -/
inductive Ending
  | unreachable
  | lost
  | answered (r : Reply)

/-- How a GET of `key` will end, given what the server and the network will do: there is no connection to
    be had; the connection is lost before the command is out; it is lost before the reply is in; or there
    is a reply. -/
inductive Ends (v : Valkey) (key : Bytes) : Ending → Prop
  | unreachable (h : ∀ s, ¬v.Reaches s) : Ends v key .unreachable
  | unsent {s : Socket} (h : v.Reaches s)
      (hw : ¬Delivers s.writes (encodeCommand [[71, 69, 84], key]).length) : Ends v key .lost
  | cut {s : Socket} {r : Reply} {missing : Bytes} (h : v.Reaches s)
      (hw : Delivers s.writes (encodeCommand [[71, 69, 84], key]).length) (hb : Breaks s.reads)
      (hr : v.inbuf ++ arrives s.reads ++ missing = r.bytes) (hm : missing ≠ []) : Ends v key .lost
  | answered {s : Socket} {r : Reply} {rest : Bytes} (h : v.Reaches s)
      (hw : Delivers s.writes (encodeCommand [[71, 69, 84], key]).length)
      (hr : v.inbuf ++ arrives s.reads = r.bytes ++ rest) : Ends v key (.answered r)

variable {v : Valkey} {s : Socket} {key : Bytes}

theorem connect_unreachable (h : ∀ s, ¬v.Reaches s) : v.connect.1 = false := by
  rcases hfd : v.fd with _ | s
  · rcases hd : v.dials with _ | ⟨_ | s, dials⟩
    · simp [Valkey.connect, healthy, hfd, hd]
    · simp [Valkey.connect, healthy, hfd, hd]
    · exact absurd (Or.inr ⟨hfd, by rw [hd]; rfl⟩) (h s)
  · exact absurd (Or.inl hfd) (h s)

theorem command_unsent {args : List Bytes} (hfd : v.fd = some s)
    (hw : ¬Delivers s.writes (encodeCommand args).length) : v.command args = some (none, v.disconnect) := by
  have hsend : (sendLoop s.writes (encodeCommand args)).2.2 = false := by
    simpa using mt (sendLoop_ok s.writes _).mp hw
  rw [command]
  simp only [connect_of_fd hfd, sendCommand, hfd, hsend, Bool.not_true, Bool.false_eq_true, if_false, Bool.not_false,
    if_true]

/-- A command that is out leaves the reply to be read. -/
theorem command_sent {args : List Bytes} (hfd : v.fd = some s) (hw : Delivers s.writes (encodeCommand args).length) :
    ∃ s' : Socket, s'.reads = s.reads ∧ v.command args = Valkey.readLine { v with fd := some s' } := by
  have hsend := (sendLoop_ok s.writes _).mpr hw
  refine ⟨{ s with writes := (sendLoop s.writes (encodeCommand args)).2.1,
                   sent := s.sent ++ (sendLoop s.writes (encodeCommand args)).1 }, rfl, ?_⟩
  rw [command]
  simp only [connect_of_fd hfd, sendCommand, hfd, hsend, Bool.not_true, Bool.false_eq_true, if_false, if_true]

/-- Once the first line of the reply is read, what is left to read is the rest of it. -/
theorem get_line {r : Reply} {rest : Bytes} (hfd : v.fd = some s)
    (hw : Delivers s.writes (encodeCommand [[71, 69, 84], key]).length)
    (h : findCrlf (v.inbuf ++ arrives s.reads) = some (r.line, rest)) :
    ∃ v' s', v.command [[71, 69, 84], key] = some (some r.line, v') ∧ v'.fd = some s' ∧
      v'.inbuf ++ arrives s'.reads = rest ∧ (Breaks s.reads → Breaks s'.reads) := by
  obtain ⟨s₁, hs₁, hc⟩ := command_sent hfd hw
  rw [← hs₁] at h ⊢
  obtain ⟨made, inbuf', reads', hreads, hmade, hrest, hv'⟩ :=
    reading_bytes (v := { v with fd := some s₁ }) rfl findCrlf_stable h
  refine ⟨_, _, by rw [hc]; exact hv', rfl, hrest, fun hb => ?_⟩
  rw [hreads] at hb
  exact hb.of_append hmade

theorem get_answered {r : Reply} {rest : Bytes} (hfd : v.fd = some s)
    (hw : Delivers s.writes (encodeCommand [[71, 69, 84], key]).length)
    (hr : v.inbuf ++ arrives s.reads = r.bytes ++ rest) : ∃ v', v.get key = some (r.got, v') := by
  have hline : findCrlf (v.inbuf ++ arrives s.reads) = some (r.line, r.body ++ rest) := by
    rw [hr]
    exact findCrlf_append rest r.findCrlf_bytes
  obtain ⟨v₁, s₁, hc, hfd₁, hrest, -⟩ := get_line hfd hw hline
  cases r with
  | value body fits =>
    have hbody : takeExactly (body.length + 2) (v₁.inbuf ++ arrives s₁.reads) = some (body ++ crlf, rest) := by
      have := takeExactly_length (body ++ crlf) rest
      rw [hrest]
      rwa [List.length_append] at this
    obtain ⟨-, _, _, -, -, -, hv₂⟩ := reading_bytes hfd₁ (takeExactly_stable _) hbody
    exact ⟨_, get_of_value fits hc hv₂⟩
  | absent => exact ⟨v₁, get_of_nil hc⟩
  | error text hline =>
    refine ⟨v₁, ?_⟩
    simp only [Reply.line] at hc
    simp only [Valkey.get, hc]
    rfl

/-- A connection that is lost before the reply is in: on the first line, or on the value behind it. -/
theorem get_cut {r : Reply} {missing : Bytes} (hfd : v.fd = some s)
    (hw : Delivers s.writes (encodeCommand [[71, 69, 84], key]).length) (hb : Breaks s.reads)
    (hr : v.inbuf ++ arrives s.reads ++ missing = r.bytes) (hm : missing ≠ []) :
    ∃ v', v.get key = some (none, v') := by
  rcases hl : findCrlf (v.inbuf ++ arrives s.reads) with _ | ⟨line, rest⟩
  · obtain ⟨s₁, hs₁, hc⟩ := command_sent hfd hw
    rw [← hs₁] at hl hb
    have hlost := reading_lost (v := { v with fd := some s₁ }) rfl findCrlf_stable hb hl
    refine ⟨v.disconnect, ?_⟩
    simp only [Valkey.get, hc, readLine, hlost]
    rfl
  · -- the line is in, so the value behind it is cut; the other replies end with their line
    have hall := findCrlf_append missing hl
    rw [hr, r.findCrlf_bytes] at hall
    obtain ⟨rfl, hbody⟩ : r.line = line ∧ r.body = rest ++ missing := by simpa using hall
    obtain ⟨v₁, s₁, hc, hfd₁, hrest, hb₁⟩ := get_line hfd hw hl
    cases r with
    | value body fits =>
      have hshort : takeExactly (body.length + 2) (v₁.inbuf ++ arrives s₁.reads) = none := by
        have hlen := congrArg List.length hbody
        have hpos := List.length_pos_of_ne_nil hm
        simp only [Reply.body, List.length_append] at hlen
        rw [takeExactly, if_pos]
        rw [hrest]
        simp only [crlf, List.length_cons, List.length_nil] at hlen
        omega
      have hlost := reading_lost hfd₁ (takeExactly_stable _) (hb₁ hb) hshort
      refine ⟨v₁.disconnect, ?_⟩
      rw [get_of_length fits hc, readExactly, hlost]
      rfl
    | absent => exact absurd (List.append_eq_nil_iff.mp hbody.symm).2 hm
    | error text hline => exact absurd (List.append_eq_nil_iff.mp hbody.symm).2 hm

/-- What `get` makes of an ending. -/
def Ending.got : Ending → Option Bytes
  | .answered r => r.got
  | _ => none

/-- What connecting and asking come to. -/
theorem Ends.get {e : Ending} (h : v.Ends key e) :
    (e = .unreachable ∧ v.connect.1 = false) ∨
      ∃ v₁ v', e ≠ .unreachable ∧ v.connect = (true, v₁) ∧ v₁.get key = some (e.got, v') := by
  cases h with
  | unreachable h => exact Or.inl ⟨rfl, connect_unreachable h⟩
  | unsent h hw =>
    obtain ⟨v₁, hv₁, hfd, -⟩ := h.connect
    refine Or.inr ⟨v₁, v₁.disconnect, by simp, hv₁, ?_⟩
    simp only [Valkey.get, command_unsent hfd hw]
    rfl
  | cut h hw hb hr hm =>
    obtain ⟨v₁, hv₁, hfd, hbuf⟩ := h.connect
    rw [← hbuf] at hr
    obtain ⟨v', hv'⟩ := get_cut hfd hw hb hr hm
    exact Or.inr ⟨v₁, v', by simp, hv₁, hv'⟩
  | answered h hw hr =>
    obtain ⟨v₁, hv₁, hfd, hbuf⟩ := h.connect
    rw [← hbuf] at hr
    obtain ⟨v', hv'⟩ := get_answered hfd hw hr
    exact Or.inr ⟨v₁, v', by simp, hv₁, hv'⟩

end Barnacle.Valkey

namespace Barnacle.Daemon
open Barnacle.Lib Barnacle.Valkey
open Barnacle.Pipes (Status)

/-! ### A LOOKUP -/

/-- The LOOKUP gets as far as Valkey: there is a record, and the local tier does not answer for it. -/
def asks (d : Daemon) (key : Nat) (env : Env) : Bool :=
  env.spliced && d.pipes key ≠ 0 && !hit (d.recs (d.pipes key)) env

/-- The statement a LOOKUP is about. -/
def asked (d : Daemon) (key : Nat) : Bytes := d.text (d.recs (d.pipes key))

/-- Valkey to the LOOKUP that was told `got`. -/
def told (got : Option Bytes) : Valkey where
  get _ := got.filter fun body => body.length < 2 ^ 63
  fits _ _ h := of_decide_eq_true (Option.filter_eq_some_iff.mp h).2

/-- A LOOKUP request, with the client it asks Valkey through. While there is a connection `connect` has
    nothing to do. Valkey is not asked about a record without a text. -/
def serve (d : Daemon) (key : Nat) (env : Env) (v : Barnacle.Valkey) :
    Option ((Option (Status × UInt32) × Daemon) × Barnacle.Valkey) :=
  if d.asks key env then
    let c := v.connect
    if !c.1 then some (d.serveLookup key { env with valkey := none }, c.2)
    else if d.asked key = [] then some (d.serveLookup key { env with valkey := some (told none) }, c.2)
    else
      (c.2.get (valkeyKey (d.asked key))).map fun r =>
        (d.serveLookup key { env with valkey := some (told r.1) }, r.2)
  else some (d.serveLookup key { env with valkey := none }, v)

/-- Valkey has answered that the key is absent or empty. -/
def absent : Ending → Bool
  | .answered .absent => true
  | .answered (.value body _) => body.isEmpty
  | _ => false

/-- Valkey has said nothing of the key. -/
def failed : Ending → Bool
  | .answered (.value _ _) => false
  | .answered .absent => false
  | _ => true

/-- A record's payload is dropped. -/
def dropped (st st' : Stmt) : Prop := st.data ≠ 0 ∧ st'.data = 0 ∧ st'.data_len = 0

instance (st st' : Stmt) : Decidable (dropped st st') :=
  inferInstanceAs (Decidable (st.data ≠ 0 ∧ st'.data = 0 ∧ st'.data_len = 0))

/-- What a LOOKUP may come to when asking Valkey ends as it does: a miss only if Valkey said so, and an
    error that leaves the record as it was if Valkey said nothing. -/
structure Truthful (d : Daemon) (key : Nat) (env : Env) (e : Ending) (r : Option (Status × UInt32) × Daemon) :
    Prop where
  miss : r.1.map Prod.fst = some .AGENT_WRITE_THROUGH ∨ dropped (d.recs (d.pipes key)) (r.2.recs (d.pipes key)) →
    d.asks key env = true ∧ d.asked key ≠ [] ∧ absent e = true
  error : d.asks key env = true → failed e = true →
    r.1 = some (.AGENT_CACHE_ERROR, (d.recs (d.pipes key)).id) ∧
      (r.2.recs (d.pipes key)).data = (d.recs (d.pipes key)).data ∧
      (r.2.recs (d.pipes key)).data_len = (d.recs (d.pipes key)).data_len ∧
      (r.2.recs (d.pipes key)).ts = (d.recs (d.pipes key)).ts

variable {d : Daemon} {key : Nat} {env : Env}

theorem not_dropped_self (st : Stmt) : ¬dropped st st := fun h => h.1 h.2.1

/-- A LOOKUP that does not get as far as Valkey changes nothing. -/
theorem serveLookup_of_not_asks (h : d.asks key env = false) :
    (d.serveLookup key env).2 = d ∧ (d.serveLookup key env).1.map Prod.fst ≠ some .AGENT_WRITE_THROUGH := by
  rw [serveLookup]
  split_ifs with h1 h2 h3
  · simp
  · simp
  · simp
  · simp [asks, h2, h3] at h
    simp [h] at h1

theorem asks_iff : d.asks key env = true ↔
    env.spliced = true ∧ d.pipes key ≠ 0 ∧ hit (d.recs (d.pipes key)) env = false := by
  simp [asks, and_assoc]

theorem serveLookup_unreachable (h : d.asks key env = true) (hv : env.valkey = none) :
    d.serveLookup key env = (some (.AGENT_CACHE_ERROR, (d.recs (d.pipes key)).id), d) := by
  obtain ⟨h1, h2, h3⟩ := asks_iff.mp h
  rw [serveLookup.eq_def]
  simp [h1, h2, h3, hv]

theorem serveLookup_nothing {v : Valkey} (h : d.asks key env = true) (hv : env.valkey = some v)
    (hf : d.fetch (d.recs (d.pipes key)) v = none) :
    d.serveLookup key env = (some (.AGENT_WRITE_THROUGH, (d.recs (d.pipes key)).id),
      d.setRec (d.pipes key) { d.recs (d.pipes key) with data := 0, data_len := 0, ts := 0 }) := by
  obtain ⟨h1, h2, h3⟩ := asks_iff.mp h
  rw [serveLookup.eq_def]
  simp [h1, h2, h3, hv, hf]

/-- A payload is installed or, when the arena has no room for it, left alone. -/
theorem serveLookup_payload {v : Valkey} {payload : Bytes} (h : d.asks key env = true) (hv : env.valkey = some v)
    (hf : d.fetch (d.recs (d.pipes key)) v = some payload) (hp : payload ≠ []) :
    (d.serveLookup key env).1.map Prod.fst ≠ some .AGENT_WRITE_THROUGH ∧
      ¬dropped (d.recs (d.pipes key)) ((d.serveLookup key env).2.recs (d.pipes key)) := by
  obtain ⟨h1, h2, h3⟩ := asks_iff.mp h
  rw [serveLookup.eq_def]
  simp only [h1, h2, h3, hv, hf, Bool.not_true, Bool.false_eq_true, if_false]
  rcases (keep d.heap (d.recs (d.pipes key)) payload env.kept).1 with _ | q
  · exact ⟨by simp, not_dropped_self _⟩
  · refine ⟨by simp, ?_⟩
    rintro ⟨-, -, hlen⟩
    simp only [setRec_self] at hlen
    exact hp (List.eq_nil_of_length_eq_zero hlen)

theorem fetch_told_none (d : Daemon) (st : Stmt) : d.fetch st (told none) = none := by
  rw [fetch]
  split_ifs <;> rfl

/-- What is told is what Valkey has for the statement, unless it is empty. -/
theorem fetch_told {body : Bytes} (h : d.asked key ≠ []) (hb : body.length < 2 ^ 63) :
    d.fetch (d.recs (d.pipes key)) (told (some body)) = if body = [] then none else some body := by
  have hget : (told (some body)).get (valkeyKey (d.asked key)) = some body := by
    simp only [told, Option.filter_some, hb, decide_true, if_true]
  rw [asked] at h hget
  rw [fetch, if_neg h, hget]
  cases body <;> rfl

/-- A LOOKUP that comes to a miss without Valkey having said so. -/
theorem not_truthful {e : Ending} {id : UInt32} {d' : Daemon}
    (h : ¬(d.asked key ≠ [] ∧ absent e = true)) : ¬d.Truthful key env e (some (.AGENT_WRITE_THROUGH, id), d') :=
  fun ht => h (ht.miss (Or.inl rfl)).2

/-- When the exchange with Valkey has taken place, the LOOKUP is truthful if Valkey has answered. -/
theorem truthful_told {e : Ending} (h : d.asks key env = true) (ht : d.asked key ≠ []) (he : e ≠ .unreachable) :
    d.Truthful key env e (d.serveLookup key { env with valkey := some (told e.got) }) ↔ failed e = false := by
  have hasks : d.asks key { env with valkey := some (told e.got) } = true := h
  rcases e with _ | _ | ⟨body, fits⟩ | _ | ⟨text, line⟩
  · exact absurd rfl he
  · rw [serveLookup_nothing hasks rfl (fetch_told_none d _)]
    simpa [failed] using not_truthful (by simp [absent])
  · have hf := fetch_told ht fits
    simp only [failed, iff_true]
    split_ifs at hf with hbody
    · refine ⟨fun _ => ⟨h, ht, by simp [absent, hbody]⟩, fun _ hfail => ?_⟩
      cases hfail
    · obtain ⟨hstatus, hdrop⟩ := serveLookup_payload hasks rfl hf hbody
      refine ⟨fun hmiss => ?_, fun _ hfail => ?_⟩
      · exact absurd hmiss (not_or.mpr ⟨hstatus, hdrop⟩)
      · cases hfail
  · simp only [failed, iff_true]
    refine ⟨fun _ => ⟨h, ht, rfl⟩, fun _ hfail => ?_⟩
    cases hfail
  · rw [serveLookup_nothing hasks rfl (fetch_told_none d _)]
    simpa [failed] using not_truthful (by simp [absent])

/-- However asking Valkey ends, the LOOKUP answers; and it tells a miss from a failure exactly when Valkey
    is not asked, cannot be reached, or answers with a value or with absence. -/
theorem miss_only_if_absent_iff (d : Daemon) (key : Nat) (env : Env) (v : Barnacle.Valkey) (e : Ending)
    (h : v.Ends (valkeyKey (d.asked key)) e) :
    ∃ r v', d.serve key env v = some (r, v') ∧
      (d.Truthful key env e r ↔
        (d.asks key env = true → e = .unreachable ∨ (d.asked key ≠ [] ∧ failed e = false))) := by
  rcases hasks : d.asks key env with _ | _
  · have hnot : d.asks key { env with valkey := none } = false := hasks
    obtain ⟨hsame, hstatus⟩ := serveLookup_of_not_asks hnot
    refine ⟨_, v, by rw [serve, hasks]; rfl, ?_⟩
    simp only [Bool.false_eq_true, false_imp_iff, iff_true]
    refine ⟨fun hmiss => ?_, fun ha => ?_⟩
    · rw [hsame] at hmiss
      exact absurd hmiss (not_or.mpr ⟨hstatus, not_dropped_self _⟩)
    · rw [hasks] at ha
      cases ha
  · rcases h.get with ⟨rfl, hc⟩ | ⟨v₁, v', he, hc, hg⟩
    · have hnone : d.asks key { env with valkey := none } = true := hasks
      refine ⟨d.serveLookup key { env with valkey := none }, v.connect.2, by simp [serve, hasks, hc], ?_⟩
      simp only [true_or, implies_true, iff_true]
      rw [serveLookup_unreachable hnone rfl]
      refine ⟨fun hmiss => ?_, fun _ _ => ⟨rfl, rfl, rfl, rfl⟩⟩
      exact absurd hmiss (not_or.mpr ⟨by simp, not_dropped_self _⟩)
    · simp only [he, false_or, true_imp_iff]
      by_cases ht : d.asked key = []
      · have hnone : d.asks key { env with valkey := some (told none) } = true := hasks
        refine ⟨d.serveLookup key { env with valkey := some (told none) }, v₁, by simp [serve, hasks, hc, ht], ?_⟩
        rw [serveLookup_nothing hnone rfl (fetch_told_none d _)]
        simpa [ht] using not_truthful (by simp [ht])
      · refine ⟨d.serveLookup key { env with valkey := some (told e.got) }, v', by simp [serve, hasks, hc, ht, hg], ?_⟩
        rw [truthful_told hasks ht he]
        exact (and_iff_right ht).symm

/-- A connected client, given what it will read. -/
def clientOn (reads : List Recv) : Barnacle.Valkey := { fd := some { reads := reads } }

/-- A statement that was given a payload. -/
def storedOnce : List Event :=
  [.loadStatements [[83]] 60 (fun _ => false) 1, .point 0 112, .serveStore 0 Mysql.oneRow (emptyAt 5)]

theorem miss_only_if_absent_sample :
    ∃ d, run step (start (fun _ => 0) 600) storedOnce = some d ∧
      ∃ r v', d.serve 0 (emptyAt 70000000000) (clientOn [.got [36, 45], .eintr, .got [49, 13, 10]]) = some (r, v') ∧
        d.Truthful 0 (emptyAt 70000000000) (.answered .absent) r := by
  refine exists_run_of_map (fun d => d.asked 0) [83] (by decide +kernel) ?_
  intro d _ ha
  have hr : [] ++ arrives [.got [36, 45], .eintr, .got [49, 13, 10]] = Reply.absent.bytes ++ [] := by decide
  have hends : (clientOn [.got [36, 45], .eintr, .got [49, 13, 10]]).Ends (valkeyKey (d.asked 0)) (.answered .absent) :=
    .answered (Or.inl rfl) (Or.inl (by simp)) hr
  obtain ⟨r, v', hs, hiff⟩ := miss_only_if_absent_iff d 0 (emptyAt 70000000000) _ _ hends
  exact ⟨r, v', hs, hiff.mpr fun _ => Or.inr ⟨by rw [ha]; simp, rfl⟩⟩

/-- The payload has aged out, and Valkey is asked for it: the server reports an error, or it closes the
    connection instead of answering. Either way the LOOKUP is told that there is none, and the payload is
    dropped. -/
theorem miss_without_answer :
    ∃ d, run step (start (fun _ => 0) 600) storedOnce = some d ∧
      ∀ reads ∈ [[Recv.got [45, 69, 82, 82, 13, 10]], [.got [36, 51], .got []]],
        ∃ e r v', (clientOn reads).Ends (valkeyKey (d.asked 0)) e ∧ failed e = true ∧
          d.serve 0 (emptyAt 70000000000) (clientOn reads) = some (r, v') ∧
          r.1 = some (.AGENT_WRITE_THROUGH, 1) ∧ dropped (d.recs (d.pipes 0)) (r.2.recs (d.pipes 0)) ∧
          ¬d.Truthful 0 (emptyAt 70000000000) e r := by
  refine exists_run_of_map (fun d => [[Recv.got [45, 69, 82, 82, 13, 10]], [.got [36, 51], .got []]].all fun reads =>
      (d.serve 0 (emptyAt 70000000000) (clientOn reads)).any fun x =>
        decide (x.1.1 = some (.AGENT_WRITE_THROUGH, 1) ∧ dropped (d.recs (d.pipes 0)) (x.1.2.recs (d.pipes 0))))
    true (by decide +kernel) ?_
  intro d _ hx
  have hends : ∀ reads ∈ [[Recv.got [45, 69, 82, 82, 13, 10]], [.got [36, 51], .got []]],
      ∃ e, (clientOn reads).Ends (valkeyKey (d.asked 0)) e ∧ failed e = true ∧ absent e = false := by
    have hr : [] ++ arrives [.got [45, 69, 82, 82, 13, 10]] = (Reply.error [69, 82, 82] (by decide)).bytes ++ [] := by
      decide
    have hcut : [] ++ arrives [.got [36, 51], .got []] ++ [13, 10, 1, 2, 3, 13, 10] =
        (Reply.value [1, 2, 3] (by decide)).bytes := by decide
    refine List.forall_mem_cons.mpr ⟨⟨_, .answered (Or.inl rfl) (Or.inl (by simp)) hr, rfl, rfl⟩, ?_⟩
    refine List.forall_mem_cons.mpr ⟨⟨_, .cut (Or.inl rfl) (Or.inl (by simp)) ?_ hcut (by simp), rfl, rfl⟩, by simp⟩
    exact ⟨.got [], by simp, rfl⟩
  intro reads hreads
  obtain ⟨e, he, hfail, habs⟩ := hends reads hreads
  obtain ⟨⟨r, v'⟩, hs, hv⟩ := (Option.any_eq_true _ _).mp (List.all_eq_true.mp hx reads hreads)
  obtain ⟨hstatus, hdrop⟩ := of_decide_eq_true hv
  refine ⟨e, r, v', he, hfail, hs, hstatus, hdrop, fun ht => ?_⟩
  have hsaid := (ht.miss (Or.inr hdrop)).2.2
  rw [habs] at hsaid
  cases hsaid

/-! ### The two tests of age -/

theorem aged_iff (st : Stmt) (now : UInt64) :
    Shared.aged st now = true ↔
      st.ttl ≠ 0 ∧ st.ts ≠ 0 ∧ st.ts.toNat + span st.ttl + 1000000000 ≤ now.toNat := by
  have hsub := UInt64.toNat_sub now st.ts
  have hnow := now.toNat_lt
  have hts := st.ts.toNat_lt
  have hns : (1000000000 : UInt64).toNat = 1000000000 := rfl
  simp only [Shared.aged, ne_eq, decide_not, gt_iff_lt, Bool.and_eq_true, Bool.not_eq_true', decide_eq_false_iff_not,
    decide_eq_true_eq, UInt64.lt_iff_toNat_lt, UInt64.toNat_div, UInt32.toNat_toUInt64, and_assoc, span, hns]
  refine and_congr_right fun _ => and_congr_right fun _ => ?_
  omega

/-- The client and the daemon agree on the age of a payload that has a TTL only where it has a timestamp
    and is within its TTL or at least a second past it. To the daemon a timestamp ahead of the clock is
    one almost `2 ^ 64` nanoseconds back. -/
theorem ages_agree_iff (st : Stmt) (now : UInt64) :
    Shared.aged st now = expired st now ↔
      st.ttl = 0 ∨ (st.ts ≠ 0 ∧
        if st.ts ≤ now then
          now.toNat ≤ st.ts.toNat + span st.ttl ∨ st.ts.toNat + span st.ttl + 1000000000 ≤ now.toNat
        else now.toNat + 2 ^ 64 ≤ st.ts.toNat + span st.ttl) := by
  have hsub := UInt64.toNat_sub now st.ts
  have hnow := now.toNat_lt
  have hts := st.ts.toNat_lt
  rw [Bool.eq_iff_iff, aged_iff, expired_iff]
  by_cases httl : st.ttl = 0
  · simp [httl]
  · by_cases hzero : st.ts = 0
    · simp [httl, hzero]
    · simp only [ne_eq, httl, hzero, not_false_iff, true_and, false_or, UInt64.le_iff_toNat_le]
      split_ifs <;> omega

/-- With a TTL of 60 seconds: half a second past it, without a timestamp, and with one ahead of the clock
    the daemon finds the payload expired and the client does not. -/
theorem ages_differ :
    (expired { ts := 1000000000, ttl := 60 } 61500000000 = true ∧
      Shared.aged { ts := 1000000000, ttl := 60 } 61500000000 = false) ∧
    (expired { ts := 0, ttl := 60 } 61500000000 = true ∧ Shared.aged { ts := 0, ttl := 60 } 61500000000 = false) ∧
    (expired { ts := 70000000000, ttl := 60 } 61500000000 = true ∧
      Shared.aged { ts := 70000000000, ttl := 60 } 61500000000 = false) := by
  decide

end Barnacle.Daemon
