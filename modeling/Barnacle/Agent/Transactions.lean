import Barnacle.Lib.Transition
import Barnacle.Agent.Ends
import Barnacle.Agent.Writes

/-! Transactions. A connection is used strictly: the application writes one command, cut into writes
    any way it likes, and reads the whole response before the next. The server reports in its OK and
    EOF packets whether a transaction is open, and while one is, nothing may be served from the cache
    or captured for it. The agent goes by `in_txn`, which it takes from its response tracker.

    `Session` is a connection with the flags the server sent last and, for every statement asked about
    or captured, the flags in force at that moment. The flag follows the server as long as a response
    that leaves a transaction open either says so in a first part the tracker can read, or answers a
    command that is no query and finds the transaction open already. -/

namespace Barnacle.Agent
open Barnacle.Lib Barnacle.Mysql

/-! ### One exchange -/

structure Write where
  sw : Switches
  looks : Nat → Look
  buf : Bytes

/-- A command, the writes it was sent in, what the server answered, and the reads that took the
    response. A command the cache answered, or one that has no response, gets no parts. -/
structure Exchange where
  cmd : Bytes
  writes : List Write
  parts : List Part
  reads : List Conn.Read

/-- The writes one after another: the connection, and what came of the statements in them. -/
def writeAll : Conn → List Write → Conn × List (Conn.Act × Bytes)
  | c, [] => (c, [])
  | c, w :: ws =>
    let h := (c.rep_SSL_write w.sw w.looks w.buf).1
    let r := writeAll h.conn ws
    (r.1, h.acts ++ r.2)

/-- The reads one after another: the connection, the server's bytes, and whether the cache answered. -/
def readAll : Conn → List Conn.Read → Conn × Bytes × Bool
  | c, [] => (c, [], false)
  | c, r :: rs =>
    let t := c.rep_SSL_read r
    let n := readAll t.conn rs
    (n.1, t.heard ++ n.2.1, c.answers r || n.2.2)

def isQuery (cmd : Bytes) : Prop := cmd.head? = some COM_QUERY

instance (cmd : Bytes) : Decidable (isQuery cmd) := inferInstanceAs (Decidable (_ = _))

namespace Exchange

/-- The bytes written are one command. -/
def Sends (x : Exchange) : Prop :=
  (takeMessage (x.writes.map Write.buf).flatten).map (fun mr => (mr.1.payload, mr.2)) = some (x.cmd, [])

/-- The bytes heard are the response, and a query has one unless the cache answered it. Afterwards
    nothing is awaited or owed. -/
def Answers (x : Exchange) (dep : Bool) (r : Conn × Bytes × Bool) : Prop :=
  ((packets.split r.2.1).1.map (fun mw => mw.1.payload) = (x.parts.map (Part.payloads dep)).flatten ∧
    (packets.split r.2.1).2 = []) ∧ (isQuery x.cmd → (r.2.2 = true ↔ x.parts = [])) ∧
    r.1.awaiting = false ∧ r.1.owed.length ≤ r.1.owed_off

instance (x : Exchange) : Decidable x.Sends := inferInstanceAs (Decidable (_ = _))

instance (x : Exchange) (dep : Bool) (r : Conn × Bytes × Bool) : Decidable (x.Answers dep r) :=
  let _ : Decidable (x.parts = []) := decidable_of_iff (x.parts.length = 0) List.length_eq_zero_iff
  inferInstanceAs (Decidable ((_ ∧ _) ∧ (_ → (_ ↔ _)) ∧ _ ∧ _))

end Exchange

/-- A connection, the flags the server sent last, and the flags in force whenever a statement was
    asked about or its response captured. -/
structure Session where
  conn : Conn := {}
  flags : UInt16 := 0
  acted : List UInt16 := []

namespace Session

/-- One exchange on a connection that did or did not negotiate CLIENT_DEPRECATE_EOF. -/
def step (dep : Bool) (s : Session) (x : Exchange) : Option Session :=
  let w := writeAll s.conn x.writes
  let r := readAll w.1 x.reads
  if x.Sends ∧ (∀ p ∈ x.parts, p.WellFormed) ∧ x.Answers dep r then
    some { conn := r.1, flags := latestFlags dep s.flags x.parts,
           acted := s.acted ++ (w.2.filter (·.1 ≠ .pass)).map fun _ => s.flags }
  else none

/-- The agent can follow the server through this exchange: where it leaves a transaction open, a query
    was answered with a first part that says so and can be read under the capabilities assumed, and
    any other command found the transaction open. -/
def Tracked (dep : Bool) (s : Session) (x : Exchange) : Prop :=
  hasStatus (latestFlags dep s.flags x.parts) SERVER_STATUS_IN_TRANS = true →
    if isQuery x.cmd then ∀ p ∈ x.parts.head?, p.Reports dep s.conn.assumed
    else hasStatus s.flags SERVER_STATUS_IN_TRANS = true

instance (dep : Bool) (s : Session) (x : Exchange) : Decidable (s.Tracked dep x) :=
  inferInstanceAs (Decidable (_ → ite ..))

end Session

/-! ### The writes of an exchange -/

theorem extractQuery_base (cmd : Bytes) :
    extractQuery cmd baseCaps = if isQuery cmd then some (cmd.drop 1) else none := by
  have hattr : hasCap baseCaps CLIENT_QUERY_ATTRIBUTES = false := by decide
  by_cases hq : isQuery cmd
  · have hq' : ¬ cmd.head? ≠ some COM_QUERY := not_not_intro hq
    rw [if_pos hq, extractQuery, if_neg hq', hattr]
    rfl
  · have hq' : cmd.head? ≠ some COM_QUERY := hq
    rw [if_neg hq, extractQuery, if_pos hq']

/-- What the writes of one command leave. -/
structure Commanded (c : Conn) (cmd : Bytes) (c' : Conn) (acts : List (Conn.Act × Bytes)) : Prop where
  caps : c'.req.caps = baseCaps
  view : c'.req.reader.view = []
  in_txn : c'.in_txn = c.in_txn
  known : c'.caps = c.caps ∧ c'.caps_known = c.caps_known
  rd : c'.rd = c.rd ∨ c'.rd = c.rd.reset
  acted : ∀ a ∈ acts, a.1 ≠ .pass → c.in_txn = false
  awaits : c'.awaiting = true → c.awaiting = true ∨ c.in_txn = false
  query : isQuery cmd → c'.resp = ResponseTracker.begin c.assumed
  other : ¬ isQuery cmd → c'.resp = c.resp

theorem Commanded.rd_view {c c' : Conn} {cmd : Bytes} {acts : List (Conn.Act × Bytes)}
    (h : Commanded c cmd c' acts) (hv : c.rd.view = []) : c'.rd.view = [] := by
  rcases h.rd with hr | hr
  · rw [hr]
    exact hv
  · rw [hr]
    rfl

theorem writeAll_nil (ws : List Write) (c : Conn) (h : (ws.map Write.buf).flatten = []) :
    writeAll c ws = (c, []) := by
  induction ws with
  | nil => rfl
  | cons w ws ih =>
    rw [List.map_cons, List.flatten_cons, List.append_eq_nil_iff] at h
    rw [writeAll, Conn.rep_SSL_write, if_pos h.1]
    dsimp only
    rw [ih h.2]
    rfl

/-- The write a command is complete with: the last that has bytes. -/
def lastWrite : List Write → Option Write
  | [] => none
  | w :: ws => (lastWrite ws).or (if w.buf = [] then none else some w)

theorem lastWrite_nil (ws : List Write) (h : (ws.map Write.buf).flatten = []) : lastWrite ws = none := by
  induction ws with
  | nil => rfl
  | cons w ws ih =>
    rw [List.map_cons, List.flatten_cons, List.append_eq_nil_iff] at h
    rw [lastWrite, ih h.2, if_pos h.1]
    rfl

/-- Induction on the writes: until the last byte of the command is there only the request tracker
    moves, so the writes come down to the last of them. -/
theorem writeAll_last {m : Message} (ws : List Write) : ∀ {c : Conn}, c.req.caps = baseCaps →
    takeMessage c.req.reader.view = none →
    takeMessage (c.req.reader.view ++ (ws.map Write.buf).flatten) = some (m, []) →
    ∃ w ∈ lastWrite ws, w.buf ≠ [] ∧ ∃ req : RequestTracker, req.caps = baseCaps ∧
      takeMessage (req.reader.view ++ w.buf) = some (m, []) ∧
      let h := Conn.handleWrite { c with req := req } w.sw w.looks w.buf
      writeAll c ws = (h.conn, h.acts) := by
  induction ws with
  | nil =>
    intro c _ hnone h
    rw [List.map_nil, List.flatten_nil, List.append_nil, hnone] at h
    cases h
  | cons w ws ih =>
    intro c hc hnone h
    rw [List.map_cons, List.flatten_cons] at h
    rw [writeAll, Conn.rep_SSL_write, lastWrite]
    by_cases hbuf : w.buf = []
    · rw [if_pos hbuf, if_pos hbuf, Option.or_none]
      rw [hbuf, List.nil_append] at h
      exact ih hc hnone h
    rw [if_neg hbuf, if_neg hbuf]
    rw [← List.append_assoc] at h
    by_cases hrest : (ws.map Write.buf).flatten = []
    · -- the write that completes the command
      rw [hrest, List.append_nil] at h
      refine ⟨w, by rw [lastWrite_nil ws hrest]; rfl, hbuf, c.req, hc, h, ?_⟩
      dsimp only
      rw [writeAll_nil ws _ hrest, List.append_nil]
    · have hcut := Framing.take_of_cut (F := packets) h hrest
      rw [handleWrite_incomplete w.sw w.looks hcut]
      have hview := c.req.reader.view_append w.buf
      obtain ⟨w', hw', hbuf', req, hreq, htake, hall⟩ := ih
        (c := { c with req := { c.req with reader := c.req.reader.append w.buf } }) hc
        (by rw [hview]; exact hcut) (by rw [hview]; exact h)
      exact ⟨w', by rw [Option.mem_def.mp hw']; rfl, hbuf', req, hreq, htake, by rw [hall]; rfl⟩

theorem writeAll_spec {m : Message} (ws : List Write) (c : Conn) (hc : c.req.caps = baseCaps)
    (hnone : takeMessage c.req.reader.view = none)
    (h : takeMessage (c.req.reader.view ++ (ws.map Write.buf).flatten) = some (m, [])) :
    Commanded c m.payload (writeAll c ws).1 (writeAll c ws).2 := by
  obtain ⟨w, -, -, req, hreq, htake, hall⟩ := writeAll_last ws hc hnone h
  have hw := handleWrite_whole (c := { c with req := req }) w.sw w.looks htake
  have hx := extractQuery_base m.payload
  rw [hall]
  refine ⟨hw.caps.trans hreq, hw.view, hw.in_txn, hw.known, hw.rd, hw.acted, hw.awaits, ?_, ?_⟩
  · intro hq
    exact hw.query (by rw [hreq, hx, if_pos hq]; rfl)
  · intro hq
    exact hw.other (by rw [hreq, hx, if_neg hq])

/-! ### The reads of an exchange -/

/-- A connection that awaits nothing is answered nothing. -/
theorem readAll_idle (rs : List Conn.Read) : ∀ (c : Conn), c.awaiting = false →
    (readAll c rs).2.2 = false := by
  induction rs with
  | nil =>
    intro c _
    rfl
  | cons r rs ih =>
    intro c h
    have hr := rep_SSL_read_spec c r
    have hans : c.answers r = false := by simp [Conn.answers, h]
    rw [readAll]
    dsimp only
    rw [hans, ih _ ((hr.idle (.inl h)).2.trans h)]
    rfl

/-- Whatever the reads are, the tracker hears the response as a whole. -/
theorem readAll_spec (rs : List Conn.Read) : ∀ (c : Conn), takeMessage c.rd.view = none →
    c.awaiting = false ∨ c.rd.view = [] →
    (readAll c rs).1.req = c.req ∧ (c.Framed → (readAll c rs).1.Framed) ∧
      c.Heard (readAll c rs).1 (readAll c rs).2.1 := by
  induction rs with
  | nil =>
    intro c hn _
    exact ⟨rfl, id, .nil hn rfl rfl⟩
  | cons r rs ih =>
    intro c hn hv
    have hr := rep_SSL_read_spec c r
    have hh := hr.heard hn hv
    rw [readAll]
    dsimp only
    generalize c.rep_SSL_read r = t at hr hh
    have hview : t.conn.rd.view = (packets.split (c.rd.view ++ t.heard)).2 := congrArg Prod.snd hh
    have hn' : takeMessage t.conn.rd.view = none := by
      rw [hview]; exact Framing.take_split_rest (F := packets) _
    have hv' : t.conn.awaiting = false ∨ t.conn.rd.view = [] := by
      rcases Nat.eq_zero_or_pos r.cap with h0 | h0
      · have hnil : t.heard = [] := List.eq_nil_of_length_eq_zero (by have := hr.fits; omega)
        rw [(hr.idle (.inr h0)).2, hview, hnil, List.append_nil, Framing.split_none (F := packets) hn]
        exact hv
      · rcases ha : c.awaiting with _ | _
        · exact .inl ((hr.idle (.inl ha)).2.trans ha)
        · exact .inl (hr.settled ha h0).1
    obtain ⟨hreq, hfr, ih⟩ := ih t.conn hn' hv'
    refine ⟨hreq.trans hr.req, fun h => hfr (hr.framed h), ?_⟩
    rw [Conn.Heard] at ih hh ⊢
    rw [ih, hh, Framing.feeds_append]

/-- The tracker after a response, in terms of its packets. -/
theorem heard_payloads {c c' : Conn} {heard : Bytes} {ps : List Bytes} (h : c.Heard c' heard)
    (hv : c.rd.view = []) (hps : (packets.split heard).1.map (fun mw => mw.1.payload) = ps)
    (hrest : (packets.split heard).2 = []) :
    (c'.resp, c'.in_txn) = ps.foldl trackPayload (c.resp, c.in_txn) ∧ c'.rd.view = [] := by
  rw [Conn.Heard, Framing.feeds, hv, List.nil_append] at h
  refine ⟨(congrArg Prod.fst h).trans ?_, (congrArg Prod.snd h).trans hrest⟩
  rw [foldl_track, List.map_map, ← hps]
  rfl

namespace Session

/-! ### The flag follows the server -/

/-- Between exchanges: the readers are empty, and an open transaction is known. -/
structure Inv (s : Session) : Prop where
  caps : s.conn.req.caps = baseCaps
  view : s.conn.req.reader.view = []
  rd : s.conn.rd.view = []
  idle : s.conn.awaiting = false
  framed : s.conn.Framed
  txn : hasStatus s.flags SERVER_STATUS_IN_TRANS = true → Ended (s.conn.resp, s.conn.in_txn) true
  acted : ∀ f ∈ s.acted, hasStatus f SERVER_STATUS_IN_TRANS = false

theorem inv_init : Inv {} :=
  ⟨rfl, rfl, rfl, rfl, fun h => absurd h (by decide), fun h => absurd h (by decide),
    fun _ h => absurd h List.not_mem_nil⟩

/-- Outside a transaction as far as the agent knows means outside one. -/
theorem Inv.outside {s : Session} (h : Inv s) (hin : s.conn.in_txn = false) :
    hasStatus s.flags SERVER_STATUS_IN_TRANS = false := by
  by_contra hne
  have htrue : s.conn.in_txn = true := (h.txn (by simpa using hne)).2.2
  rw [hin] at htrue
  cases htrue

/-- The response of an exchange that leaves a transaction open leaves the flag set. -/
theorem Inv.txn_step {dep : Bool} {s : Session} {x : Exchange} {c c' : Conn} {answered : Bool}
    (h : Inv s) {acts : List (Conn.Act × Bytes)} (hcmd : Commanded s.conn x.cmd c acts)
    (hwf : ∀ p ∈ x.parts, p.WellFormed) (htr : s.Tracked dep x)
    (hanswered : answered = true → c.awaiting = true)
    (hq : isQuery x.cmd → (answered = true ↔ x.parts = []))
    (hresp : (c'.resp, c'.in_txn) =
      (x.parts.map (Part.payloads dep)).flatten.foldl trackPayload (c.resp, c.in_txn))
    (hopen : hasStatus (latestFlags dep s.flags x.parts) SERVER_STATUS_IN_TRANS = true) :
    Ended (c'.resp, c'.in_txn) true := by
  have ht := htr hopen
  rw [hresp]
  by_cases hx : isQuery x.cmd
  · rw [if_pos hx] at ht
    rcases hp : x.parts with _ | ⟨p, ps⟩
    · -- answered from the cache, so asked about, so outside a transaction
      have hout : s.conn.in_txn = false :=
        (hcmd.awaits (hanswered ((hq hx).mpr hp))).resolve_left (by rw [h.idle]; decide)
      rw [hp] at hopen
      exact absurd hopen (by rw [latestFlags, List.foldl_nil, h.outside hout]; decide)
    · rw [hp] at ht hwf
      rw [List.map_cons, List.flatten_cons, List.foldl_append, hcmd.query hx]
      exact track_done _ (track_reports _ h.framed.assumed (hwf p List.mem_cons_self) (ht p rfl))
  · rw [if_neg hx] at ht
    rw [hcmd.other hx, hcmd.in_txn]
    exact track_done _ (h.txn ht)

/-- What an exchange is made of. -/
theorem step_cases {dep : Bool} {s s' : Session} {x : Exchange} (hs : s.step dep x = some s') :
    ∃ m : Message, takeMessage (x.writes.map Write.buf).flatten = some (m, []) ∧ m.payload = x.cmd ∧
      (∀ p ∈ x.parts, p.WellFormed) ∧ x.Answers dep (readAll (writeAll s.conn x.writes).1 x.reads) ∧
      s' = { conn := (readAll (writeAll s.conn x.writes).1 x.reads).1
             flags := latestFlags dep s.flags x.parts
             acted := s.acted ++
               ((writeAll s.conn x.writes).2.filter (·.1 ≠ .pass)).map fun _ => s.flags } := by
  rw [step] at hs
  split_ifs at hs with hx
  obtain ⟨hsends, hwf, hans⟩ := hx
  rw [Exchange.Sends, Option.map_eq_some_iff] at hsends
  obtain ⟨⟨m, rest⟩, hm, he⟩ := hsends
  simp only [Prod.mk.injEq] at he
  obtain ⟨hcmd, rfl⟩ := he
  exact ⟨m, hm, hcmd, hwf, hans, (Option.some.inj hs).symm⟩

theorem inv_step {dep : Bool} (s : Session) (x : Exchange) (s' : Session) (h : Inv s)
    (htr : s.Tracked dep x) (hs : s.step dep x = some s') : Inv s' := by
  obtain ⟨m, hm, hcmdp, hwf, ⟨⟨hps, hrest⟩, hq, hidle, -⟩, rfl⟩ := step_cases hs
  have hcmd := writeAll_spec x.writes s.conn h.caps (by rw [h.view]; rfl)
    (by rw [h.view, List.nil_append]; exact hm)
  rw [hcmdp] at hcmd
  generalize writeAll s.conn x.writes = w at *
  have hrd := hcmd.rd_view h.rd
  obtain ⟨hreq, hfr, hheard⟩ := readAll_spec x.reads w.1 (by rw [hrd]; rfl) (.inr hrd)
  have hans : (readAll w.1 x.reads).2.2 = true → w.1.awaiting = true := fun ha => by
    by_contra hne
    rw [readAll_idle x.reads w.1 (by simpa using hne)] at ha
    cases ha
  generalize readAll w.1 x.reads = r at *
  obtain ⟨hresp, hview⟩ := heard_payloads hheard hrd hps hrest
  refine ⟨by rw [hreq]; exact hcmd.caps, by rw [hreq]; exact hcmd.view, hview, hidle, ?_, ?_, ?_⟩
  · refine hfr ?_
    rw [Conn.Framed, hcmd.known.1, hcmd.known.2]
    exact h.framed
  · exact h.txn_step hcmd hwf htr hans hq hresp
  · intro f hf
    rcases List.mem_append.mp hf with hf | hf
    · exact h.acted f hf
    · obtain ⟨a, ha, rfl⟩ := List.mem_map.mp hf
      obtain ⟨ha, hne⟩ := List.mem_filter.mp ha
      exact h.outside (hcmd.acted a ha (by simpa using hne))

/-- In every run that the agent can follow, no statement is asked about and no response captured while
    the server's latest flags say that a transaction is open. -/
theorem acts_outside_transactions {dep : Bool} {xs : List Exchange} {s : Session}
    (htr : Along (step dep) (Tracked dep) {} xs) (hr : run (step dep) {} xs = some s) :
    ∀ f ∈ s.acted, hasStatus f SERVER_STATUS_IN_TRANS = false :=
  (run_inv_along inv_step inv_init htr hr : Inv s).acted

/-! ### A transaction that ends, and one that meets an error

    The statement `SELECT 1` is listed and not cached, so outside a transaction its response is
    captured. -/

def sampleBegin : Bytes := [66, 69, 71, 73, 78]
def sampleCommit : Bytes := [67, 79, 77, 77, 73, 84]
def sampleSelect : Bytes := [83, 69, 76, 69, 67, 84, 32, 49]

/-- A query in one write, its response in one read. -/
def sampleExchange (sql : Bytes) (parts : List Part) : Exchange where
  cmd := COM_QUERY :: sql
  writes := [⟨{ list := [sampleSelect] }, fun _ => {}, encodeMessage (COM_QUERY :: sql) 0⟩]
  parts := parts
  reads := [{ cap := (framed 1 (parts.map (Part.payloads true)).flatten).length
              chunk := framed 1 (parts.map (Part.payloads true)).flatten
              fits := Nat.le_refl _ }]

/-- One row, under these flags. -/
def sampleRow (status : UInt16) : Part := .set [[110]] (0, 0) [[1, 49]] (.done { status := status })

/-- Error 1064, state 42000. -/
def sampleError : Part := .err [0x28, 0x04, 35, 52, 50, 48, 48, 48]

theorem acts_outside_transactions_sample :
    ∃ s, run (step true) {} [sampleExchange sampleBegin [.ok { status := 3 }],
        sampleExchange sampleSelect [sampleRow 3], sampleExchange sampleCommit [.ok { status := 2 }],
        sampleExchange sampleSelect [sampleRow 2]] = some s ∧
      s.acted = [2] ∧ ∀ f ∈ s.acted, hasStatus f SERVER_STATUS_IN_TRANS = false := by
  refine exists_run_of_map acted [2] (by decide +kernel) ?_
  intro s hs ha
  exact ⟨ha, acts_outside_transactions (by decide +kernel) hs⟩

/-- A query that fails inside a transaction: the tracker forgets the transaction, and the next listed
    statement is captured under the flags 3, which have SERVER_STATUS_IN_TRANS. -/
theorem captured_inside_transaction :
    ∃ s, run (step true) {} [sampleExchange sampleBegin [.ok { status := 3 }],
        sampleExchange [120] [sampleError], sampleExchange sampleSelect [sampleRow 3]] = some s ∧
      s.acted = [3] ∧ ¬ ∀ f ∈ s.acted, hasStatus f SERVER_STATUS_IN_TRANS = false := by
  refine exists_run_of_map acted [3] (by decide +kernel) ?_
  intro s _ ha
  refine ⟨ha, ?_⟩
  rw [ha, List.forall_mem_singleton]
  decide

end Session

end Barnacle.Agent
