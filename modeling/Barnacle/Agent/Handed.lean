import Barnacle.Agent.Capture

/-! What `observe` hands to the daemon: a statement and the response to store for it. That response
    should be the one the server gave to this very statement, a single result set from outside a
    transaction, in canonical form. It is, as long as the tracker sees the end of every response it
    captures where it is: a capture that misses the end runs on into whatever the server sends next,
    and the flags found there decide. -/

namespace Barnacle.Agent
open Barnacle.Lib Barnacle.Mysql

/-! ### The write of a statement -/

/-- A statement that comes complete with this write has its response captured, at once or when it
    turns out that the cache cannot answer. -/
def Write.Takes (w : Write) (in_txn : Bool) (sql : Bytes) : Prop :=
  w.sw.on = true ∧ sql ∈ w.sw.list ∧ in_txn = false ∧
    (w.sw.local_on = true ∧ (keyed sql && (w.looks 0).payload) = false ∨
      keyed sql = true ∧ (w.looks 0).acquired = true ∧ (w.looks 0).posted = true)

instance (w : Write) (in_txn : Bool) (sql : Bytes) : Decidable (w.Takes in_txn sql) :=
  inferInstanceAs (Decidable (_ ∧ _ ∧ _ ∧ _))

/-- What came of a command complete with the write `w`. -/
inductive Took (c : Conn) (w : Write) (cmd : Bytes) (c' : Conn) : Prop
  | passed (capturing : c'.capturing = c.capturing) (awaiting : c'.awaiting = c.awaiting)
  | captured (query : isQuery cmd) (takes : w.Takes c.in_txn (cmd.drop 1))
      (pending : c'.pending = cmd.drop 1) (on : c'.capturing = true) (captured : c'.captured = [])
      (awaiting : c'.awaiting = c.awaiting)
  | asked (query : isQuery cmd) (takes : w.Takes c.in_txn (cmd.drop 1))
      (pending : c'.pending = cmd.drop 1) (capturing : c'.capturing = c.capturing)
      (awaits : c'.awaiting = true) (held : c'.query = w.buf)

theorem consider_took {cmd : Bytes} (hq : isQuery cmd) (w : Write) (c : Conn) :
    Took c w cmd (c.consider w.sw (w.looks 0) w.buf (cmd.drop 1)).2 ∧
      (c.consider w.sw (w.looks 0) w.buf (cmd.drop 1)).2.due = c.due := by
  rw [Conn.consider]
  dsimp only
  split_ifs with hon hlist htxn hlocal hpipe hpost
  · exact ⟨.passed rfl rfl, rfl⟩
  · exact ⟨.passed rfl rfl, rfl⟩
  · have htakes : w.Takes c.in_txn (cmd.drop 1) := by
      obtain ⟨hloc, hmiss⟩ := Bool.and_eq_true_iff.mp hlocal
      rw [Bool.not_eq_true'] at hmiss
      exact ⟨by simpa using hon, hlist, by simpa using htxn, .inl ⟨hloc, hmiss⟩⟩
    exact ⟨.captured hq htakes rfl rfl rfl rfl, rfl⟩
  · exact ⟨.passed rfl rfl, rfl⟩
  · exact ⟨.passed rfl rfl, rfl⟩
  · have htakes : w.Takes c.in_txn (cmd.drop 1) := by
      have hpipe' : (keyed (cmd.drop 1) && (w.looks 0).acquired) = true := by simpa using hpipe
      obtain ⟨hkey, hacq⟩ := Bool.and_eq_true_iff.mp hpipe'
      exact ⟨by simpa using hon, hlist, by simpa using htxn, .inr ⟨hkey, hacq, by simpa using hpost⟩⟩
    exact ⟨.asked hq htakes rfl rfl rfl rfl, rfl⟩
  · exact ⟨.passed rfl rfl, rfl⟩

/-- The request tracker plays no part in it, before or after. -/
theorem Took.req {c c' : Conn} {w : Write} {cmd : Bytes} {t : RequestTracker}
    (h : Took { c with req := t } w cmd c') (t' : RequestTracker) :
    Took c w cmd c' ∧ Took c w cmd { c' with req := t' } := by
  cases h with
  | passed h1 h2 => exact ⟨.passed h1 h2, .passed h1 h2⟩
  | captured h1 h2 h3 h4 h5 h6 => exact ⟨.captured h1 h2 h3 h4 h5 h6, .captured h1 h2 h3 h4 h5 h6⟩
  | asked h1 h2 h3 h4 h5 h6 => exact ⟨.asked h1 h2 h3 h4 h5 h6, .asked h1 h2 h3 h4 h5 h6⟩

theorem handleWrite_took {c : Conn} {w : Write} {m : Message} (hc : c.req.caps = baseCaps)
    (h : takeMessage (c.req.reader.view ++ w.buf) = some (m, [])) :
    Took c w m.payload (c.handleWrite w.sw w.looks w.buf).conn ∧
      (c.handleWrite w.sw w.looks w.buf).conn.due = c.due := by
  obtain ⟨t, hv, -, hn⟩ := RequestTracker.next_of_one
    (t := { c.req with reader := c.req.reader.append w.buf }) (m := m)
    (by rw [MessageReader.view_append]; exact h)
  rw [Conn.handleWrite, RequestTracker.feed, hn]
  dsimp only
  rw [hc, extractQuery_base]
  by_cases hq : isQuery m.payload
  · rw [if_pos hq]
    dsimp only
    have hcon := consider_spec w.sw (w.looks 0) w.buf { c with req := t } (m.payload.drop 1)
    obtain ⟨htook, hdue⟩ := consider_took hq w { c with req := t }
    rw [Conn.handleLoop]
    generalize Conn.consider w.sw (w.looks 0) w.buf { c with req := t } (m.payload.drop 1) = r at *
    have hnext : r.2.req.next = (none, t) := by
      rw [hcon.req]
      exact RequestTracker.next_of_none (by rw [hv]; rfl)
    dsimp only
    split_ifs with hask
    · exact ⟨(htook.req t).1, hdue⟩
    · rw [hnext]
      exact ⟨(htook.req t).2, hdue⟩
  · rw [if_neg hq]
    exact ⟨.passed rfl rfl, rfl⟩

theorem writeAll_took {m : Message} (ws : List Write) {c : Conn} (hc : c.req.caps = baseCaps)
    (hnone : takeMessage c.req.reader.view = none)
    (h : takeMessage (c.req.reader.view ++ (ws.map Write.buf).flatten) = some (m, [])) :
    ∃ w ∈ lastWrite ws, w.buf ≠ [] ∧ Took c w m.payload (writeAll c ws).1 ∧
      (writeAll c ws).1.due = c.due := by
  obtain ⟨w, hw, hbuf, req, hreq, htake, hall⟩ := writeAll_last ws hc hnone h
  obtain ⟨htook, hdue⟩ := handleWrite_took (c := { c with req := req }) hreq htake
  rw [hall]
  exact ⟨w, hw, hbuf, (htook.req {}).1, hdue⟩

/-! ### The response to it -/

/-- More of the response follows this part. -/
def Part.more : Part → Bool
  | .ok o | .set _ _ _ (.done o) => hasStatus o.status SERVER_MORE_RESULTS_EXISTS
  | .err _ | .set _ _ _ (.err _) => false

/-- Every part but the last says that more follows. -/
def Chained : List Part → Prop
  | [] => True
  | [p] => p.more = false
  | p :: q :: ps => p.more = true ∧ Chained (q :: ps)

instance decidableChained : ∀ ps, Decidable (Chained ps)
  | [] => inferInstanceAs (Decidable True)
  | [p] => inferInstanceAs (Decidable (p.more = false))
  | p :: q :: ps =>
    let _ := decidableChained (q :: ps)
    inferInstanceAs (Decidable (p.more = true ∧ Chained (q :: ps)))

/-- The columns and rows of a result set that came to its end are what the protocol says. -/
def Part.Readable : Part → Prop
  | .set cols mid rows (.done o) => (Part.set cols mid rows (.done o)).result.isSome = true
  | _ => True

instance : ∀ p : Part, Decidable p.Readable
  | .ok _ | .err _ | .set _ _ _ (.err _) => inferInstanceAs (Decidable True)
  | .set _ _ _ (.done _) => inferInstanceAs (Decidable (_ = true))

/-- The response is a whole one, and readable if it is a query's. -/
def Exchange.Proper (x : Exchange) : Prop :=
  Chained x.parts ∧ (isQuery x.cmd → ∀ p ∈ x.parts, p.Readable)

instance (x : Exchange) : Decidable x.Proper := inferInstanceAs (Decidable (_ ∧ _))

/-- A result set that nothing follows, from outside a transaction, and its canonical bytes. -/
def Part.Plain (p : Part) (canon : Bytes) : Prop :=
  ∃ rs, p.result = some rs ∧ hasStatus rs.status SERVER_MORE_RESULTS_EXISTS = false ∧
    hasStatus rs.status SERVER_STATUS_IN_TRANS = false ∧
    canon = encodeResultSet rs BNCL_CANONICAL_CAPS 1

section Captured
variable {dep known : Bool} {caps : UInt32} {whole : Bytes} {ps : List Bytes} {p : Part}

/-- Known, the framing is the connection's. -/
def Agrees (dep : Bool) (l : UInt32 × Bool) : Prop := l.2 = true → l.1 = capsOf dep

/-- The capabilities a response is read under, known or not. -/
theorem Agrees.assumed (hl : Agrees dep (caps, known)) :
    KnownCaps (if known then caps else baseCaps) ∧
      (known = true → hasCap (if known then caps else baseCaps) CLIENT_DEPRECATE_EOF = dep) := by
  cases known with
  | false => exact ⟨.inl rfl, by simp⟩
  | true =>
    have hcaps : caps = capsOf dep := hl rfl
    rw [hcaps]
    refine ⟨?_, fun _ => hasCap_capsOf dep⟩
    cases dep
    · exact .inl rfl
    · exact .inr rfl

theorem Agrees.learned_nothing (hl : Agrees dep (caps, known))
    (h : known = false → Conn.inferCaps whole = none) : Agrees dep (learned whole caps known) := by
  rw [learned]
  cases known with
  | true => exact hl
  | false =>
    rw [if_neg (by decide), h rfl]
    simp [Agrees]

theorem Agrees.learned_framing (hl : Agrees dep (caps, known))
    (h : known = false → Conn.inferCaps whole = some (capsOf dep)) :
    learned whole caps known = (capsOf dep, true) := by
  rw [learned]
  cases known with
  | true => rw [if_pos rfl, show caps = capsOf dep from hl rfl]
  | false => rw [if_neg (by decide), h rfl]

/-- A response that begins with anything but a column count is neither learned from nor stored. -/
theorem captured_other {t : ResponseTracker} {x : Bytes} (hl : Agrees dep (caps, known))
    (hw : payloads whole = x :: ps) (hx : ∀ caps, classifyResponse x caps ≠ .ResultSet) :
    Agrees dep (learned whole caps known) ∧ harvested whole caps known t = none := by
  refine ⟨hl.learned_nothing fun _ => inferCaps_other hw hx, ?_⟩
  rw [harvested, parseResultSet_other hw hx]
  split_ifs <;> rfl

/-- A set that came to its end: the framing learned is the connection's, and what is stored is the
    set, if its flags allow it. -/
theorem captured_set {cols rows : List Bytes} {mid : UInt16 × UInt16} {o : OkBody}
    {t : ResponseTracker} (hl : Agrees dep (caps, known))
    (hwf : (Part.set cols mid rows (.done o)).WellFormed)
    (hread : (Part.set cols mid rows (.done o)).Readable)
    (hseen : Legible dep (if known then caps else baseCaps) rows o)
    (hpoison : t.poisoned = hasStatus o.status SERVER_MORE_RESULTS_EXISTS)
    (htxn : t.in_transaction = hasStatus o.status SERVER_STATUS_IN_TRANS)
    (hw : payloads whole = (Part.set cols mid rows (.done o)).payloads dep ++ ps) :
    Agrees dep (learned whole caps known) ∧ ∀ canon ∈ harvested whole caps known t,
      (Part.set cols mid rows (.done o)).Plain canon := by
  obtain ⟨rs, hrs⟩ := Option.isSome_iff_exists.mp hread
  have hshort : dep = true → (o.payload 0xFE).length < 9 := by
    rintro rfl
    exact hseen.1
  have hlearn : learned whole caps known = (capsOf dep, true) := by
    refine hl.learned_framing fun hk => inferCaps_set hwf hrs (fun hdep => ⟨?_, hshort hdep⟩) hw
    subst hk hdep
    exact (hseen.2.resolve_left (by rw [if_neg (by decide)]; decide)).1
  have hparse : parseResultSet whole (capsOf dep) = some rs := by
    rw [parseResultSet_eq, hw, takeResultSet_own hwf hshort (hasCap_capsOf dep), hrs]
  refine ⟨by rw [hlearn]; exact fun _ => rfl, ?_⟩
  intro canon hcanon
  rw [Option.mem_def, harvested, hlearn, hpoison, htxn] at hcanon
  dsimp only at hcanon
  rw [hparse] at hcanon
  split_ifs at hcanon with hno
  rw [Bool.not_true, Bool.or_false, Bool.or_eq_true, not_or, Bool.not_eq_true, Bool.not_eq_true] at hno
  rw [Option.map_some, Option.some.injEq] at hcanon
  obtain ⟨cs, rws, -, -, rfl⟩ := result_cases hrs
  exact ⟨_, hrs, hno.1, hno.2, hcanon.symm⟩

/-- A first part whose end the tracker sees: the framing learned from the response is the
    connection's, and a response is stored only if that part is a plain result set. -/
theorem captured_part (hl : Agrees dep (caps, known)) (hwf : p.WellFormed) (hread : p.Readable)
    (hseen : p.Seen dep known (if known then caps else baseCaps)) :
    ∃ t, EndsWith (ResponseTracker.begin (if known then caps else baseCaps)) (p.payloads dep) t ∧
      ∀ whole ps, payloads whole = p.payloads dep ++ ps →
        Agrees dep (learned whole caps known) ∧ ∀ canon ∈ harvested whole caps known t, p.Plain canon := by
  obtain ⟨hk, hown⟩ := hl.assumed
  rcases p with o | body | ⟨cols, mid, rows, o | body⟩
  · obtain ⟨t, ht, -⟩ := endsWith_ok hk.has hwf
    refine ⟨t, ht, ?_⟩
    intro whole ps hw
    obtain ⟨h1, h2⟩ := captured_other (t := t) hl hw fun _ => by simp [OkBody.payload, classifyResponse]
    exact ⟨h1, by simp [h2]⟩
  · obtain ⟨t, ht⟩ := endsWith_err body (if known then caps else baseCaps)
    refine ⟨t, ht, ?_⟩
    intro whole ps hw
    obtain ⟨h1, h2⟩ := captured_other (t := t) hl hw fun _ => by simp [classifyResponse]
    exact ⟨h1, by simp [h2]⟩
  · obtain ⟨t, ht, -, hpoison, htxn⟩ := endsWith_set hk.has hwf hseen
    exact ⟨t, ht, fun _ _ hw => captured_set hl hwf hread hseen hpoison htxn hw⟩
  · -- cut short by an error: the tracker gives up, and nothing is stored
    have hc : hasCap (if known then caps else baseCaps) CLIENT_DEPRECATE_EOF = dep ∨
        dep = true ∧ hasCap (if known then caps else baseCaps) CLIENT_DEPRECATE_EOF = false ∧
          rows ≠ [] := by
      rcases hseen with h | ⟨hdep, hne⟩
      · exact .inl (hown h)
      · cases known with
        | true => exact .inl (hown rfl)
        | false => exact .inr ⟨hdep, by rw [if_neg (by decide)]; decide, hne⟩
    obtain ⟨t, ht, hpoison⟩ := endsWith_set_err hwf hc
    refine ⟨t, ht, ?_⟩
    intro whole ps hw
    refine ⟨hl.learned_nothing fun hk => ?_, ?_⟩
    · obtain ⟨rfl, hne⟩ := hseen.resolve_left (by rw [hk]; decide)
      exact inferCaps_err hwf hne hw
    · rw [harvested, hpoison]
      simp

end Captured

theorem Chained.single {p : Part} {ps : List Part} (h : Chained (p :: ps)) (hp : p.more = false) :
    ps = [] := by
  rcases ps with _ | ⟨q, ps⟩
  · rfl
  · rw [Chained, hp] at h
    cases h.1

theorem Part.Plain.more {p : Part} {canon : Bytes} (h : p.Plain canon) : p.more = false := by
  obtain ⟨rs, hrs, hmore, -⟩ := h
  rcases p with o | body | ⟨cols, mid, rows, o | body⟩
  · cases hrs
  · cases hrs
  · obtain ⟨cs, rws, -, -, rfl⟩ := result_cases hrs
    exact hmore
  · cases hrs

namespace Session

/-! ### Runs -/

/-- Where this exchange has its response captured, the tracker sees the end of the first part. -/
def SeesEnd (dep : Bool) (s : Session) (x : Exchange) : Prop :=
  isQuery x.cmd → ∀ w ∈ lastWrite x.writes, w.Takes s.conn.in_txn (x.cmd.drop 1) →
    ∀ p ∈ x.parts.head?, p.Seen dep s.conn.caps_known s.conn.assumed

instance (dep : Bool) (s : Session) (x : Exchange) : Decidable (s.SeesEnd dep x) :=
  inferInstanceAs (Decidable (_ → _))

/-- Between exchanges: everything written and owed has been taken, nothing is captured, and the
    framing, if it is known, is the connection's. -/
structure Ready (dep : Bool) (s : Session) : Prop where
  caps : s.conn.req.caps = baseCaps
  view : s.conn.req.reader.view = []
  rd : s.conn.rd.view = []
  rests : Rests s.conn
  off : s.conn.capturing = false
  framing : Agrees dep (s.conn.caps, s.conn.caps_known)

theorem ready_init (dep : Bool) : Ready dep {} :=
  ⟨rfl, rfl, rfl, ⟨rfl, rfl⟩, rfl, fun h => absurd h (by decide)⟩

/-- What the reads of an exchange leave and hand over. -/
def Leaves (dep : Bool) (x : Exchange) (c : Conn) (handed : List (Bytes × Bytes)) : Prop :=
  c.capturing = false ∧ Agrees dep (c.caps, c.caps_known) ∧
    ∀ pair ∈ handed, x.cmd = COM_QUERY :: pair.1 ∧ ∃ p, x.parts = [p] ∧ p.Plain pair.2

theorem cmd_of_query {cmd : Bytes} (h : isQuery cmd) : cmd = COM_QUERY :: cmd.drop 1 := by
  rcases cmd with _ | ⟨x, tl⟩
  · cases h
  · rw [isQuery, List.head?_cons, Option.some.injEq] at h
    rw [h]
    rfl

/-- The reads of a response that is captured from its beginning. -/
theorem leaves_captured {dep : Bool} {x : Exchange} {c : Conn} {p : Part} {ps : List Part}
    (hrest : Rests c) (hcap : Capturing c [] (ResponseTracker.begin c.assumed))
    (hl : Agrees dep (c.caps, c.caps_known)) (hq : isQuery x.cmd) (hpend : c.pending = x.cmd.drop 1)
    (hprop : x.Proper) (hparts : x.parts = p :: ps) (hwf : p.WellFormed)
    (hseen : p.Seen dep c.caps_known c.assumed)
    (hheard : payloads (readAll c x.reads).2.1 = (x.parts.map (Part.payloads dep)).flatten) :
    Leaves dep x (readAll c x.reads).1 (handedAll c x.reads) := by
  obtain ⟨hchain, hread⟩ := hprop
  rw [hparts, List.map_cons, List.flatten_cons] at hheard
  obtain ⟨t, hends, hall⟩ := captured_part hl hwf (hread hq p (by rw [hparts]; exact List.mem_cons_self))
    hseen
  rcases hcap.reads x.reads hrest with hon | ⟨whole, t', hpre, hfound, hoff, hcaps, hhanded⟩
  · -- the end is in what was heard, so the capture is not still on
    have hunseen := hon.unseen
    rw [List.nil_append, hheard, seen_append] at hunseen
    obtain ⟨-, -, -, -, hsome⟩ := hends
    rw [Conn.assumed, hsome] at hunseen
    cases hunseen
  · rw [List.nil_append, hheard] at hpre
    obtain ⟨rfl, rest, hwhole⟩ := hends.within hpre hfound
    obtain ⟨hagrees, hplain⟩ := hall whole rest hwhole
    refine ⟨hoff, by rw [hcaps]; exact hagrees, ?_⟩
    intro pair hpair
    rw [hhanded, Option.mem_toList, Option.map_eq_some_iff] at hpair
    obtain ⟨canon, hcanon, rfl⟩ := hpair
    have hp := hplain canon hcanon
    rw [hparts] at hchain
    refine ⟨?_, p, by rw [hparts, hchain.single hp.more], hp⟩
    rw [hpend]
    exact cmd_of_query hq

/-- No packets and no rest: no bytes. -/
theorem nil_of_payloads {b : Bytes} (h : payloads b = []) (hrest : (packets.split b).2 = []) : b = [] := by
  rw [payloads, List.map_eq_nil_iff] at h
  rw [← Framing.split_join (F := packets) b, h, hrest]
  rfl

/-- One exchange, whatever came of its command. -/
theorem Ready.leaves {dep : Bool} {s : Session} {x : Exchange} {m : Message} (h : Ready dep s)
    (hprop : x.Proper) (hsees : s.SeesEnd dep x)
    (hm : takeMessage (x.writes.map Write.buf).flatten = some (m, [])) (hcmd : m.payload = x.cmd)
    (hwf : ∀ p ∈ x.parts, p.WellFormed)
    (hans : x.Answers dep (readAll (writeAll s.conn x.writes).1 x.reads)) :
    Leaves dep x (readAll (writeAll s.conn x.writes).1 x.reads).1
      (handedAll (writeAll s.conn x.writes).1 x.reads) := by
  have hnone : takeMessage s.conn.req.reader.view = none := by rw [h.view]; rfl
  have hwhole : takeMessage (s.conn.req.reader.view ++ (x.writes.map Write.buf).flatten) =
      some (m, []) := by rw [h.view]; exact hm
  have hcom := writeAll_spec x.writes s.conn h.caps hnone hwhole
  obtain ⟨w, hw, hbuf, htook, hdue⟩ := writeAll_took x.writes h.caps hnone hwhole
  rw [hcmd] at hcom htook
  generalize (writeAll s.conn x.writes).1 = c at *
  obtain ⟨⟨hheard, hrest⟩, hanswered, hidle, -⟩ := hans
  have hdue : c.due = [] := hdue.trans h.rests.due
  have hassumed : c.assumed = s.conn.assumed := by
    rw [Conn.assumed, hcom.known.1, hcom.known.2, Conn.assumed]
  have hagrees : Agrees dep (c.caps, c.caps_known) := by
    rw [hcom.known.1, hcom.known.2]
    exact h.framing
  have hrd := hcom.rd_view h.rd
  -- unless the cache answered there is a first part, and its end is seen
  have hfirst : isQuery x.cmd → w.Takes s.conn.in_txn (x.cmd.drop 1) →
      (readAll c x.reads).2.2 = false → ∃ p ps, x.parts = p :: ps ∧ p.WellFormed ∧
        p.Seen dep c.caps_known c.assumed := by
    intro hq htakes hno
    obtain ⟨p, ps, hparts⟩ := List.exists_cons_of_ne_nil (l := x.parts) fun hnil => by
      rw [(hanswered hq).mpr hnil] at hno
      cases hno
    refine ⟨p, ps, hparts, hwf p (by rw [hparts]; exact List.mem_cons_self), ?_⟩
    rw [hcom.known.2, hassumed]
    exact hsees hq w hw htakes p (by rw [hparts]; rfl)
  cases htook with
  | passed hoff hawait =>
    obtain ⟨hu, hnothing⟩ := reads_off x.reads ⟨hawait.trans h.rests.awaiting, hdue⟩ (hoff.trans h.off)
    rw [hnothing]
    refine ⟨hu.capturing.trans (hoff.trans h.off), ?_, by simp⟩
    rw [hu.caps.1, hu.caps.2]
    exact hagrees
  | captured hq htakes hpend hon hempty hawait =>
    have hrests : Rests c := ⟨hawait.trans h.rests.awaiting, hdue⟩
    obtain ⟨p, ps, hparts, hp, hseen⟩ := hfirst hq htakes (readAll_idle x.reads c hrests.awaiting)
    have hresp : c.resp = ResponseTracker.begin c.assumed := by rw [hassumed]; exact hcom.query hq
    exact leaves_captured hrests ⟨hon, hempty, hrd, rfl, hresp⟩ hagrees hq hpend hprop hparts hp hseen hheard
  | asked hq htakes hpend hoff hawait hheld =>
    rcases hans : (readAll c x.reads).2.2 with _ | _
    · -- sent after all, and then captured
      obtain ⟨p, ps, hparts, hp, hseen⟩ := hfirst hq htakes hans
      have hresp : c.resends.resp = ResponseTracker.begin c.resends.assumed := by
        show c.resp = ResponseTracker.begin c.assumed
        rw [hassumed]
        exact hcom.query hq
      obtain ⟨hconn, hbytes, hhanded⟩ := asked_reads x.reads hawait hdue (by rw [hheld]; exact hbuf) hans hidle
      rw [hbytes] at hheard
      rw [hconn, hhanded]
      exact leaves_captured (c := c.resends) ⟨rfl, hdue⟩ ⟨rfl, rfl, rfl, rfl, hresp⟩ hagrees hq hpend
        hprop hparts hp hseen hheard
    · -- answered from the cache: the server sent nothing
      rw [(hanswered hq).mp hans] at hheard
      obtain ⟨hnothing, hu⟩ := silent_reads x.reads (nil_of_payloads hheard hrest) (.inl hans)
      rw [hnothing]
      refine ⟨hu.capturing.trans (hoff.trans h.off), ?_, by simp⟩
      rw [hu.caps.1, hu.caps.2]
      exact hagrees

theorem ready_step {dep : Bool} (s : Session) (x : Exchange) (s' : Session) (h : Ready dep s)
    (hx : x.Proper ∧ s.SeesEnd dep x) (hs : s.step dep x = some s') : Ready dep s' := by
  obtain ⟨m, hm, hcmd, hwf, hans, rfl⟩ := step_cases hs
  obtain ⟨hoff, hagrees, -⟩ := h.leaves hx.1 hx.2 hm hcmd hwf hans
  obtain ⟨⟨hps, hrest⟩, -, hidle, howed⟩ := hans
  have hcom := writeAll_spec x.writes s.conn h.caps (by rw [h.view]; rfl)
    (by rw [h.view, List.nil_append]; exact hm)
  generalize writeAll s.conn x.writes = w at *
  have hrd := hcom.rd_view h.rd
  obtain ⟨hreq, -, hheard⟩ := readAll_spec x.reads w.1 (by rw [hrd]; rfl) (.inr hrd)
  generalize readAll w.1 x.reads = r at *
  exact ⟨by rw [hreq]; exact hcom.caps, by rw [hreq]; exact hcom.view,
    (heard_payloads hheard hrd hps hrest).2, ⟨hidle, List.drop_eq_nil_iff.mpr howed⟩, hoff, hagrees⟩

/-- In every run of whole responses, as long as the tracker sees the end of those that are captured,
    what the reads of an exchange hand to the daemon is the exchange's own statement, and its response
    was one result set, with nothing more to follow and from outside a transaction, of which these are
    the canonical bytes. -/
theorem handed_single_sets {dep : Bool} {xs : List Exchange} {x : Exchange} {s s' : Session}
    (hrun : run (step dep) {} xs = some s) (hstep : s.step dep x = some s')
    (hproper : ∀ y ∈ xs ++ [x], y.Proper)
    (hsees : Along (step dep) (SeesEnd dep) {} (xs ++ [x])) :
    ∀ pair ∈ handedAll (writeAll s.conn x.writes).1 x.reads,
      x.cmd = COM_QUERY :: pair.1 ∧ ∃ p, x.parts = [p] ∧ p.Plain pair.2 := by
  have hready : Ready dep s :=
    run_inv_along ready_step (ready_init dep)
      (Along.and (along_of_forall fun y hy _ => hproper y (List.mem_append_left _ hy)) hsees.earlier) hrun
  obtain ⟨m, hm, hcmd, hwf, hans, -⟩ := step_cases hstep
  obtain ⟨hlast, -⟩ := hsees.later hrun
  exact (hready.leaves (hproper x (by simp)) hlast hm hcmd hwf hans).2.2

/-- A row is selected outside a transaction, after one that was empty. -/
def sampleStored : Exchange := sampleExchange sampleSelect [Part.ofResultSet Wire.sampleSet]

theorem handed_single_sets_sample :
    ∃ s s', run (step true) {} [sampleExchange sampleBegin [.ok { status := 3 }],
        sampleExchange sampleCommit [.ok { status := 2 }]] = some s ∧
      s.step true sampleStored = some s' ∧
      (sampleSelect, encodeResultSet Wire.sampleSet BNCL_CANONICAL_CAPS 1) ∈
        handedAll (writeAll s.conn sampleStored.writes).1 sampleStored.reads ∧
      ∀ pair ∈ handedAll (writeAll s.conn sampleStored.writes).1 sampleStored.reads,
        sampleStored.cmd = COM_QUERY :: pair.1 ∧ ∃ p, sampleStored.parts = [p] ∧ p.Plain pair.2 := by
  have h : (run (step true) {} [sampleExchange sampleBegin [.ok { status := 3 }],
      sampleExchange sampleCommit [.ok { status := 2 }]]).map (fun s =>
        ((s.step true sampleStored).isSome,
          decide ((sampleSelect, encodeResultSet Wire.sampleSet BNCL_CANONICAL_CAPS 1) ∈
            handedAll (writeAll s.conn sampleStored.writes).1 sampleStored.reads))) =
      some (true, true) := by decide +kernel
  obtain ⟨s, hs, h⟩ := Option.map_eq_some_iff.mp h
  rw [Prod.mk.injEq, decide_eq_true_eq] at h
  obtain ⟨s', hs'⟩ := Option.isSome_iff_exists.mp h.1
  exact ⟨s, s', hs, hs', h.2, handed_single_sets hs hs' (by decide +kernel) (by decide +kernel)⟩

/-- `SELECT 1 LIMIT 0; SELECT 1`. -/
def sampleText : Bytes :=
  [83, 69, 76, 69, 67, 84, 32, 49, 32, 76, 73, 77, 73, 84, 32, 48, 59, 32, 83, 69, 76, 69, 67, 84, 32, 49]

/-- Two statements in one query, listed and not cached, on a connection whose framing is not known:
    a set without rows, then one with a row. -/
def sampleTwo : Exchange :=
  let column := columnPayload ⟨[], [], [], [], [110], [], 0, 0, 3, 0, 0⟩
  { sampleExchange sampleText
      [.set [column] (0, 0) [] (.done { status := SERVER_MORE_RESULTS_EXISTS }),
        .set [column] (0, 0) [[1, 49]] (.done { status := 0 })] with
    writes := [⟨{ list := [sampleText] }, fun _ => {}, encodeMessage (COM_QUERY :: sampleText) 0⟩] }

/-- The terminator of the first set is taken for the separator, so the response seems to end with the
    second, whose flags are in order: the first set is stored for the two. -/
theorem first_of_two_handed :
    ∃ s', ({} : Session).step true sampleTwo = some s' ∧ sampleTwo.Proper ∧
      ¬ ∀ pair ∈ handedAll (writeAll ({} : Session).conn sampleTwo.writes).1 sampleTwo.reads,
        sampleTwo.cmd = COM_QUERY :: pair.1 ∧ ∃ p, sampleTwo.parts = [p] ∧ p.Plain pair.2 := by
  have h : (({} : Session).step true sampleTwo).isSome = true := by decide +kernel
  have hne : handedAll (writeAll ({} : Session).conn sampleTwo.writes).1 sampleTwo.reads ≠ [] := by
    decide +kernel
  obtain ⟨s', hs'⟩ := Option.isSome_iff_exists.mp h
  obtain ⟨pair, pairs, hpairs⟩ := List.exists_cons_of_ne_nil hne
  refine ⟨s', hs', by decide +kernel, ?_⟩
  intro hall
  obtain ⟨-, p, hp, -⟩ := hall pair (by rw [hpairs]; exact List.mem_cons_self)
  rw [sampleTwo] at hp
  cases hp

end Session

end Barnacle.Agent
