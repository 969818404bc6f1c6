import Barnacle.Agent.Handed

/-! What the application reads of the response to one command. Either it is what the server sent, byte
    for byte, or the statement was answered from the cache, and then it is the whole of a result set
    found in the arena, framed for this connection and numbered behind the command. -/

namespace Barnacle.Agent
open Barnacle.Lib Barnacle.Mysql

theorem readAll_readsOf (rs : List Conn.Read) : ∀ c : Conn,
    (readAll c rs).1 = (readsOf c rs).conn ∧ (readAll c rs).2.1 = (readsOf c rs).heard := by
  induction rs with
  | nil => exact fun _ => ⟨rfl, rfl⟩
  | cons r rs ih =>
    intro c
    obtain ⟨hconn, hheard⟩ := ih (c.rep_SSL_read r).conn
    exact ⟨hconn, congrArg (_ ++ ·) hheard⟩

variable {c : Conn}

/-- A read without room changes nothing. -/
theorem read_no_room {r : Conn.Read} (h : r.cap = 0) : c.rep_SSL_read r = { conn := c } := by
  have hchunk : r.chunk = [] := List.eq_nil_of_length_eq_zero (by have := r.fits; omega)
  rw [Conn.rep_SSL_read, h]
  simp [Conn.readOn, h, hchunk]

/-! ### From the cache -/

/-- A read that hears nothing returns some of what is owed. -/
theorem read_drains {r : Conn.Read} (ha : c.awaiting = false) (hh : (c.rep_SSL_read r).heard = []) :
    (c.rep_SSL_read r).got ++ (c.rep_SSL_read r).conn.due = c.due := by
  have hd : (if r.cap > 0 then c.drainLocked r.cap else ([], c)).1 ++
      (if r.cap > 0 then c.drainLocked r.cap else ([], c)).2.due = c.due := by
    split_ifs
    · obtain ⟨hgot, hrest⟩ := drainLocked_due c r.cap
      rw [hgot, hrest, List.take_append_drop]
    · rfl
  rw [Conn.rep_SSL_read, settle_idle (.inl ha)] at hh ⊢
  simp only [ne_eq, not_true_eq_false, if_false, Conn.readOn] at hh ⊢
  generalize (if r.cap > 0 then c.drainLocked r.cap else ([], c)) = d at hd hh ⊢
  split_ifs at hh ⊢ with hgot hchunk
  · rw [hgot] at hd
    exact hd
  · exact absurd hh hchunk
  · exact hd

theorem readsOf_drains (rs : List Conn.Read) : ∀ {c : Conn}, c.awaiting = false → (readsOf c rs).heard = [] →
    (readsOf c rs).got ++ (readsOf c rs).conn.due = c.due := by
  induction rs with
  | nil => exact fun _ _ => rfl
  | cons r rs ih =>
    intro c ha hh
    obtain ⟨hh0, hh⟩ := List.append_eq_nil_iff.mp hh
    have haw := ((rep_SSL_read_spec c r).idle (.inl ha)).2.trans ha
    rw [readsOf]
    dsimp only
    rw [List.append_assoc, ih haw hh, read_drains ha hh0]

/-- A statement that was answered, with nothing of the server's read and nothing left over: the reads
    returned the whole of one result set. -/
theorem readsOf_answered (rs : List Conn.Read) : ∀ {c : Conn}, c.awaiting = true → (readAll c rs).2.2 = true →
    (readsOf c rs).heard = [] → (readsOf c rs).conn.due = [] →
    ∃ r ∈ rs, ∃ rset, c.Serves r rset ∧ (readsOf c rs).got = encodeResultSet rset c.caps (c.last_seq + 1) := by
  induction rs with
  | nil =>
    intro c _ hans
    cases hans
  | cons r rs ih =>
    intro c ha hans hh hdue
    rw [readAll] at hans
    obtain ⟨hh0, hh⟩ := List.append_eq_nil_iff.mp hh
    rw [readsOf] at hdue ⊢
    dsimp only at hans hdue ⊢
    rcases Nat.eq_zero_or_pos r.cap with h0 | hcap
    · have hno : c.answers r = false := by simp [Conn.answers, h0]
      rw [hno, Bool.false_or] at hans
      rw [read_no_room h0] at hans hh hdue ⊢
      obtain ⟨x, hx, rset, hserves, hgot⟩ := ih ha hans hh hdue
      exact ⟨x, List.mem_cons_of_mem _ hx, rset, hserves, hgot⟩
    · -- this read settles the statement, so it is the one that answers
      have haw := ((rep_SSL_read_spec c r).settled ha hcap).1
      rw [readAll_idle rs _ haw, Bool.or_false, Conn.answers, ha, decide_eq_true hcap, Bool.and_self, Bool.true_and]
        at hans
      obtain ⟨rset, hrset⟩ := Option.isSome_iff_exists.mp hans
      obtain ⟨hgot, -, -, -, hleft⟩ := read_answers ha hcap hrset
      have hrest := readsOf_drains rs haw hh
      rw [hdue, List.append_nil, hleft] at hrest
      refine ⟨r, List.mem_cons_self, rset, answer_eq_some.mp hrset, ?_⟩
      rw [hgot, hrest, List.take_append_drop]

/-! ### From the server -/

/-- A statement that was asked about and then sent: every byte read is the server's. -/
theorem readsOf_sent (rs : List Conn.Read) : ∀ {c : Conn}, c.awaiting = true → c.due = [] → c.query ≠ [] →
    (readAll c rs).2.2 = false → (readsOf c rs).got = (readsOf c rs).heard := by
  induction rs with
  | nil => exact fun _ _ _ _ => rfl
  | cons r rs ih =>
    intro c ha hdue hq hans
    rw [readAll] at hans
    obtain ⟨hans0, hans⟩ := Bool.or_eq_false_iff.mp hans
    rcases Nat.eq_zero_or_pos r.cap with h0 | hcap
    · rw [readsOf, read_no_room h0] at *
      exact ih ha hdue hq hans
    · have hnone : c.answer r.reply r.payload = none := by
        rw [Conn.answers, ha, decide_eq_true hcap] at hans0
        simpa using hans0
      exact (readsOf_resends rs ha hcap hdue hq hnone).1

/-! ### One exchange -/

/-- The response to a query is numbered from where its last packet left off. -/
theorem writeAll_last_seq {m : Message} (ws : List Write) {c : Conn} (hc : c.req.caps = baseCaps)
    (hnone : takeMessage c.req.reader.view = none)
    (h : takeMessage (c.req.reader.view ++ (ws.map Write.buf).flatten) = some (m, [])) (hq : isQuery m.payload) :
    (writeAll c ws).1.last_seq = m.last_seq := by
  obtain ⟨w, -, -, req, hreq, htake, hall⟩ := writeAll_last ws hc hnone h
  have hne : m.payload ≠ [] := by
    intro h0
    rw [h0] at hq
    cases hq
  obtain ⟨t, hv, -, hseq, hl⟩ := RequestTracker.nextLoop_of_view
    (t := { req with reader := req.reader.append w.buf }) (req.reader.append w.buf).buffered
    (by rw [MessageReader.view_append]; exact htake)
  have hx : extractQuery m.payload req.caps = some (m.payload.drop 1) := by
    rw [hreq, extractQuery_base, if_pos hq]
  rw [hx] at hl
  have hcon := consider_spec w.sw (w.looks 0) w.buf { c with req := t } (m.payload.drop 1)
  have hconseq : (Conn.consider w.sw (w.looks 0) w.buf { c with req := t } (m.payload.drop 1)).2.last_seq =
      t.last_seq := by
    rw [Conn.consider]
    dsimp only
    split_ifs <;> rfl
  rw [hall, Conn.handleWrite, RequestTracker.feed, RequestTracker.next]
  dsimp only
  rw [hl]
  dsimp only
  rw [Conn.handleLoop]
  generalize Conn.consider w.sw (w.looks 0) w.buf { c with req := t } (m.payload.drop 1) = r at *
  have hnext : r.2.req.next = (none, t) := by
    rw [hcon.req]
    exact RequestTracker.next_of_none (by rw [hv]; rfl)
  dsimp only
  rw [hnext]
  split_ifs
  · exact hconseq.trans (hseq hne)
  · exact hconseq.trans (hseq hne)

/-- What the application reads: what the server sent, or one result set from the arena and nothing of
    the server's. -/
theorem Session.Ready.reads {dep : Bool} {s : Session} {x : Exchange} {m : Message} (h : s.Ready dep)
    (hm : takeMessage (x.writes.map Write.buf).flatten = some (m, [])) (hcmd : m.payload = x.cmd)
    (hans : x.Answers dep (readAll (writeAll s.conn x.writes).1 x.reads)) :
    let o := readsOf (writeAll s.conn x.writes).1 x.reads
    o.got = o.heard ∨ isQuery x.cmd ∧ x.parts = [] ∧ o.heard = [] ∧
      ∃ r ∈ x.reads, ∃ canon rset, r.payload = some canon ∧
        parseResultSet canon BNCL_CANONICAL_CAPS = some rset ∧
          o.got = encodeResultSet rset (capsOf dep) (m.last_seq + 1) := by
  have hnone : takeMessage s.conn.req.reader.view = none := by rw [h.view]; rfl
  have hwhole : takeMessage (s.conn.req.reader.view ++ (x.writes.map Write.buf).flatten) = some (m, []) := by
    rw [h.view]
    exact hm
  have hcom := writeAll_spec x.writes s.conn h.caps hnone hwhole
  have hseq := writeAll_last_seq x.writes h.caps hnone hwhole
  obtain ⟨w, -, hbuf, htook, hdue⟩ := writeAll_took x.writes h.caps hnone hwhole
  rw [hcmd] at htook hseq
  obtain ⟨hconn, hheard⟩ := readAll_readsOf x.reads (writeAll s.conn x.writes).1
  generalize (writeAll s.conn x.writes).1 = c at *
  intro o
  obtain ⟨⟨hpayloads, hrest⟩, hanswered, -, howed⟩ := hans
  have hdue : c.due = [] := hdue.trans h.rests.due
  cases htook with
  | passed _ hawait => exact .inl (readsOf_rests x.reads ⟨hawait.trans h.rests.awaiting, hdue⟩).1
  | captured _ _ _ _ _ hawait => exact .inl (readsOf_rests x.reads ⟨hawait.trans h.rests.awaiting, hdue⟩).1
  | asked hq _ _ _ hawait hheld =>
    rcases hcache : (readAll c x.reads).2.2 with _ | _
    · exact .inl (readsOf_sent x.reads hawait hdue (by rw [hheld]; exact hbuf) hcache)
    · right
      have hparts : x.parts = [] := (hanswered hq).mp hcache
      rw [hparts] at hpayloads
      rw [hheard] at hpayloads hrest
      have hnothing : o.heard = [] := nil_of_payloads hpayloads hrest
      rw [hconn] at howed
      obtain ⟨r, hr, rset, ⟨-, hknown, canon, hcanon, hparse⟩, hgot⟩ :=
        readsOf_answered x.reads hawait hcache hnothing (List.drop_eq_nil_iff.mpr howed)
      have hframe : c.caps = capsOf dep := by
        rw [hcom.known.1]
        exact h.framing (hcom.known.2 ▸ hknown)
      rw [hframe, hseq hq] at hgot
      exact ⟨hq, hparts, hnothing, r, hr, canon, rset, hcanon, hparse, hgot⟩

end Barnacle.Agent
