import Barnacle.Agent.Model

/-! What a write does to a connection. `Considered` says once what the loop body can do with a
    statement, and `Handles` what a whole `handleWrite` can do: where the request tracker stands in
    the application's stream afterwards, which statement was asked about if the write was suppressed,
    and what stays as it was. -/

namespace Barnacle.Agent
open Barnacle.Lib Barnacle.Mysql

/-! ### One statement -/

/-- What `consider` can do. -/
structure Considered (c : Conn) (sql buf : Bytes) (a : Conn.Act) (c' : Conn) : Prop where
  req : c'.req = c.req
  resp : c'.resp = ResponseTracker.begin c.assumed
  in_txn : c'.in_txn = c.in_txn
  caps : c'.caps = c.caps ∧ c'.caps_known = c.caps_known
  rd : c'.rd = c.rd ∨ c'.rd = c.rd.reset
  acted : a ≠ .pass → c.in_txn = false
  asked : a = .ask → c'.awaiting = true ∧ c'.query = buf ∧ c'.pending = sql
  passed : a ≠ .ask → c'.awaiting = c.awaiting ∧ c'.query = c.query

theorem consider_spec (sw : Switches) (look : Look) (buf : Bytes) (c : Conn) (sql : Bytes) :
    Considered c sql buf (c.consider sw look buf sql).1 (c.consider sw look buf sql).2 := by
  rw [Conn.consider]
  dsimp only
  split_ifs with hon hlist htxn hpayload hpipe hpost
  · exact ⟨rfl, rfl, rfl, ⟨rfl, rfl⟩, .inl rfl, by simp, by simp, by simp⟩
  · exact ⟨rfl, rfl, rfl, ⟨rfl, rfl⟩, .inl rfl, by simp, by simp, by simp⟩
  · exact ⟨rfl, rfl, rfl, ⟨rfl, rfl⟩, .inr rfl, fun _ => by simpa using htxn, by simp, by simp⟩
  · exact ⟨rfl, rfl, rfl, ⟨rfl, rfl⟩, .inl rfl, by simp, by simp, by simp⟩
  · exact ⟨rfl, rfl, rfl, ⟨rfl, rfl⟩, .inl rfl, by simp, by simp, by simp⟩
  · exact ⟨rfl, rfl, rfl, ⟨rfl, rfl⟩, .inl rfl, fun _ => by simpa using htxn, by simp, by simp⟩
  · exact ⟨rfl, rfl, rfl, ⟨rfl, rfl⟩, .inl rfl, by simp, by simp, by simp⟩

/-! ### Statements of a stream -/

/-- `sql` is the text of the packet that ends where `v` begins in the stream `s`. -/
def EndsAt (s v sql : Bytes) : Prop :=
  ∃ ms m w, packets.split s = (ms ++ (m, w) :: (packets.split v).1, (packets.split v).2) ∧
    extractQuery m.payload baseCaps = some sql

theorem EndsAt.at {s v sql : Bytes} (h : EndsAt s v sql) : packets.At s v := by
  obtain ⟨ms, m, w, hs, -⟩ := h
  exact ⟨ms ++ [(m, w)], by rw [hs]; simp⟩

/-- The next statement of a stream, and where the tracker stands after it. -/
theorem next_at {s : Bytes} {t : RequestTracker} (h : packets.At s t.reader.view)
    (hc : t.caps = baseCaps) : packets.At s t.next.2.reader.view ∧ t.next.2.caps = baseCaps ∧
      ∀ sql, t.next.1 = some sql → EndsAt s t.next.2.reader.view sql := by
  obtain ⟨hstop, hcaps⟩ := t.next_spec
  obtain ⟨ms, hms⟩ := h
  rw [hc] at hstop hcaps
  rcases hn : t.next.1 with _ | q
  · rw [hn, RequestTracker.Stops] at hstop
    refine ⟨⟨ms ++ (packets.split t.reader.view).1, ?_⟩, hcaps, by simp⟩
    rw [hstop.1, Framing.split_none (Framing.take_split_rest _), hms, List.append_nil]
  · rw [hn, RequestTracker.Stops] at hstop
    obtain ⟨ms', m, w, hs, -, hq⟩ := hstop
    have hend : EndsAt s t.next.2.reader.view q := ⟨ms ++ ms', m, w, by rw [hms, hs]; simp, hq⟩
    refine ⟨hend.at, hcaps, ?_⟩
    rintro sql hsql
    rw [Option.some.injEq] at hsql
    exact hsql ▸ hend

/-! ### A whole write -/

/-- What `handleWrite` can do, `s` being the application's stream up to and with this write. -/
structure Handles (s : Bytes) (c : Conn) (buf : Bytes) (h : Conn.Handled) : Prop where
  caps : h.conn.req.caps = baseCaps
  at_ : packets.At s h.conn.req.reader.view
  in_txn : h.conn.in_txn = c.in_txn
  known : h.conn.caps = c.caps ∧ h.conn.caps_known = c.caps_known
  acted : ∀ a ∈ h.acts, a.1 ≠ .pass → c.in_txn = false
  passed : h.suppress = false → h.conn.awaiting = c.awaiting ∧ h.conn.query = c.query
  asked : h.suppress = true → h.conn.awaiting = true ∧ h.conn.query = buf ∧
    EndsAt s h.conn.req.reader.view h.conn.pending

theorem handleLoop_spec {s : Bytes} (sw : Switches) (looks : Nat → Look) (buf : Bytes) (fuel : Nat) :
    ∀ (i : Nat) (c : Conn) (sql : Bytes), c.req.caps = baseCaps → EndsAt s c.req.reader.view sql →
      Handles s c buf (c.handleLoop sw looks buf fuel i sql) := by
  induction fuel with
  | zero =>
    intro i c sql hc he
    exact ⟨hc, he.at, rfl, ⟨rfl, rfl⟩, by simp [Conn.handleLoop], fun _ => ⟨rfl, rfl⟩,
      by simp [Conn.handleLoop]⟩
  | succ fuel ih =>
    intro i c sql hc he
    have hcon := consider_spec sw (looks i) buf c sql
    rw [Conn.handleLoop]
    generalize c.consider sw (looks i) buf sql = r at hcon
    obtain ⟨a, c'⟩ := r
    dsimp only at hcon ⊢
    by_cases ha : a = .ask
    · rw [if_pos ha]
      obtain ⟨hw, hq, hp⟩ := hcon.asked ha
      have he' : EndsAt s c'.req.reader.view c'.pending := by rw [hcon.req, hp]; exact he
      refine ⟨by rw [hcon.req]; exact hc, he'.at, hcon.in_txn, hcon.caps, ?_, by simp,
        fun _ => ⟨hw, hq, he'⟩⟩
      intro b hb hne
      exact hcon.acted (by rw [ha]; simp)
    · rw [if_neg ha]
      obtain ⟨hat, hcaps, hsql⟩ := next_at (t := c'.req) (by rw [hcon.req]; exact he.at)
        (by rw [hcon.req]; exact hc)
      generalize c'.req.next = n at hat hcaps hsql
      obtain ⟨q, t⟩ := n
      dsimp only at hat hcaps hsql ⊢
      rcases q with _ | sql'
      · refine ⟨hcaps, hat, hcon.in_txn, hcon.caps, ?_, fun _ => hcon.passed ha, by simp⟩
        simp only [List.mem_singleton, forall_eq]
        exact hcon.acted
      · have ih := ih (i + 1) { c' with req := t } sql' hcaps (hsql sql' rfl)
        refine ⟨ih.caps, ih.at_, ih.in_txn.trans hcon.in_txn,
          ⟨ih.known.1.trans hcon.caps.1, ih.known.2.trans hcon.caps.2⟩, ?_, ?_, ih.asked⟩
        · rintro b (_ | ⟨_, hb⟩) hne
          · exact hcon.acted hne
          · rw [← hcon.in_txn]; exact ih.acted b hb hne
        · intro hs
          obtain ⟨hw, hq⟩ := ih.passed hs
          obtain ⟨hw', hq'⟩ := hcon.passed ha
          exact ⟨hw.trans hw', hq.trans hq'⟩

/-- Feeding a write moves the tracker along the stream, and the loop goes on from there. -/
theorem handleWrite_spec {s : Bytes} {c : Conn} (sw : Switches) (looks : Nat → Look) (buf : Bytes)
    (hc : c.req.caps = baseCaps) (hs : packets.At s c.req.reader.view) :
    Handles (s ++ buf) c buf (c.handleWrite sw looks buf) := by
  have hfed : packets.At (s ++ buf) (c.req.reader.append buf).view := by
    rw [MessageReader.view_append]; exact hs.append buf
  obtain ⟨hat, hcaps, hsql⟩ := next_at (t := { c.req with reader := c.req.reader.append buf }) hfed hc
  rw [Conn.handleWrite, RequestTracker.feed]
  generalize RequestTracker.next { c.req with reader := c.req.reader.append buf } = n at hat hcaps hsql
  obtain ⟨q, t⟩ := n
  dsimp only at hat hcaps hsql ⊢
  rcases q with _ | sql
  · exact ⟨hcaps, hat, rfl, ⟨rfl, rfl⟩, by simp, fun _ => ⟨rfl, rfl⟩, by simp⟩
  · have h := handleLoop_spec (s := s ++ buf) sw looks buf (t.reader.buffered + 1) 0
      { c with req := t } sql hcaps (hsql sql rfl)
    exact ⟨h.caps, h.at_, h.in_txn, h.known, h.acted, h.passed, h.asked⟩

/-! ### A command cut into writes -/

/-- A write that completes no packet. -/
theorem handleWrite_incomplete {c : Conn} {buf : Bytes} (sw : Switches) (looks : Nat → Look)
    (h : takeMessage (c.req.reader.view ++ buf) = none) :
    c.handleWrite sw looks buf = ⟨{ c with req := { c.req with reader := c.req.reader.append buf } }, false, []⟩ := by
  rw [Conn.handleWrite, RequestTracker.feed, RequestTracker.next_of_none]
  rw [MessageReader.view_append]; exact h

/-- What the write that completes a command leaves: a query is considered, anything else only
    parsed. -/
structure Completes (c : Conn) (cmd : Bytes) (h : Conn.Handled) : Prop where
  caps : h.conn.req.caps = c.req.caps
  view : h.conn.req.reader.view = []
  in_txn : h.conn.in_txn = c.in_txn
  known : h.conn.caps = c.caps ∧ h.conn.caps_known = c.caps_known
  rd : h.conn.rd = c.rd ∨ h.conn.rd = c.rd.reset
  acted : ∀ a ∈ h.acts, a.1 ≠ .pass → c.in_txn = false
  awaits : h.conn.awaiting = true → c.awaiting = true ∨ c.in_txn = false
  query : (extractQuery cmd c.req.caps).isSome = true → h.conn.resp = ResponseTracker.begin c.assumed
  other : extractQuery cmd c.req.caps = none → h.conn.resp = c.resp

theorem handleWrite_whole {c : Conn} {buf : Bytes} {m : Message} (sw : Switches) (looks : Nat → Look)
    (h : takeMessage (c.req.reader.view ++ buf) = some (m, [])) :
    Completes c m.payload (c.handleWrite sw looks buf) := by
  obtain ⟨t, hv, hc, hn⟩ := RequestTracker.next_of_one
    (t := { c.req with reader := c.req.reader.append buf }) (m := m)
    (by rw [MessageReader.view_append]; exact h)
  rw [Conn.handleWrite, RequestTracker.feed, hn]
  dsimp only at hc ⊢
  rcases hq : extractQuery m.payload c.req.caps with _ | sql
  · exact ⟨hc, hv, rfl, ⟨rfl, rfl⟩, .inl rfl, by simp, .inl, by simp [hq], fun _ => rfl⟩
  · have hcon := consider_spec sw (looks 0) buf { c with req := t } sql
    dsimp only
    rw [Conn.handleLoop]
    generalize Conn.consider sw (looks 0) buf { c with req := t } sql = r at hcon
    obtain ⟨a, c'⟩ := r
    have hnext : c'.req.next = (none, t) := by
      rw [hcon.req]; exact RequestTracker.next_of_none (by rw [hv]; rfl)
    dsimp only at hcon ⊢
    rw [hnext]
    have hwait : c'.awaiting = true → c.awaiting = true ∨ c.in_txn = false := fun ha => by
      by_cases hask : a = .ask
      · exact .inr (hcon.acted (by rw [hask]; simp))
      · exact .inl ((hcon.passed hask).1 ▸ ha)
    split_ifs with ha
    · refine ⟨by rw [hcon.req, hc], by rw [hcon.req, hv], hcon.in_txn, hcon.caps, hcon.rd, ?_, hwait,
        fun _ => hcon.resp, by simp [hq]⟩
      intro b _ _
      exact hcon.acted (by rw [ha]; simp)
    · refine ⟨hc, hv, hcon.in_txn, hcon.caps, hcon.rd, ?_, hwait, fun _ => hcon.resp, by simp [hq]⟩
      simp only [List.mem_singleton, forall_eq]
      exact hcon.acted

end Barnacle.Agent
