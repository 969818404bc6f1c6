import Barnacle.Agent.Model

/-! What a read does to a connection. The server's bytes reach `observe` in pieces of any size; for
    the response tracker and the transaction flag only the messages count (`observe_spec`). `Reads`
    says what a whole `SSL_read` does with a statement that was asked about. -/

namespace Barnacle.Agent
open Barnacle.Lib Barnacle.Mysql

/-- One message, as far as the response tracker and the transaction flag go. -/
def track (st : ResponseTracker × Bool) (m : Message) : ResponseTracker × Bool :=
  let f := st.1.feed m
  (f.2, if f.1 then f.2.in_transaction else st.2)

/-- The capability words a response is ever read under. -/
def KnownCaps (caps : UInt32) : Prop := caps = baseCaps ∨ caps = baseCaps ||| CLIENT_DEPRECATE_EOF

/-- A framing that has been learned is one of the two there are. -/
def Conn.Framed (c : Conn) : Prop := c.caps_known = true → KnownCaps c.caps

theorem Conn.Framed.assumed {c : Conn} (h : c.Framed) : KnownCaps c.assumed := by
  rw [Conn.assumed]
  split_ifs with hk
  · exact h hk
  · exact .inl rfl

/-- What watching the server leaves alone. -/
structure Watched (c c' : Conn) : Prop where
  req : c'.req = c.req
  awaiting : c'.awaiting = c.awaiting
  query : c'.query = c.query
  owed : c'.owed = c.owed ∧ c'.owed_off = c.owed_off
  framed : c.Framed → c'.Framed

theorem Watched.refl (c : Conn) : Watched c c := ⟨rfl, rfl, rfl, ⟨rfl, rfl⟩, id⟩

theorem Watched.trans {a b c : Conn} (h : Watched a b) (h' : Watched b c) : Watched a c :=
  ⟨h'.req.trans h.req, h'.awaiting.trans h.awaiting, h'.query.trans h.query,
    ⟨h'.owed.1.trans h.owed.1, h'.owed.2.trans h.owed.2⟩, fun hf => h'.framed (h.framed hf)⟩

theorem inferCaps_framed {b : Bytes} {caps : UInt32} (h : Conn.inferCaps b = some caps) :
    KnownCaps caps := by
  rw [Conn.inferCaps] at h
  split at h
  · split_ifs at h
    · exact .inl (Option.some.inj h).symm
    · exact .inr (Option.some.inj h).symm
  · exact .inl (Option.some.inj h).symm
  · exact .inr (Option.some.inj h).symm
  · cases h

theorem learn_spec (c : Conn) (whole : Bytes) : Watched c (c.learn whole) ∧
    (c.learn whole).resp = c.resp ∧ (c.learn whole).in_txn = c.in_txn ∧ (c.learn whole).rd = c.rd := by
  rw [Conn.learn]
  split_ifs with hk
  · exact ⟨.refl c, rfl, rfl, rfl⟩
  · split
    · rename_i caps hcaps
      exact ⟨⟨rfl, rfl, rfl, ⟨rfl, rfl⟩, fun _ _ => inferCaps_framed hcaps⟩, rfl, rfl, rfl⟩
    · exact ⟨.refl c, rfl, rfl, rfl⟩

/-- `harvest` only learns the framing and ends the capture. -/
theorem harvest_spec (c : Conn) : Watched c c.harvest.1 ∧ c.harvest.1.resp = c.resp ∧
    c.harvest.1.in_txn = c.in_txn ∧ c.harvest.1.rd = c.rd := by
  have hl := learn_spec { c with capturing := false, captured := [] } c.captured
  rw [Conn.harvest]
  generalize Conn.learn { c with capturing := false, captured := [] } c.captured = d at hl
  obtain ⟨hw, hresp, htxn, hrd⟩ := hl
  have hwd : Watched c d := ⟨hw.req, hw.awaiting, hw.query, hw.owed, hw.framed⟩
  split_ifs
  · exact ⟨hwd, hresp, htxn, hrd⟩
  · split
    · exact ⟨hwd, hresp, htxn, hrd⟩
    · exact ⟨⟨hwd.req, hwd.awaiting, hwd.query, hwd.owed, hwd.framed⟩, hresp, htxn, hrd⟩

/-- One message of a response. -/
theorem hear_spec (c : Conn) (m : Message) : Watched c (c.hear m).1 ∧ (c.hear m).1.rd = c.rd ∧
    ((c.hear m).1.resp, (c.hear m).1.in_txn) = track (c.resp, c.in_txn) m := by
  rw [Conn.hear, track]
  dsimp only
  rcases c.resp.feed m with ⟨done, resp⟩
  rcases done with _ | _
  · exact ⟨⟨rfl, rfl, rfl, ⟨rfl, rfl⟩, id⟩, rfl, rfl⟩
  · dsimp only
    simp only [Bool.not_true, Bool.false_eq_true, if_false, if_true]
    split_ifs
    · exact ⟨⟨rfl, rfl, rfl, ⟨rfl, rfl⟩, id⟩, rfl, rfl⟩
    · obtain ⟨hw, hresp, htxn, hrd⟩ := harvest_spec { c with resp := resp, in_txn := resp.in_transaction }
      exact ⟨⟨hw.req, hw.awaiting, hw.query, hw.owed, hw.framed⟩, hrd, by rw [hresp, htxn]⟩

/-- What the tracker, the transaction flag and the reader become when the messages of `v` are heard. -/
theorem observeLoop_spec (fuel : Nat) : ∀ (c : Conn), c.rd.view.length < fuel →
    Watched c (c.observeLoop fuel).1 ∧
      (((c.observeLoop fuel).1.resp, (c.observeLoop fuel).1.in_txn), (c.observeLoop fuel).1.rd.view) =
        ((((packets.split c.rd.view).1.map Prod.fst).foldl track (c.resp, c.in_txn)),
          (packets.split c.rd.view).2) := by
  induction fuel with
  | zero =>
    intro c h
    exact absurd h (Nat.not_lt_zero _)
  | succ fuel ih =>
    intro c hf
    rcases ht : takeMessage c.rd.view with _ | ⟨m, rest⟩
    · rw [Conn.observeLoop, next_of_view_none ht, Framing.split_none ht]
      exact ⟨.refl c, rfl⟩
    · obtain ⟨rd, hn, hv⟩ := next_of_view ht
      have hlt := Framing.take_length_lt (F := packets) ht
      obtain ⟨w, -, hw⟩ := packets.takes ht
      rw [hw] at ht
      obtain ⟨hwatch, hrd, htrack⟩ := hear_spec { c with rd := rd } m
      obtain ⟨ihw, ih⟩ := ih (Conn.hear { c with rd := rd } m).1 (by rw [hrd, hv]; omega)
      rw [Conn.observeLoop, hn, hw, Framing.split_some (F := packets) ht]
      dsimp only
      refine ⟨Watched.trans ⟨hwatch.req, hwatch.awaiting, hwatch.query, hwatch.owed, hwatch.framed⟩
        ihw, ?_⟩
      rw [ih, htrack, hrd, hv]
      rfl

/-- The bytes of a response reach the tracker as the messages they complete. -/
theorem observe_spec (c : Conn) (chunk : Bytes) : Watched c (c.observe chunk).1 ∧
    (((c.observe chunk).1.resp, (c.observe chunk).1.in_txn), (c.observe chunk).1.rd.view) =
      packets.feeds track ((c.resp, c.in_txn), c.rd.view) chunk := by
  obtain ⟨cap, hcap⟩ : ∃ x, x = if c.capturing then c.captured ++ chunk else c.captured := ⟨_, rfl⟩
  have h := observeLoop_spec ((c.rd.append chunk).buffered + 1)
    { c with rd := c.rd.append chunk, captured := cap }
    (by rw [MessageReader.length_view]; exact Nat.lt_succ_self _)
  rw [Conn.observe, ← hcap]
  obtain ⟨hw, ht⟩ := h
  refine ⟨⟨hw.req, hw.awaiting, hw.query, hw.owed, hw.framed⟩, ht.trans ?_⟩
  rw [Framing.feeds, MessageReader.view_append]

/-! ### A whole read -/

/-- Nothing changes that a write or the server's bytes go by. -/
structure Kept (c c' : Conn) : Prop where
  req : c'.req = c.req
  query : c'.query = c.query
  tracked : (c'.resp, c'.in_txn) = (c.resp, c.in_txn)
  framed : c.Framed → c'.Framed

theorem drainLocked_spec (c : Conn) (cap : Nat) : Kept c (c.drainLocked cap).2 ∧
    (c.drainLocked cap).2.awaiting = c.awaiting ∧ (c.drainLocked cap).2.rd = c.rd := by
  rw [Conn.drainLocked]
  split_ifs
  · exact ⟨⟨rfl, rfl, rfl, id⟩, rfl, rfl⟩
  · dsimp only
    split_ifs
    · exact ⟨⟨rfl, rfl, rfl, id⟩, rfl, rfl⟩
    · exact ⟨⟨rfl, rfl, rfl, id⟩, rfl, rfl⟩

/-- There is always something to return of a response just owed. -/
theorem drainLocked_ne_nil {c : Conn} {cap : Nat} (howed : c.owed ≠ []) (h0 : c.owed_off = 0)
    (hcap : 0 < cap) : (c.drainLocked cap).1 ≠ [] := by
  have hpos := List.length_pos_of_ne_nil howed
  rw [Conn.drainLocked, if_neg (by omega), h0, List.drop_zero]
  intro h
  have := congrArg List.length h
  rw [List.length_take, List.length_nil] at this
  omega

theorem encodeResultSet_ne_nil (rs : ResultSet) (caps : UInt32) (s : UInt8) :
    encodeResultSet rs caps s ≠ [] := by
  rw [encodeResultSet_eq, responsePayloads]
  simp only [List.cons_append, framed]
  intro h
  have := encodeMessage_length_pos (putLenEnc rs.cols.length) s
  rw [(List.append_eq_nil_iff.mp h).1] at this
  exact Nat.lt_irrefl _ this

/-- A buffer of fewer than 2^31 bytes is sent whole. -/
theorem resend_of_lt {c : Conn} (h : c.query.length < 2 ^ 31) : c.resend = c.query := by
  have hint : intOf c.query.length = c.query.length := Int.bmod_eq_of_le (by omega) (by omega)
  rw [Conn.resend, hint, Int.toNat_natCast, List.take_length]

/-- What `settle` does with a statement that was asked about: it is answered and something of the
    answer is returned at once, or its bytes are sent and the server's response is awaited. -/
theorem settle_spec (c : Conn) {cap : Nat} (hcap : 0 < cap) (reply : Option UInt8)
    (payload : Option Bytes) (ha : c.awaiting = true) :
    let t := c.settle cap reply payload
    Kept c t.conn ∧ t.conn.awaiting = false ∧ t.heard = [] ∧
      if (c.answer reply payload).isSome then t.resent = [] ∧ t.got ≠ [] ∧ t.conn.rd = c.rd
      else t.resent = c.resend ∧ t.got = [] ∧ (t.conn.rd = c.rd ∨ t.conn.rd = c.rd.reset) := by
  intro t
  have ht : t = c.settle cap reply payload := rfl
  clear_value t
  rw [Conn.settle, ha] at ht
  have hans : Conn.answer { c with awaiting := false } reply payload = c.answer reply payload := rfl
  simp only [Bool.not_true, Bool.false_eq_true, if_false, hans] at ht
  clear hans
  rcases hc : c.answer reply payload with _ | rs
  · simp only [hc] at ht
    split_ifs at ht with hq
    · subst ht
      exact ⟨⟨rfl, rfl, rfl, id⟩, rfl, rfl, by simp [Conn.resend, hq]⟩
    · subst ht
      exact ⟨⟨rfl, rfl, rfl, id⟩, rfl, rfl, by simp [Conn.resend]⟩
  · simp only [hc] at ht
    obtain ⟨d, hd⟩ : ∃ d : Conn, d = { c with
      awaiting := false, owed := encodeResultSet rs c.caps (c.last_seq + 1), owed_off := 0,
      pending := [] } := ⟨_, rfl⟩
    have hne : (d.drainLocked cap).1 ≠ [] := by
      refine drainLocked_ne_nil ?_ (by rw [hd]) hcap
      rw [hd]; exact encodeResultSet_ne_nil _ _ _
    have hkeep : Kept c d := by subst hd; exact ⟨rfl, rfl, rfl, id⟩
    have hd' : d.awaiting = false ∧ d.rd = c.rd := by subst hd; exact ⟨rfl, rfl⟩
    rw [← hd] at ht
    obtain ⟨hk, haw, hrd⟩ := drainLocked_spec d cap
    subst ht
    refine ⟨⟨hk.req.trans hkeep.req, hk.query.trans hkeep.query, hk.tracked.trans hkeep.tracked,
      fun h => hk.framed (hkeep.framed h)⟩, haw.trans hd'.1, rfl, ?_⟩
    simp only [Option.isSome_some, if_true]
    exact ⟨trivial, hne, hrd.trans hd'.2⟩

/-- The tracker and the flag after the server's bytes `heard`, and what is left of the last message. -/
def Conn.Heard (c c' : Conn) (heard : Bytes) : Prop :=
  ((c'.resp, c'.in_txn), c'.rd.view) = packets.feeds track ((c.resp, c.in_txn), c.rd.view) heard

theorem Conn.Heard.nil {c c' : Conn} (hn : takeMessage c.rd.view = none)
    (ht : (c'.resp, c'.in_txn) = (c.resp, c.in_txn)) (hr : c'.rd = c.rd) : c.Heard c' [] := by
  rw [Conn.Heard, Framing.feeds, List.append_nil, Framing.split_none hn, ht, hr]
  rfl

theorem readOn_spec (c : Conn) (r : Conn.Read) : (c.readOn r).resent = [] ∧
    (c.readOn r).conn.req = c.req ∧ (c.readOn r).conn.query = c.query ∧
    (c.readOn r).conn.awaiting = c.awaiting ∧ (c.Framed → (c.readOn r).conn.Framed) ∧
    (c.readOn r).heard.length ≤ r.cap ∧
    (takeMessage c.rd.view = none → c.Heard (c.readOn r).conn (c.readOn r).heard) := by
  have hd : ∃ d, (if r.cap > 0 then c.drainLocked r.cap else ([], c)) = d ∧ Kept c d.2 ∧
      d.2.awaiting = c.awaiting ∧ d.2.rd = c.rd := by
    refine ⟨_, rfl, ?_⟩
    split_ifs
    · exact drainLocked_spec c r.cap
    · exact ⟨⟨rfl, rfl, rfl, id⟩, rfl, rfl⟩
  obtain ⟨d, hd, hk, haw, hrd⟩ := hd
  rw [Conn.readOn, hd]
  dsimp only
  split_ifs with hgot hchunk
  · exact ⟨rfl, hk.req, hk.query, haw, hk.framed, Nat.zero_le _, fun hn => .nil hn hk.tracked hrd⟩
  · exact ⟨rfl, hk.req, hk.query, haw, hk.framed, Nat.zero_le _, fun hn => .nil hn hk.tracked hrd⟩
  · obtain ⟨hw, ho⟩ := observe_spec d.2 r.chunk
    refine ⟨rfl, hw.req.trans hk.req, hw.query.trans hk.query, hw.awaiting.trans haw,
      fun h => hw.framed (hk.framed h), r.fits, fun _ => ?_⟩
    rw [hk.tracked, hrd] at ho
    exact ho

/-- What `rep_SSL_read` can do. -/
structure Reads (c : Conn) (r : Conn.Read) (t : Conn.Taken) : Prop where
  req : t.conn.req = c.req
  query : t.conn.query = c.query
  framed : c.Framed → t.conn.Framed
  idle : c.awaiting = false ∨ r.cap = 0 → t.resent = [] ∧ t.conn.awaiting = c.awaiting
  settled : c.awaiting = true → 0 < r.cap →
    t.conn.awaiting = false ∧ t.resent = if c.answers r then [] else c.resend
  fits : t.heard.length ≤ r.cap
  heard : takeMessage c.rd.view = none → c.awaiting = false ∨ c.rd.view = [] → c.Heard t.conn t.heard

theorem rep_SSL_read_spec (c : Conn) (r : Conn.Read) : Reads c r (c.rep_SSL_read r) := by
  by_cases hidle : c.awaiting = false ∨ r.cap = 0
  · -- nothing to settle
    have hs : (if r.cap > 0 then c.settle r.cap r.reply r.payload else { conn := c }) = { conn := c } := by
      rcases hidle with h | h
      · rw [Conn.settle, h]; simp
      · rw [h]; rfl
    obtain ⟨hres, hreq, hquery, haw, hfr, hfit, hh⟩ := readOn_spec c r
    rw [Conn.rep_SSL_read, hs]
    refine ⟨hreq, hquery, hfr, fun _ => ⟨rfl, haw⟩, ?_, hfit, fun hn _ => hh hn⟩
    intro ha hcap
    rcases hidle with h | h
    · rw [ha] at h; cases h
    · omega
  · rw [not_or, Bool.not_eq_false] at hidle
    obtain ⟨ha, hcap⟩ := hidle
    have hcap : 0 < r.cap := Nat.pos_of_ne_zero hcap
    obtain ⟨hk, haw, hheard, hcase⟩ := settle_spec c hcap r.reply r.payload ha
    have hans : c.answers r = (c.answer r.reply r.payload).isSome := by
      rw [Conn.answers, ha, decide_eq_true hcap]; rfl
    rw [Conn.rep_SSL_read, if_pos hcap]
    generalize c.settle r.cap r.reply r.payload = s at hk haw hheard hcase
    split_ifs at hcase with hsome
    · -- answered: something is returned before the server is asked
      obtain ⟨hres, hgot, hrd⟩ := hcase
      rw [if_pos hgot]
      refine ⟨hk.req, hk.query, hk.framed, ?_, fun _ _ => ⟨haw, by rw [hans, hsome, hres]; rfl⟩,
        by rw [hheard]; exact Nat.zero_le _, ?_⟩
      · rintro (h | h)
        · rw [ha] at h; cases h
        · omega
      · intro hn _
        rw [hheard]
        exact .nil hn hk.tracked hrd
    · obtain ⟨hres, hgot, hrd⟩ := hcase
      obtain ⟨-, hreq, hquery, haw', hfr, hfit, hh⟩ := readOn_spec s.conn r
      rw [if_neg (not_not_intro hgot)]
      refine ⟨hreq.trans hk.req, hquery.trans hk.query, fun h => hfr (hk.framed h), ?_,
        fun _ _ => ⟨haw'.trans haw, by rw [hans, if_neg hsome]; exact hres⟩, hfit, ?_⟩
      · rintro (h | h)
        · rw [ha] at h; cases h
        · omega
      · intro hn hv
        have hview : s.conn.rd.view = c.rd.view := by
          rcases hrd with h | h
          · rw [h]
          · rcases hv with hv | hv
            · rw [ha] at hv; cases hv
            · rw [h, hv]; rfl
        have := hh (by rw [hview]; exact hn)
        rwa [Conn.Heard, hk.tracked, hview] at this

end Barnacle.Agent
