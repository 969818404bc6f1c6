import Barnacle.Agent.Detach
import Barnacle.Agent.Settle

/-! A connection at the address of another (`connFor` in `src/uclient/agent.cpp`). `conns_s` is keyed by
    the SSL object and nothing is ever taken out of it, so a connection whose object lies where a closed
    one's did goes on from what that left.

    Much of a `Conn` is dead at any one time: `Alike` says when two of them are the same for everything
    the agent will ever decide. -/

namespace Barnacle.Agent
open Barnacle.Lib Barnacle.Mysql

/-! ### Requests -/

namespace RequestTracker

/-- The same bytes to parse, under the same capabilities. -/
structure Alike (t t' : RequestTracker) : Prop where
  view : t'.reader.view = t.reader.view
  caps : t'.caps = t.caps

theorem nextLoop_alike (fuel : Nat) : ∀ {t t' : RequestTracker}, t.Alike t' →
    (nextLoop fuel t').1 = (nextLoop fuel t).1 ∧ (nextLoop fuel t).2.Alike (nextLoop fuel t').2 ∧
      ((nextLoop fuel t).1 ≠ none → (nextLoop fuel t').2.last_seq = (nextLoop fuel t).2.last_seq) := by
  induction fuel with
  | zero => exact fun h => ⟨rfl, h, fun hc => absurd rfl hc⟩
  | succ fuel ih =>
    intro t t' h
    rcases ht : takeMessage t.reader.view with _ | ⟨m, rest⟩
    · have ht' : takeMessage t'.reader.view = none := by rw [h.view, ht]
      rw [nextLoop, nextLoop, next_of_view_none ht, next_of_view_none ht']
      exact ⟨rfl, h, fun hc => absurd rfl hc⟩
    · have ht' : takeMessage t'.reader.view = some (m, rest) := by rw [h.view, ht]
      obtain ⟨r, hn, hv⟩ := next_of_view ht
      obtain ⟨r', hn', hv'⟩ := next_of_view ht'
      have hview : r'.view = r.view := hv'.trans hv.symm
      rw [nextLoop, nextLoop, hn, hn']
      dsimp only
      cases m.payload with
      | nil => exact ih ⟨hview, h.caps⟩
      | cons cmd body =>
        dsimp only
        rw [h.caps]
        by_cases hq : cmd ≠ COM_QUERY
        · rw [if_pos hq, if_pos hq]
          exact ih ⟨hview, rfl⟩
        · rw [if_neg hq, if_neg hq]
          cases extractQuery (cmd :: body) t.caps with
          | none => exact ih ⟨hview, rfl⟩
          | some q => exact ⟨rfl, ⟨hview, rfl⟩, fun _ => rfl⟩

theorem next_alike {t t' : RequestTracker} (h : t.Alike t') :
    t'.next.1 = t.next.1 ∧ t.next.2.Alike t'.next.2 ∧ (t.next.1 ≠ none → t'.next.2.last_seq = t.next.2.last_seq) := by
  have hb : t'.reader.buffered = t.reader.buffered := by
    rw [← MessageReader.length_view, ← MessageReader.length_view, h.view]
  rw [next, next, hb]
  exact nextLoop_alike _ h

theorem feed_alike {t t' : RequestTracker} (h : t.Alike t') (data : Bytes) :
    (t'.feed data).1 = (t.feed data).1 ∧ (t.feed data).2.Alike (t'.feed data).2 ∧
      ((t.feed data).1 ≠ none → (t'.feed data).2.last_seq = (t.feed data).2.last_seq) := by
  refine next_alike ⟨?_, h.caps⟩
  dsimp only
  rw [MessageReader.view_append, MessageReader.view_append, h.view]

end RequestTracker

/-! ### Connections -/

namespace Conn

/-- What of a connection can still make a difference. What was captured counts while capturing, what was
    asked while awaiting, the framing once it is known. -/
structure Alike (c c' : Conn) : Prop where
  req : c.req.Alike c'.req
  resp : c'.resp = c.resp
  due : c'.due = c.due
  in_txn : c'.in_txn = c.in_txn
  rd : c'.rd.view = c.rd.view
  capturing : c'.capturing = c.capturing
  captured : c.capturing = true → c'.captured = c.captured ∧ c'.pending = c.pending
  known : c'.caps_known = c.caps_known
  caps : c.caps_known = true → c'.caps = c.caps
  awaiting : c'.awaiting = c.awaiting
  asked : c.awaiting = true → c'.pending = c.pending ∧ c'.query = c.query ∧ c'.last_seq = c.last_seq

namespace Alike
variable {c c' : Conn}

theorem refl (c : Conn) : c.Alike c :=
  ⟨⟨rfl, rfl⟩, rfl, rfl, rfl, rfl, rfl, fun _ => ⟨rfl, rfl⟩, rfl, fun _ => rfl, rfl, fun _ => ⟨rfl, rfl, rfl⟩⟩

theorem assumed (h : c.Alike c') : c'.assumed = c.assumed := by
  rw [Conn.assumed, Conn.assumed, h.known]
  cases hk : c.caps_known with
  | false => rfl
  | true => exact h.caps hk

/-- `consider` from where the response has been begun. -/
def considered (sw : Switches) (look : Look) (buf : Bytes) (b : Conn) (sql : Bytes) : Act × Conn :=
  if !sw.on then (.pass, b)
  else if sql ∉ sw.list then (.pass, b)
  else if b.in_txn then (.pass, b)
  else if sw.local_on && !(keyed sql && look.payload) then
    (.capture, { b with pending := sql, captured := [], rd := b.rd.reset, capturing := true })
  else if !(keyed sql && look.acquired) then (.pass, b)
  else if !look.posted then (.pass, b)
  else (.ask, { b with awaiting := true, pending := sql, query := buf })

theorem considered_alike {b b' : Conn} (h : b.Alike b') (hseq : b'.last_seq = b.last_seq) (sw : Switches)
    (look : Look) (buf sql : Bytes) :
    (considered sw look buf b' sql).1 = (considered sw look buf b sql).1 ∧
      (considered sw look buf b sql).2.Alike (considered sw look buf b' sql).2 := by
  have hpass : (.pass, b').1 = (Act.pass, b).1 ∧ b.Alike b' := ⟨rfl, h⟩
  rw [considered, considered]
  by_cases hon : (!sw.on) = true
  · rw [if_pos hon, if_pos hon]
    exact hpass
  rw [if_neg hon, if_neg hon]
  by_cases hlist : sql ∉ sw.list
  · rw [if_pos hlist, if_pos hlist]
    exact hpass
  rw [if_neg hlist, if_neg hlist]
  by_cases htxn : b.in_txn = true
  · rw [if_pos htxn, if_pos (h.in_txn.trans htxn)]
    exact hpass
  rw [if_neg htxn, if_neg (h.in_txn ▸ htxn)]
  split_ifs
  · refine ⟨rfl, ⟨h.req, h.resp, h.due, h.in_txn, rfl, rfl, fun _ => ⟨rfl, rfl⟩, h.known, h.caps, h.awaiting, ?_⟩⟩
    exact fun ha => ⟨rfl, (h.asked ha).2⟩
  · exact hpass
  · exact hpass
  · refine ⟨rfl, ⟨h.req, h.resp, h.due, h.in_txn, h.rd, h.capturing, ?_, h.known, h.caps, rfl, ?_⟩⟩
    · exact fun hc => ⟨(h.captured hc).1, rfl⟩
    · exact fun _ => ⟨rfl, rfl, hseq⟩

/-- The body of the write loop, on the statement both have just found. -/
theorem consider (h : c.Alike c') (hseq : c'.req.last_seq = c.req.last_seq) (sw : Switches) (look : Look)
    (buf sql : Bytes) :
    (Conn.consider sw look buf c' sql).1 = (Conn.consider sw look buf c sql).1 ∧
      (Conn.consider sw look buf c sql).2.Alike (Conn.consider sw look buf c' sql).2 := by
  have hbase : Alike { c with last_seq := c.req.last_seq, resp := ResponseTracker.begin c.assumed }
      { c' with last_seq := c'.req.last_seq, resp := ResponseTracker.begin c'.assumed } :=
    ⟨h.req, congrArg ResponseTracker.begin h.assumed, h.due, h.in_txn, h.rd, h.capturing, h.captured, h.known,
      h.caps, h.awaiting, fun ha => ⟨(h.asked ha).1, (h.asked ha).2.1, hseq⟩⟩
  exact considered_alike hbase hseq sw look buf sql

/-- Only the request side changes. -/
theorem setReq (h : c.Alike c') {t t' : RequestTracker} (ht : t.Alike t') :
    Alike { c with req := t } { c' with req := t' } :=
  ⟨ht, h.resp, h.due, h.in_txn, h.rd, h.capturing, h.captured, h.known, h.caps, h.awaiting, h.asked⟩

theorem handleLoop (sw : Switches) (looks : Nat → Look) (buf : Bytes) (fuel : Nat) :
    ∀ (i : Nat) {c c' : Conn} (sql : Bytes), c.Alike c' → c'.req.last_seq = c.req.last_seq →
      (Conn.handleLoop sw looks buf fuel i c' sql).suppress = (Conn.handleLoop sw looks buf fuel i c sql).suppress ∧
      (Conn.handleLoop sw looks buf fuel i c' sql).acts = (Conn.handleLoop sw looks buf fuel i c sql).acts ∧
      (Conn.handleLoop sw looks buf fuel i c sql).conn.Alike (Conn.handleLoop sw looks buf fuel i c' sql).conn := by
  induction fuel with
  | zero => exact fun i _ _ sql h _ => ⟨rfl, rfl, h⟩
  | succ fuel ih =>
    intro i c c' sql h hseq
    obtain ⟨e1, h1⟩ := h.consider hseq sw (looks i) buf sql
    rw [Conn.handleLoop, Conn.handleLoop]
    dsimp only
    rw [e1]
    split_ifs
    · exact ⟨rfl, rfl, h1⟩
    · obtain ⟨e2, h2, e3⟩ := RequestTracker.next_alike h1.req
      rw [e2]
      cases hn : (Conn.consider sw (looks i) buf c sql).2.req.next.1 with
      | none => exact ⟨rfl, rfl, h1.setReq h2⟩
      | some sql' =>
        obtain ⟨i1, i2, i3⟩ := ih (i + 1) sql' (h1.setReq h2) (e3 (by rw [hn]; simp))
        dsimp only
        exact ⟨i1, by rw [i2], i3⟩

/-- A write: held back or not, and what comes of each statement. -/
theorem handleWrite (h : c.Alike c') (sw : Switches) (looks : Nat → Look) (buf : Bytes) :
    (c'.handleWrite sw looks buf).suppress = (c.handleWrite sw looks buf).suppress ∧
      (c'.handleWrite sw looks buf).acts = (c.handleWrite sw looks buf).acts ∧
      (c.handleWrite sw looks buf).conn.Alike (c'.handleWrite sw looks buf).conn := by
  obtain ⟨e1, h1, e2⟩ := RequestTracker.feed_alike h.req buf
  rw [Conn.handleWrite, Conn.handleWrite, e1]
  cases hn : (c.req.feed buf).1 with
  | none => exact ⟨rfl, rfl, h.setReq h1⟩
  | some sql =>
    have hb : (c'.req.feed buf).2.reader.buffered = (c.req.feed buf).2.reader.buffered := by
      rw [← MessageReader.length_view, ← MessageReader.length_view, h1.view]
    dsimp only
    rw [hb]
    exact handleLoop sw looks buf _ 0 sql (h.setReq h1) (e2 (by rw [hn]; simp))

/-! ### Reads -/

theorem drainLocked (h : c.Alike c') (cap : Nat) :
    (c'.drainLocked cap).1 = (c.drainLocked cap).1 ∧ (c.drainLocked cap).2.Alike (c'.drainLocked cap).2 := by
  obtain ⟨e1, d1⟩ := drainLocked_due c cap
  obtain ⟨e2, d2⟩ := drainLocked_due c' cap
  have hframe : ∀ c : Conn, ∃ owed off, (c.drainLocked cap).2 = { c with owed := owed, owed_off := off } := by
    intro c
    rw [Conn.drainLocked]
    split_ifs
    · exact ⟨c.owed, c.owed_off, rfl⟩
    · dsimp only
      split_ifs
      · exact ⟨[], 0, rfl⟩
      · exact ⟨c.owed, _, rfl⟩
  obtain ⟨owed, off, f1⟩ := hframe c
  obtain ⟨owed', off', f2⟩ := hframe c'
  rw [e1, e2, h.due]
  refine ⟨rfl, ?_⟩
  have hdue : (c'.drainLocked cap).2.due = (c.drainLocked cap).2.due := by rw [d1, d2, h.due]
  rw [f1, f2] at hdue ⊢
  exact ⟨h.req, h.resp, hdue, h.in_txn, h.rd, h.capturing, h.captured, h.known, h.caps, h.awaiting, h.asked⟩

theorem learn (h : c.Alike c') (whole : Bytes) : (c.learn whole).Alike (c'.learn whole) := by
  rw [Conn.learn, Conn.learn, h.known]
  split_ifs
  · exact h
  · cases inferCaps whole with
    | none => exact h
    | some caps =>
      exact ⟨h.req, h.resp, h.due, h.in_txn, h.rd, h.capturing, h.captured, rfl, fun _ => rfl, h.awaiting, h.asked⟩

theorem harvest (h : c.Alike c') (hc : c.capturing = true) :
    c'.harvest.2 = c.harvest.2 ∧ c.harvest.1.Alike c'.harvest.1 := by
  have hclear : Alike { c with capturing := false, captured := [] } { c' with capturing := false, captured := [] } :=
    ⟨h.req, h.resp, h.due, h.in_txn, h.rd, rfl, fun _ => ⟨rfl, (h.captured hc).2⟩, h.known, h.caps, h.awaiting, h.asked⟩
  have hl := hclear.learn c.captured
  rw [Conn.harvest, Conn.harvest, (h.captured hc).1]
  generalize Conn.learn { c with capturing := false, captured := [] } c.captured = b at hl ⊢
  generalize Conn.learn { c' with capturing := false, captured := [] } c.captured = b' at hl ⊢
  have hcond : (b'.resp.poisoned || b'.in_txn || !b'.caps_known) = (b.resp.poisoned || b.in_txn || !b.caps_known) := by
    rw [hl.resp, hl.in_txn, hl.known]
  by_cases hp : (b.resp.poisoned || b.in_txn || !b.caps_known) = true
  · rw [if_pos hp, if_pos (hcond.trans hp)]
    exact ⟨rfl, hl⟩
  · have hk : b.caps_known = true := by
      cases hk : b.caps_known with
      | true => rfl
      | false => exact absurd (by simp [hk]) hp
    have hparse : parseResultSet c.captured b'.caps = parseResultSet c.captured b.caps := by rw [hl.caps hk]
    rw [if_neg hp, if_neg (hcond ▸ hp), hparse]
    cases parseResultSet c.captured b.caps with
    | none => exact ⟨rfl, hl⟩
    | some rs =>
      refine ⟨rfl, hl.req, hl.resp, hl.due, hl.in_txn, hl.rd, hl.capturing, ?_, hl.known, hl.caps, hl.awaiting, ?_⟩
      · exact fun hc => ⟨(hl.captured hc).1, rfl⟩
      · exact fun ha => ⟨rfl, (hl.asked ha).2⟩

theorem hear (h : c.Alike c') (m : Message) :
    (c'.hear m).2 = (c.hear m).2 ∧ (c.hear m).1.Alike (c'.hear m).1 := by
  have hfed : Alike { c with resp := (c.resp.feed m).2 } { c' with resp := (c.resp.feed m).2 } :=
    ⟨h.req, rfl, h.due, h.in_txn, h.rd, h.capturing, h.captured, h.known, h.caps, h.awaiting, h.asked⟩
  rw [Conn.hear, Conn.hear, h.resp]
  dsimp only
  by_cases hf : (!(c.resp.feed m).1) = true
  · rw [if_pos hf, if_pos hf]
    exact ⟨rfl, hfed⟩
  rw [if_neg hf, if_neg hf]
  have hset : Alike { c with resp := (c.resp.feed m).2, in_txn := (c.resp.feed m).2.in_transaction }
      { c' with resp := (c.resp.feed m).2, in_txn := (c.resp.feed m).2.in_transaction } :=
    ⟨h.req, rfl, h.due, rfl, h.rd, h.capturing, h.captured, h.known, h.caps, h.awaiting, h.asked⟩
  have hsame : (!c'.capturing) = !c.capturing := congrArg (!·) h.capturing
  by_cases hoff : (!c.capturing) = true
  · rw [if_pos hoff, if_pos (hsame.trans hoff)]
    exact ⟨rfl, hset⟩
  · have hc : c.capturing = true := by simpa using hoff
    rw [if_neg hoff, if_neg (hsame ▸ hoff)]
    obtain ⟨e, hh⟩ := hset.harvest hc
    refine ⟨?_, hh⟩
    dsimp only
    rw [e, (h.captured hc).2]

theorem observeLoop (fuel : Nat) : ∀ {c c' : Conn}, c.Alike c' →
    (Conn.observeLoop fuel c').2 = (Conn.observeLoop fuel c).2 ∧
      (Conn.observeLoop fuel c).1.Alike (Conn.observeLoop fuel c').1 := by
  induction fuel with
  | zero => exact fun h => ⟨rfl, h⟩
  | succ fuel ih =>
    intro c c' h
    rcases ht : takeMessage c.rd.view with _ | ⟨m, rest⟩
    · have ht' : takeMessage c'.rd.view = none := by rw [h.rd, ht]
      rw [Conn.observeLoop, Conn.observeLoop, next_of_view_none ht, next_of_view_none ht']
      exact ⟨rfl, h⟩
    · have ht' : takeMessage c'.rd.view = some (m, rest) := by rw [h.rd, ht]
      obtain ⟨r, hn, hv⟩ := next_of_view ht
      obtain ⟨r', hn', hv'⟩ := next_of_view ht'
      have hrest : Alike { c with rd := r } { c' with rd := r' } :=
        ⟨h.req, h.resp, h.due, h.in_txn, hv'.trans hv.symm, h.capturing, h.captured, h.known, h.caps, h.awaiting,
          h.asked⟩
      obtain ⟨e1, h1⟩ := hrest.hear m
      obtain ⟨e2, h2⟩ := ih h1
      rw [Conn.observeLoop, Conn.observeLoop, hn, hn']
      dsimp only
      rw [e1, e2]
      exact ⟨rfl, h2⟩

/-- What is watched, and what is handed to the daemon. -/
theorem observe (h : c.Alike c') (chunk : Bytes) :
    (c'.observe chunk).2 = (c.observe chunk).2 ∧ (c.observe chunk).1.Alike (c'.observe chunk).1 := by
  have hview : (c'.rd.append chunk).view = (c.rd.append chunk).view := by
    rw [MessageReader.view_append, MessageReader.view_append, h.rd]
  have hb : (c'.rd.append chunk).buffered = (c.rd.append chunk).buffered := by
    rw [← MessageReader.length_view, ← MessageReader.length_view, hview]
  rw [Conn.observe, Conn.observe]
  dsimp only
  rw [hb]
  refine observeLoop _ ⟨h.req, h.resp, h.due, h.in_txn, hview, h.capturing, ?_, h.known, h.caps, h.awaiting, h.asked⟩
  intro hc
  dsimp only at hc ⊢
  rw [h.capturing, hc, (h.captured hc).1]
  exact ⟨rfl, (h.captured hc).2⟩

theorem answer (h : c.Alike c') (reply : Option UInt8) (payload : Option Bytes) :
    c'.answer reply payload = c.answer reply payload := by
  rw [Conn.answer, Conn.answer, h.known]

/-- What is returned to the application, and what is sent after all. -/
theorem settle (h : c.Alike c') (cap : Nat) (reply : Option UInt8) (payload : Option Bytes) :
    (c'.settle cap reply payload).got = (c.settle cap reply payload).got ∧
      (c'.settle cap reply payload).resent = (c.settle cap reply payload).resent ∧
      (c.settle cap reply payload).conn.Alike (c'.settle cap reply payload).conn := by
  cases ha : c.awaiting with
  | false =>
    rw [Conn.settle, Conn.settle, if_pos (by rw [h.awaiting, ha]; rfl), if_pos (by rw [ha]; rfl)]
    exact ⟨rfl, rfl, h⟩
  | true =>
    obtain ⟨hpend, hquery, hseq⟩ := h.asked ha
    have hset : Alike { c with awaiting := false } { c' with awaiting := false } :=
      ⟨h.req, h.resp, h.due, h.in_txn, h.rd, h.capturing, h.captured, h.known, h.caps, rfl, fun _ => h.asked ha⟩
    rw [Conn.settle, Conn.settle, if_neg (by rw [h.awaiting, ha]; simp), if_neg (by rw [ha]; simp)]
    dsimp only
    rw [hset.answer reply payload]
    cases hr : Conn.answer { c with awaiting := false } reply payload with
    | some rs =>
      have hk : c.caps_known = true := by
        rw [Conn.answer] at hr
        split_ifs at hr with hk
        exact hk.2
      have hbytes : encodeResultSet rs c'.caps (c'.last_seq + 1) = encodeResultSet rs c.caps (c.last_seq + 1) := by
        rw [hseq, h.caps hk]
      have howed : Alike
          { c with awaiting := false, owed := encodeResultSet rs c.caps (c.last_seq + 1), owed_off := 0, pending := [] }
          { c' with
            awaiting := false, owed := encodeResultSet rs c'.caps (c'.last_seq + 1), owed_off := 0, pending := [] } :=
        ⟨h.req, h.resp, congrArg (List.drop 0) hbytes, h.in_txn, h.rd, h.capturing,
          fun hc => ⟨(h.captured hc).1, rfl⟩, h.known, h.caps, rfl, fun _ => ⟨rfl, hquery, hseq⟩⟩
      obtain ⟨e, hd⟩ := howed.drainLocked cap
      exact ⟨e, rfl, hd⟩
    | none =>
      by_cases hq : c.query = []
      · dsimp only
        rw [if_pos hq, if_pos (hquery.trans hq)]
        exact ⟨rfl, rfl, hset⟩
      · dsimp only
        rw [if_neg hq, if_neg (hquery ▸ hq)]
        refine ⟨rfl, ?_, h.req, h.resp, h.due, h.in_txn, rfl, rfl, fun _ => ⟨rfl, hpend⟩, h.known, h.caps, rfl,
          fun _ => h.asked ha⟩
        simp only [Conn.resend, hquery]

end Alike

/-- A connection that nothing has been seen of yet, as far as anything will tell. -/
structure AsNew (c : Conn) : Prop where
  requests : c.req.reader.view = [] ∧ c.req.caps = baseCaps
  responses : c.resp = {} ∧ c.rd.view = []
  in_txn : c.in_txn = false
  capturing : c.capturing = false
  caps_known : c.caps_known = false
  awaiting : c.awaiting = false
  due : c.due = []

theorem AsNew.alike {c : Conn} (h : c.AsNew) : c.Alike {} where
  req := ⟨h.requests.1.symm, h.requests.2.symm⟩
  resp := h.responses.1.symm
  due := h.due.symm
  in_txn := h.in_txn.symm
  rd := h.responses.2.symm
  capturing := h.capturing.symm
  captured hc := by rw [h.capturing] at hc; cases hc
  known := h.caps_known.symm
  caps hk := by rw [h.caps_known] at hk; cases hk
  awaiting := h.awaiting.symm
  asked ha := by rw [h.awaiting] at ha; cases ha

end Conn

/-! ### The connections of a process -/

namespace Process
variable {p p' : Process}

theorem lookup_filter {ssl s : Nat} (hs : s ≠ ssl) (l : List (Nat × Conn)) :
    (l.filter fun x => x.1 ≠ ssl).lookup s = l.lookup s := by
  induction l with
  | nil => rfl
  | cons x l ih =>
    by_cases hx : x.1 = ssl
    · rw [List.filter_cons_of_neg (by simpa using hx), ih, List.lookup_cons, beq_false_of_ne (hx ▸ hs)]
    · rw [List.filter_cons_of_pos (by simpa using hx), List.lookup_cons, List.lookup_cons, ih]

theorem lookup_filter_self (ssl : Nat) (l : List (Nat × Conn)) :
    (l.filter fun x => x.1 ≠ ssl).lookup ssl = none := by
  rw [List.lookup_eq_none_iff]
  intro x hx
  have hne : x.1 ≠ ssl := by simpa using (List.mem_filter.mp hx).2
  simpa using hne.symm

theorem connFor_setConn (p : Process) (ssl s : Nat) (c : Conn) :
    (p.setConn ssl c).connFor s = if s = ssl then c else p.connFor s := by
  rw [connFor, setConn, List.lookup_cons]
  by_cases hs : s = ssl
  · rw [if_pos hs, hs, beq_self_eq_true]
    rfl
  · rw [if_neg hs, beq_false_of_ne hs, lookup_filter hs]
    rfl

/-- Every address has one entry. -/
def Keyed (p : Process) : Prop := (p.conns_s.map Prod.fst).Nodup

theorem Keyed.setConn (hk : p.Keyed) (ssl : Nat) (c : Conn) : (p.setConn ssl c).Keyed := by
  rw [Keyed, Process.setConn, List.map_cons, List.nodup_cons]
  refine ⟨?_, hk.sublist (List.filter_sublist.map _)⟩
  rintro hm
  obtain ⟨x, hx, e⟩ := List.mem_map.mp hm
  exact absurd e (by simpa using (List.mem_filter.mp hx).2)

theorem lookup_of_mem {l : List (Nat × Conn)} (hk : (l.map Prod.fst).Nodup) {ssl : Nat} {c : Conn}
    (hm : (ssl, c) ∈ l) : l.lookup ssl = some c := by
  induction l with
  | nil => cases hm
  | cons x l ih =>
    rw [List.map_cons, List.nodup_cons] at hk
    rcases List.mem_cons.mp hm with rfl | hm
    · exact List.lookup_cons_self
    · have hne : ssl ≠ x.1 := by
        rintro rfl
        exact hk.1 (List.mem_map.mpr ⟨_, hm, rfl⟩)
      rw [List.lookup_cons, beq_false_of_ne hne]
      exact ih hk.2 hm

theorem busy_iff (hk : p.Keyed) : p.busy = true ↔ ∃ ssl, busyConn (p.connFor ssl) = true := by
  constructor
  · intro hb
    rw [busy, List.any_eq_true] at hb
    obtain ⟨⟨ssl, c⟩, hm, hc⟩ := hb
    refine ⟨ssl, ?_⟩
    rw [connFor, lookup_of_mem hk hm]
    exact hc
  · rintro ⟨ssl, hc⟩
    by_contra hb
    rw [connFor_rest (by simpa using hb)] at hc
    cases hc

theorem busyConn_alike {c c' : Conn} (h : c.Alike c') : busyConn c' = busyConn c := by
  have hlen : c'.owed.length - c'.owed_off = c.owed.length - c.owed_off := by
    have hdue := congrArg List.length h.due
    rwa [Conn.due, Conn.due, List.length_drop, List.length_drop] at hdue
  rw [busyConn, busyConn, h.awaiting]
  exact congrArg (c.awaiting || ·) (decide_eq_decide.mpr (by omega))

/-- Two processes that differ in their connections only, and there in nothing that counts. -/
structure Alike (p p' : Process) : Prop where
  rest : p' = { p with conns_s := p'.conns_s }
  conns : ∀ ssl, (p.connFor ssl).Alike (p'.connFor ssl)
  keyed : p.Keyed
  keyed' : p'.Keyed

namespace Alike

theorem refl (hk : p.Keyed) : p.Alike p := ⟨rfl, fun _ => .refl _, hk, hk⟩

theorem setConn (h : p.Alike p') (ssl : Nat) {c c' : Conn} (hc : c.Alike c') :
    (p.setConn ssl c).Alike (p'.setConn ssl c') := by
  refine ⟨?_, ?_, h.keyed.setConn ssl c, h.keyed'.setConn ssl c'⟩
  · rw [Process.setConn, Process.setConn, h.rest]
  · intro s
    rw [connFor_setConn, connFor_setConn]
    split_ifs
    · exact hc
    · exact h.conns s

theorem busy (h : p.Alike p') : p'.busy = p.busy := by
  rw [Bool.eq_iff_iff, busy_iff h.keyed, busy_iff h.keyed']
  exact exists_congr fun ssl => by rw [busyConn_alike (h.conns ssl)]

theorem refreshLocked_conns (p : Process) (cs : List (Nat × Conn)) (now : UInt64) (alive : Bool)
    (cfg : Option Cfg) (file : Option (List Bytes)) :
    Process.refreshLocked { p with conns_s := cs } now alive cfg file =
      { p.refreshLocked now alive cfg file with conns_s := cs } := by
  obtain ⟨conns, list, on, gen, poll, loc, gone, hooked, fds⟩ := p
  unfold Process.refreshLocked polls
  generalize now + CFG_POLL_NS = next
  dsimp only
  cases decide (poll ≤ now) with
  | false => rfl
  | true =>
    cases alive with
    | false => rfl
    | true =>
      cases gone with
      | true => rfl
      | false =>
        cases cfg with
        | none => rfl
        | some sw =>
          dsimp only
          by_cases hgen : sw.generation = gen
          · simp only [if_pos hgen]
            rfl
          · simp only [if_neg hgen]
            cases file with
            | none => rfl
            | some list => rfl

theorem refreshLocked (h : p.Alike p') (now : UInt64) (alive : Bool) (cfg : Option Cfg)
    (file : Option (List Bytes)) :
    (p.refreshLocked now alive cfg file).Alike (p'.refreshLocked now alive cfg file) := by
  obtain ⟨-, hcs, -⟩ := refreshLocked_rest p now alive cfg file
  obtain ⟨-, hcs', -⟩ := refreshLocked_rest p' now alive cfg file
  refine ⟨?_, ?_, ?_, ?_⟩
  · rw [hcs', h.rest, refreshLocked_conns]
  · intro ssl
    rw [connFor, connFor, hcs, hcs']
    exact h.conns ssl
  · rw [Keyed, hcs]
    exact h.keyed
  · rw [Keyed, hcs']
    exact h.keyed'

end Alike

/-- The process after `drain`, which makes no entry for an address that has none. -/
def drained (p : Process) (ssl cap : Nat) : Process :=
  if (p.conns_s.lookup ssl).isNone then p else p.setConn ssl ((p.connFor ssl).drainLocked cap).2

theorem connFor_drained (p : Process) (ssl cap s : Nat) :
    (p.drained ssl cap).connFor s = if s = ssl then ((p.connFor ssl).drainLocked cap).2 else p.connFor s := by
  rw [drained]
  split_ifs with hn hs hs
  · have hempty : p.connFor ssl = {} := by
      rw [connFor, Option.isNone_iff_eq_none.mp hn]
      rfl
    rw [hs, hempty]
    rfl
  · rfl
  · rw [connFor_setConn, if_pos hs]
  · rw [connFor_setConn, if_neg hs]

theorem Alike.drained (h : p.Alike p') (ssl cap : Nat) : (p.drained ssl cap).Alike (p'.drained ssl cap) := by
  have hrest : ∀ q : Process, ∃ cs, q.drained ssl cap = { q with conns_s := cs } ∧ (q.Keyed → (cs.map Prod.fst).Nodup) := by
    intro q
    rw [Process.drained]
    split_ifs
    · exact ⟨q.conns_s, rfl, id⟩
    · exact ⟨_, rfl, fun hk => hk.setConn ssl _⟩
  obtain ⟨cs, e, hk⟩ := hrest p
  obtain ⟨cs', e', hk'⟩ := hrest p'
  refine ⟨?_, ?_, ?_, ?_⟩
  · rw [e, e', h.rest]
  · intro s
    rw [connFor_drained, connFor_drained]
    split_ifs
    · exact ((h.conns ssl).drainLocked cap).2
    · exact h.conns s
  · rw [e]
    exact hk h.keyed
  · rw [e']
    exact hk' h.keyed'

/-- The process as it would be, had there never been a connection at the address. -/
def forget (p : Process) (ssl : Nat) : Process :=
  { p with conns_s := p.conns_s.filter fun x => x.1 ≠ ssl }

theorem forget_alike (hk : p.Keyed) {ssl : Nat} (hn : (p.connFor ssl).AsNew) : p.Alike (p.forget ssl) := by
  refine ⟨rfl, ?_, hk, hk.sublist (List.filter_sublist.map _)⟩
  intro s
  by_cases hs : s = ssl
  · have hforget : (p.forget ssl).connFor s = {} := by
      rw [hs, connFor, forget, lookup_filter_self]
      rfl
    rw [hforget, hs]
    exact hn.alike
  · have hforget : (p.forget ssl).connFor s = p.connFor s := by
      rw [connFor, forget, lookup_filter hs]
      rfl
    rw [hforget]
    exact .refl _

end Process

/-! ### Two runs -/

namespace Host
variable {h h' : Host}

/-- Two hosts that differ in the agent's connections only. -/
structure Alike (h h' : Host) : Prop where
  rest : h' = { h with agent := h'.agent }
  agent : h.agent.Alike h'.agent

/-- The same host with another agent in it. -/
theorem Alike.with (hh : h.Alike h') {a a' : Process} (ha : a.Alike a') :
    Alike { h with agent := a } { h' with agent := a' } := by
  refine ⟨?_, ha⟩
  rw [hh.rest]

theorem write_alike (hh : h.Alike h') (ssl : Nat) (now : UInt64) (file : Option (List Bytes)) (looks : Nat → Look)
    (buf : Bytes) :
    (h'.write ssl now file looks buf).1.suppress = (h.write ssl now file looks buf).1.suppress ∧
      (h'.write ssl now file looks buf).1.acts = (h.write ssl now file looks buf).1.acts ∧
      (h.write ssl now file looks buf).1.conn.Alike (h'.write ssl now file looks buf).1.conn ∧
      (h.write ssl now file looks buf).2.Alike (h'.write ssl now file looks buf).2 := by
  have halive : h'.daemonAlive = h.daemonAlive := by rw [hh.rest]; rfl
  have hcfg : h'.cfgRead = h.cfgRead := by
    rw [hh.rest, hh.agent.rest]
    rfl
  have ha := hh.agent.refreshLocked now h.daemonAlive h.cfgRead file
  rw [write, write, halive, hcfg]
  dsimp only
  generalize h.agent.refreshLocked now h.daemonAlive h.cfgRead file = a at ha ⊢
  generalize h'.agent.refreshLocked now h.daemonAlive h.cfgRead file = a' at ha ⊢
  have hsw : a'.switches = a.switches := by rw [ha.rest]; rfl
  rw [hsw]
  obtain ⟨e1, e2, hc⟩ := (ha.conns ssl).handleWrite a.switches looks buf
  exact ⟨e1, e2, hc, hh.with (ha.setConn ssl hc)⟩

theorem attach_alike (hh : h.Alike h') (file : Option (List Bytes)) : (h.attach file).Alike (h'.attach file) := by
  have ha := hh.agent
  cases file with
  | none => exact hh
  | some list =>
    rw [hh.rest, attach, attach]
    dsimp only
    cases h.pinned with
    | none =>
      refine ⟨rfl, ?_, ha.conns, ha.keyed, ha.keyed'⟩
      dsimp only
      rw [ha.rest]
    | some m =>
      refine ⟨rfl, ?_, ha.conns, ha.keyed, ha.keyed'⟩
      dsimp only

/-- A step is possible in both or in neither, decides the same and leaves them alike. -/
theorem act_alike (hh : h.Alike h') (l : Label) :
    Option.Rel (fun x y => y.2 = x.2 ∧ x.1.Alike y.1) (h.act l) (h'.act l) := by
  have hpinned : h'.pinned = h.pinned := by rw [hh.rest]
  have hdetach : h'.detach = h.detach := by rw [hh.rest]
  have hhooked : h'.agent.hooked_s = h.agent.hooked_s := by rw [hh.agent.rest]
  cases l with
  | start local_on =>
    rw [act, act, hpinned]
    cases h.pinned with
    | some m => exact .none
    | none => exact .some ⟨rfl, by rw [hh.rest], hh.agent⟩
  | stop =>
    rw [act, act, hpinned]
    split_ifs
    · exact .none
    · exact .some ⟨rfl, by rw [hh.rest], hh.agent⟩
  | ctl sw =>
    rw [act, act, hpinned]
    cases h.pinned with
    | none => exact .none
    | some m => exact .some ⟨rfl, by rw [hh.rest], hh.agent⟩
  | attach file =>
    exact .some ⟨rfl, attach_alike hh file⟩
  | detach =>
    rw [act, act, hdetach, hhooked]
    split_ifs
    · exact .none
    · exact .some ⟨rfl, hh⟩
    · refine .some ⟨rfl, by rw [hh.rest], ?_, hh.agent.conns, hh.agent.keyed, hh.agent.keyed'⟩
      dsimp only
      rw [hh.agent.rest]
  | look =>
    rw [act, act, hdetach, hh.agent.busy]
    cases h.detach with
    | no => exact .none
    | leaving i => exact .none
    | waiting i =>
      dsimp only
      split_ifs
      · exact .some ⟨rfl, by rw [hh.rest], hh.agent⟩
      · exact .some ⟨rfl, by rw [hh.rest], hh.agent⟩
      · exact .some ⟨rfl, by rw [hh.rest], hh.agent⟩
  | revert =>
    rw [act, act, hdetach]
    cases h.detach with
    | no => exact .none
    | waiting i => exact .none
    | leaving i =>
      refine .some ⟨rfl, by rw [hh.rest], ?_, hh.agent.conns, hh.agent.keyed, hh.agent.keyed'⟩
      dsimp only
      rw [hh.agent.rest]
  | write ssl now file looks buf =>
    obtain ⟨e1, e2, hc, hw⟩ := write_alike hh ssl now file looks buf
    rw [act, act, hhooked]
    split_ifs
    · exact .none
    · exact .some ⟨rfl, hh⟩
    · refine .some ⟨?_, hw⟩
      dsimp only
      rw [e1, e2, hc.assumed, hc.in_txn]
  | settle ssl cap reply payload =>
    obtain ⟨e1, e2, hc⟩ := (hh.agent.conns ssl).settle cap reply payload
    rw [act, act, hhooked]
    split_ifs
    · exact .none
    · refine .some ⟨?_, hh.with (hh.agent.setConn ssl hc)⟩
      dsimp only
      rw [e1, e2, hc.assumed, hc.in_txn]
  | drain ssl cap =>
    obtain ⟨e, hc⟩ := (hh.agent.conns ssl).drainLocked cap
    rw [act, act]
    refine .some ⟨?_, ?_⟩
    · dsimp only
      rw [e, hc.assumed, hc.in_txn]
    · have hput : ∀ g : Host, (if (g.agent.conns_s.lookup ssl).isNone then g
          else { g with agent := g.agent.setConn ssl ((g.agent.connFor ssl).drainLocked cap).2 }) =
            { g with agent := g.agent.drained ssl cap } := by
        intro g
        rw [Process.drained]
        split_ifs <;> rfl
      dsimp only
      rw [hput, hput]
      exact hh.with (hh.agent.drained ssl cap)
  | observe ssl chunk =>
    obtain ⟨e, hc⟩ := (hh.agent.conns ssl).observe chunk
    rw [act, act]
    refine .some ⟨?_, hh.with (hh.agent.setConn ssl hc)⟩
    dsimp only
    rw [e, hc.assumed, hc.in_txn]

/-- The decisions of a run are the same, whichever of the two it starts from. -/
theorem decisions_alike (ls : List Label) : ∀ {h h' : Host}, h.Alike h' → h'.decisions ls = h.decisions ls := by
  induction ls with
  | nil => exact fun _ => rfl
  | cons l ls ih =>
    intro h h' hh
    have hact := act_alike hh l
    rw [decisions, decisions]
    generalize h.act l = o at hact ⊢
    generalize h'.act l = o' at hact ⊢
    cases hact with
    | none => rfl
    | some hs =>
      obtain ⟨e, hn⟩ := hs
      dsimp only
      rw [e, ih hn]

/-- Every address has one entry, from the start on. -/
theorem keyed_run {labels : List Label} (hrun : run step {} labels = some h) : h.agent.Keyed := by
  have hstart : Process.Keyed {} := List.nodup_nil
  have hstep : ∀ g l g', Process.Keyed (agent g) → step g l = some g' → Process.Keyed (agent g') := by
    intro g l g' hk hs
    obtain ⟨⟨g₁, d⟩, hact, rfl⟩ := Option.map_eq_some_iff.mp hs
    have hself := act_alike ⟨rfl, .refl hk⟩ l
    rw [hact] at hself
    cases hself with
    | some hg => exact hg.2.agent.keyed
  exact run_inv hstep hstart hrun

/-- The host as it would be, had there never been a connection at the address. -/
def forget (h : Host) (ssl : Nat) : Host := { h with agent := h.agent.forget ssl }

end Host

/-- After any history, what is decided from here on is what would be decided had there never been a
    connection at the address, where the entry kept for it is as good as new. -/
theorem connections_independent (labels : List Label) (h : Host) (hrun : run Host.step {} labels = some h)
    (ssl : Nat) (hnew : (h.agent.connFor ssl).AsNew) (more : List Label) :
    h.decisions more = (h.forget ssl).decisions more := by
  have hforget : h.Alike (h.forget ssl) := ⟨rfl, Process.forget_alike (Host.keyed_run hrun) hnew⟩
  exact (Host.decisions_alike more hforget).symm

/-- A connection has sent a ping and is closed. -/
theorem connections_independent_sample :
    ∃ h, run Host.step {} [.start true, .attach (some [[83]]), .write 9 7 none (fun _ => {}) [1, 0, 0, 0, 14]] = some h ∧
      (h.agent.conns_s.lookup 9).isSome = true ∧ ∀ more, h.decisions more = (h.forget 9).decisions more := by
  refine exists_run_of_map (fun h => ((h.agent.conns_s.lookup 9).isSome, h.agent.connFor 9))
    (true, { req := { reader := ⟨[1, 0, 0, 0, 14], 5⟩, caps := baseCaps, last_cmd := 14, last_seq := 0 } })
    (by decide) ?_
  intro h hs e
  simp only [Prod.mk.injEq] at e
  refine ⟨e.1, connections_independent _ h hs 9 ?_⟩
  rw [e.2]
  exact ⟨⟨rfl, rfl⟩, ⟨rfl, rfl⟩, rfl, rfl, rfl, rfl, rfl⟩

/-- A connection was closed inside a transaction. The next one at its address asks for a statement of the
    list: it is let through, where a connection of its own would have had the response captured. -/
theorem transaction_inherited :
    ∃ h, run Host.step {} [.start true, .attach (some [[83]]), .write 9 7 none (fun _ => {}) [2, 0, 0, 0, 3, 66],
        .observe 9 [7, 0, 0, 1, 0, 0, 0, 1, 0, 0, 0]] = some h ∧
      (h.decisions [.write 9 8 none (fun _ => {}) [2, 0, 0, 0, 3, 83]]).map
        (fun x => x.2.acts) = [[(.pass, [83])]] ∧
      ((h.forget 9).decisions [.write 9 8 none (fun _ => {}) [2, 0, 0, 0, 3, 83]]).map
        (fun x => x.2.acts) = [[(.capture, [83])]] := by
  refine exists_run_of_map (fun h =>
    ((h.decisions [.write 9 8 none (fun _ => {}) [2, 0, 0, 0, 3, 83]]).map fun x => x.2.acts,
      ((h.forget 9).decisions [.write 9 8 none (fun _ => {}) [2, 0, 0, 0, 3, 83]]).map fun x => x.2.acts))
    ([[(.pass, [83])]], [[(.capture, [83])]]) (by decide) ?_
  intro h _ e
  exact ⟨congrArg Prod.fst e, congrArg Prod.snd e⟩

end Barnacle.Agent
