import Barnacle.Mysql.Chunks
import Barnacle.Agent.Handed

/-! Whether the response side realigns when a query is sent. `handleWrite` begins the tracker anew, and
    what the tracker is then fed should be the messages of the response to that query. It is fed out of
    the connection's reader, though, and that one keeps the bytes it holds, unless the response is to be
    captured. So if the agent came in the middle of a response, what it saw of it may stand in front of
    the next one, and every header of that is read at the wrong place.

        seen before:  … a piece of a message │
        response:                            │ count │ column │ … │ terminator

    `fedAll` are the messages the tracker is fed in a list of reads. They determine it (`fedAll_track`),
    and they are the messages of what was left over and the response together (`fedAll_rests`). -/

namespace Barnacle.Agent
open Barnacle.Lib Barnacle.Mysql
open MessageReader (messagesOf messagesOf_eq)

namespace Conn

/-- The messages the loop of `observe` feeds the tracker. -/
def fedLoop : Nat → Conn → List Message
  | 0, _ => []
  | fuel + 1, c =>
    match c.rd.next with
    | none => []
    | some (m, rd) => m :: fedLoop fuel (hear { c with rd := rd } m).1

/-- Those that `observe` feeds it of one piece. -/
def observeFed (c : Conn) (chunk : Bytes) : List Message :=
  let captured := if c.capturing then c.captured ++ chunk else c.captured
  let c := { c with rd := c.rd.append chunk, captured := captured }
  fedLoop (c.rd.buffered + 1) c

/-- Those a read feeds it once there is nothing to settle. -/
def readOnFed (c : Conn) (r : Read) : List Message :=
  let d := if r.cap > 0 then c.drainLocked r.cap else ([], c)
  if d.1 ≠ [] then []
  else if r.chunk = [] then []
  else d.2.observeFed r.chunk

/-- Those an `SSL_read` feeds it. -/
def readFed (c : Conn) (r : Read) : List Message :=
  let s := if r.cap > 0 then c.settle r.cap r.reply r.payload else { conn := c }
  if s.got ≠ [] then [] else s.conn.readOnFed r

end Conn

/-- The messages the tracker is fed in these reads. -/
def fedAll : Conn → List Conn.Read → List Message
  | _, [] => []
  | c, r :: rs => c.readFed r ++ fedAll (c.rep_SSL_read r).conn rs

/-! ### The tracker is what it was fed -/

theorem fedLoop_eq (fuel : Nat) : ∀ (c : Conn), c.rd.view.length < fuel →
    c.fedLoop fuel = (packets.split c.rd.view).1.map Prod.fst := by
  induction fuel with
  | zero =>
    intro c h
    exact absurd h (Nat.not_lt_zero _)
  | succ fuel ih =>
    intro c hf
    rcases ht : takeMessage c.rd.view with _ | ⟨m, rest⟩
    · rw [Conn.fedLoop, next_of_view_none ht, Framing.split_none (F := packets) ht]
      rfl
    · obtain ⟨rd, hn, hv⟩ := next_of_view ht
      have hlt := Framing.take_length_lt (F := packets) ht
      obtain ⟨w, -, hw⟩ := packets.takes ht
      rw [hw] at ht
      have hrd := (hear_spec { c with rd := rd } m).2.1
      have ih := ih (Conn.hear { c with rd := rd } m).1 (by rw [hrd, hv]; omega)
      rw [hrd, hv] at ih
      rw [Conn.fedLoop, hn, hw, Framing.split_some (F := packets) ht, List.map_cons, ← ih]

theorem observeFed_eq (c : Conn) (chunk : Bytes) :
    c.observeFed chunk = (packets.split (c.rd.view ++ chunk)).1.map Prod.fst := by
  rw [Conn.observeFed]
  dsimp only
  rw [fedLoop_eq _ _ (by rw [MessageReader.length_view]; exact Nat.lt_succ_self _),
    MessageReader.view_append]

theorem observeFed_track (c : Conn) (chunk : Bytes) :
    ((c.observe chunk).1.resp, (c.observe chunk).1.in_txn) =
      (c.observeFed chunk).foldl track (c.resp, c.in_txn) := by
  rw [observeFed_eq]
  exact congrArg Prod.fst (observe_spec c chunk).2

theorem readOnFed_track (c : Conn) (r : Conn.Read) :
    ((c.readOn r).conn.resp, (c.readOn r).conn.in_txn) =
      (c.readOnFed r).foldl track (c.resp, c.in_txn) := by
  have hd : ∃ d, (if r.cap > 0 then c.drainLocked r.cap else ([], c)) = d ∧
      (d.2.resp, d.2.in_txn) = (c.resp, c.in_txn) := by
    refine ⟨_, rfl, ?_⟩
    split_ifs
    · exact (drainLocked_spec c r.cap).1.tracked
    · rfl
  obtain ⟨d, hd, ht⟩ := hd
  rw [Conn.readOn, Conn.readOnFed, hd]
  dsimp only
  split_ifs
  · exact ht
  · exact ht
  · rw [← ht]
    exact observeFed_track d.2 r.chunk

/-- What is settled leaves the tracker alone, and the reader as it was or empty. -/
theorem settled (c : Conn) (r : Conn.Read) :
    let s := if r.cap > 0 then c.settle r.cap r.reply r.payload else { conn := c }
    (s.conn.resp, s.conn.in_txn) = (c.resp, c.in_txn) ∧ s.heard = [] ∧
      (s.conn.rd = c.rd ∨ s.conn.rd = c.rd.reset) := by
  intro s
  by_cases hidle : c.awaiting = false ∨ r.cap = 0
  · have hs : s = { conn := c } := settle_idle hidle
    rw [hs]
    exact ⟨rfl, rfl, .inl rfl⟩
  · rw [not_or, Bool.not_eq_false] at hidle
    have hcap : 0 < r.cap := Nat.pos_of_ne_zero hidle.2
    have hs : s = c.settle r.cap r.reply r.payload := if_pos hcap
    obtain ⟨hk, -, hheard, hcase⟩ := settle_spec c hcap r.reply r.payload hidle.1
    rw [hs]
    refine ⟨hk.tracked, hheard, ?_⟩
    split_ifs at hcase
    · exact .inl hcase.2.2
    · exact hcase.2.2

theorem readFed_track (c : Conn) (r : Conn.Read) :
    ((c.rep_SSL_read r).conn.resp, (c.rep_SSL_read r).conn.in_txn) =
      (c.readFed r).foldl track (c.resp, c.in_txn) := by
  have hs := settled c r
  rw [Conn.rep_SSL_read, Conn.readFed]
  dsimp only at hs ⊢
  generalize (if r.cap > 0 then c.settle r.cap r.reply r.payload else { conn := c }) = s at hs ⊢
  split_ifs
  · exact hs.1
  · rw [← hs.1]
    exact readOnFed_track s.conn r

/-- The tracker and the flag after some reads are what the messages fed make of them. -/
theorem fedAll_track (rs : List Conn.Read) : ∀ c : Conn,
    ((readAll c rs).1.resp, (readAll c rs).1.in_txn) = (fedAll c rs).foldl track (c.resp, c.in_txn) := by
  induction rs with
  | nil =>
    intro c
    rfl
  | cons r rs ih =>
    intro c
    rw [readAll, fedAll, List.foldl_append, ← readFed_track]
    exact ih _

/-! ### What it is fed -/

/-- No whole message stays in the reader. -/
theorem read_none {c : Conn} (r : Conn.Read) (h : takeMessage c.rd.view = none) :
    takeMessage (c.rep_SSL_read r).conn.rd.view = none := by
  have hs := settled c r
  rw [Conn.rep_SSL_read]
  dsimp only at hs ⊢
  generalize (if r.cap > 0 then c.settle r.cap r.reply r.payload else { conn := c }) = s at hs ⊢
  have hnone : takeMessage s.conn.rd.view = none := by
    rcases hs.2.2 with hrd | hrd
    · rw [hrd]
      exact h
    · rw [hrd]
      rfl
  split_ifs
  · exact hnone
  · have hheard := (readOn_spec s.conn r).2.2.2.2.2.2 hnone
    have hview : (s.conn.readOn r).conn.rd.view = (packets.split _).2 := congrArg Prod.snd hheard
    dsimp only
    rw [hview]
    exact Framing.take_split_rest (F := packets) _

theorem reads_none (rs : List Conn.Read) : ∀ {c : Conn}, takeMessage c.rd.view = none →
    takeMessage (readAll c rs).1.rd.view = none := by
  induction rs with
  | nil =>
    intro c h
    exact h
  | cons r rs ih =>
    intro c h
    exact ih (read_none r h)

/-- Reads that hear nothing feed nothing. -/
theorem fedAll_silent (rs : List Conn.Read) : ∀ {c : Conn}, (readAll c rs).2.1 = [] → fedAll c rs = [] := by
  induction rs with
  | nil =>
    intro c _
    rfl
  | cons r rs ih =>
    intro c h
    rw [readAll] at h
    obtain ⟨hr, hrs⟩ := List.append_eq_nil_iff.mp h
    have hfed : c.readFed r = [] := by
      rw [Conn.rep_SSL_read] at hr
      rw [Conn.readFed]
      dsimp only at hr ⊢
      generalize (if r.cap > 0 then c.settle r.cap r.reply r.payload else { conn := c }) = s at hr ⊢
      split_ifs at hr ⊢ with hgot
      · rfl
      · rw [Conn.readOn] at hr
        rw [Conn.readOnFed]
        dsimp only at hr ⊢
        generalize (if r.cap > 0 then s.conn.drainLocked r.cap else ([], s.conn)) = d at hr ⊢
        split_ifs at hr ⊢ with hd hchunk
        · rfl
        · rfl
        · exact absurd hr hchunk
    rw [fedAll, hfed, ih hrs]
    rfl

/-- On a connection at rest the server's bytes go behind what the reader holds. Induction on the
    reads, each of which takes the messages its piece completes. -/
theorem fedAll_rests (rs : List Conn.Read) : ∀ {c : Conn}, Rests c → takeMessage c.rd.view = none →
    fedAll c rs = (packets.split (c.rd.view ++ (readAll c rs).2.1)).1.map Prod.fst := by
  induction rs with
  | nil =>
    intro c _ hn
    rw [readAll, List.append_nil, Framing.split_none (F := packets) hn]
    rfl
  | cons r rs ih =>
    intro c h hn
    have hn' := read_none r hn
    obtain ⟨hheard, hconn, -⟩ := h.watches r
    have hfed : c.readFed r = if r.chunk = [] then [] else c.observeFed r.chunk := by
      have hoff : c.owed_off ≥ c.owed.length := List.drop_eq_nil_iff.mp h.due
      have hdrain : (if r.cap > 0 then c.drainLocked r.cap else ([], c)) = ([], c) := by
        rw [Conn.drainLocked, if_pos hoff]
        exact ite_self _
      rw [Conn.readFed, settle_idle (.inl h.awaiting), Conn.readOnFed]
      dsimp only
      rw [hdrain]
      simp only [ne_eq, not_true_eq_false, if_false]
    have ih := ih (h.read r).2.1 hn'
    rw [fedAll, readAll, ih, hfed]
    dsimp only
    rw [hheard]
    split_ifs at hconn ⊢ with hchunk
    · rw [hconn, hchunk]
      rfl
    · have hview : (c.rep_SSL_read r).conn.rd.view = (packets.split (c.rd.view ++ r.chunk)).2 := by
        rw [hconn]
        exact congrArg Prod.snd (observe_spec c r.chunk).2
      rw [hview, observeFed_eq, ← List.append_assoc, Framing.split_append (c.rd.view ++ r.chunk),
        List.map_append]

/-- A statement that was asked about and then sent is fed as one whose response is captured. -/
theorem fedAll_asked (rs : List Conn.Read) {c : Conn} (ha : c.awaiting = true)
    (hq : c.query ≠ []) (hans : (readAll c rs).2.2 = false) (hidle : (readAll c rs).1.awaiting = false) :
    fedAll c rs = fedAll c.resends rs := by
  induction rs with
  | nil => rfl
  | cons r rs ih =>
    rw [readAll] at hans hidle
    dsimp only at hans hidle
    obtain ⟨hans0, hans⟩ := Bool.or_eq_false_iff.mp hans
    rw [fedAll, fedAll]
    rcases Nat.eq_zero_or_pos r.cap with h0 | h0
    · -- a read without room changes nothing
      have hchunk : r.chunk = [] := List.eq_nil_of_length_eq_zero (by have := r.fits; omega)
      have hc : ∀ d : Conn, d.rep_SSL_read r = { conn := d } ∧ d.readFed r = [] := by
        intro d
        rw [Conn.rep_SSL_read, Conn.readFed, h0]
        simp [Conn.readOn, Conn.readOnFed, h0, hchunk]
      rw [(hc c).1] at hans hidle
      rw [(hc c).1, (hc c).2, (hc c.resends).1, (hc c.resends).2, ih hans hidle]
    · have hnone : c.answer r.reply r.payload = none := by
        rw [Conn.answers, ha, decide_eq_true h0] at hans0
        simpa using hans0
      have hsettle : c.settle r.cap r.reply r.payload = _ := settle_resends ha hq hnone
      have hread : c.rep_SSL_read r = { c.resends.readOn r with resent := c.resend } := by
        rw [Conn.rep_SSL_read, if_pos h0, hsettle]
        simp only [ne_eq, not_true_eq_false, if_false]
      have hread' : c.resends.rep_SSL_read r = { c.resends.readOn r with resent := [] } := by
        rw [Conn.rep_SSL_read, if_pos h0]
        rfl
      have hfed : c.readFed r = c.resends.readFed r := by
        rw [Conn.readFed, Conn.readFed, if_pos h0, if_pos h0, hsettle]
        rfl
      rw [hread, hread', hfed]

/-! ### Queries that reset the reader -/

/-- A statement that is taken has the reader reset at once, or is asked about. -/
theorem consider_takes {w : Write} {c : Conn} {sql : Bytes} (h : w.Takes c.in_txn sql) :
    let c' := (c.consider w.sw (w.looks 0) w.buf sql).2
    c'.rd = c.rd.reset ∨ c'.awaiting = true := by
  obtain ⟨hon, hlist, htxn, hcase⟩ := h
  rw [Conn.consider]
  dsimp only
  rw [if_neg (by rw [hon]; decide), if_neg (not_not_intro hlist), if_neg (by rw [htxn]; decide)]
  split_ifs with hlocal hpipe hpost
  · exact .inl rfl
  · rcases hcase with ⟨hloc, hmiss⟩ | ⟨hkey, hacq, -⟩
    · rw [hloc, hmiss] at hlocal
      exact absurd rfl hlocal
    · rw [hkey, hacq] at hpipe
      cases hpipe
  · rcases hcase with ⟨hloc, hmiss⟩ | ⟨-, -, hposted⟩
    · rw [hloc, hmiss] at hlocal
      exact absurd rfl hlocal
    · rw [hposted] at hpost
      cases hpost
  · exact .inr rfl

theorem handleWrite_takes {c : Conn} {w : Write} {m : Message} (hc : c.req.caps = baseCaps)
    (h : takeMessage (c.req.reader.view ++ w.buf) = some (m, [])) (hq : isQuery m.payload)
    (ht : w.Takes c.in_txn (m.payload.drop 1)) :
    let c' := (c.handleWrite w.sw w.looks w.buf).conn
    c'.rd = c.rd.reset ∨ c'.awaiting = true := by
  obtain ⟨t, hv, -, hn⟩ := RequestTracker.next_of_one
    (t := { c.req with reader := c.req.reader.append w.buf }) (m := m)
    (by rw [MessageReader.view_append]; exact h)
  rw [Conn.handleWrite, RequestTracker.feed, hn]
  dsimp only
  rw [hc, extractQuery_base, if_pos hq]
  dsimp only
  have hcon := consider_spec w.sw (w.looks 0) w.buf { c with req := t } (m.payload.drop 1)
  have htakes := consider_takes (c := { c with req := t }) ht
  rw [Conn.handleLoop]
  dsimp only at htakes ⊢
  generalize Conn.consider w.sw (w.looks 0) w.buf { c with req := t } (m.payload.drop 1) = r at hcon htakes ⊢
  have hnext : r.2.req.next = (none, t) := by
    rw [hcon.req]
    exact RequestTracker.next_of_none (by rw [hv]; rfl)
  split_ifs with hask
  · exact htakes
  · rw [hnext]
    exact htakes

/-! ### One turn after another -/

/-- A command, the writes it was sent in and the reads that took the response. -/
structure Turn where
  cmd : Bytes
  writes : List Write
  reads : List Conn.Read

/-- Strict use of a connection: one command, then all of the response, if the command is answered by
    the server, and then nothing is awaited or owed. -/
def Turn.Strict (x : Turn) (r : Conn × Bytes × Bool) : Prop :=
  (takeMessage (x.writes.map Write.buf).flatten).map (fun mr => (mr.1.payload, mr.2)) = some (x.cmd, []) ∧
    (packets.split r.2.1).2 = [] ∧ (r.2.2 = true → r.2.1 = []) ∧ r.1.awaiting = false ∧ r.1.due = []

instance (x : Turn) (r : Conn × Bytes × Bool) : Decidable (x.Strict r) :=
  inferInstanceAs (Decidable (_ ∧ _ ∧ (_ → _) ∧ _ ∧ _))

def turn (c : Conn) (x : Turn) : Option Conn :=
  let r := readAll (writeAll c x.writes).1 x.reads
  if x.Strict r then some r.1 else none

/-- A query finds the response side aligned if the reader holds nothing, or if the statement is taken:
    then the reader is reset before the response comes. -/
def Aligned (c : Conn) (x : Turn) : Prop :=
  c.rd.view = [] ∨ ∀ w ∈ lastWrite x.writes, w.Takes c.in_txn (x.cmd.drop 1)

/-- The tracker is fed the messages of the response, from the beginning, so it completes and has the
    flag as the response says. -/
def Realigned (c : Conn) (x : Turn) : Prop :=
  let w := (writeAll c x.writes).1
  let r := readAll w x.reads
  fedAll w x.reads = messagesOf r.2.1 ∧
    (r.1.resp, r.1.in_txn) = (messagesOf r.2.1).foldl track (ResponseTracker.begin c.assumed, c.in_txn)

/-- Between turns: the command is written, and what the reader holds is no whole message. -/
structure Between (c : Conn) : Prop where
  caps : c.req.caps = baseCaps
  view : c.req.reader.view = []
  rests : Rests c
  none : takeMessage c.rd.view = none

theorem Rests.reads (rs : List Conn.Read) : ∀ {c : Conn}, Rests c → Rests (readAll c rs).1 := by
  induction rs with
  | nil =>
    intro c h
    exact h
  | cons r rs ih =>
    intro c h
    exact ih (h.read r).2.1

theorem reads_req (rs : List Conn.Read) : ∀ c : Conn, (readAll c rs).1.req = c.req := by
  induction rs with
  | nil =>
    intro c
    rfl
  | cons r rs ih =>
    intro c
    exact (ih _).trans (rep_SSL_read_spec c r).req

/-- Whatever the agent has seen when the first command is written. -/
theorem between_early (early : List Conn.Read) : Between (readAll {} early).1 := by
  have hreq := reads_req early {}
  have hrests : Rests {} := ⟨rfl, rfl⟩
  exact ⟨by rw [hreq]; rfl, by rw [hreq]; rfl, hrests.reads early, reads_none early rfl⟩

/-- A strict turn writes one command and leaves nothing to do. -/
theorem turn_strict {c c' : Conn} {x : Turn} (h : turn c x = some c') :
    x.Strict (readAll (writeAll c x.writes).1 x.reads) ∧
      c' = (readAll (writeAll c x.writes).1 x.reads).1 ∧
      ∃ m, m.payload = x.cmd ∧ takeMessage (x.writes.map Write.buf).flatten = some (m, []) := by
  rw [turn] at h
  split_ifs at h with hs
  cases h
  obtain ⟨⟨m, rest⟩, ht, he⟩ := Option.map_eq_some_iff.mp hs.1
  simp only [Prod.mk.injEq] at he
  obtain ⟨hp, rfl⟩ := he
  exact ⟨hs, rfl, m, hp, ht⟩

theorem Between.writes {c : Conn} {x : Turn} {m : Message} (h : Between c)
    (hm : takeMessage (x.writes.map Write.buf).flatten = some (m, [])) :
    takeMessage c.req.reader.view = Option.none ∧
      takeMessage (c.req.reader.view ++ (x.writes.map Write.buf).flatten) = some (m, []) := by
  rw [h.view, List.nil_append]
  exact ⟨rfl, hm⟩

theorem Between.turn {c c' : Conn} {x : Turn} (h : Between c) (hx : turn c x = some c') : Between c' := by
  obtain ⟨⟨-, -, -, hidle, hdue⟩, rfl, m, -, hm⟩ := turn_strict hx
  obtain ⟨hnone, hsends⟩ := h.writes hm
  have hcmd := writeAll_spec x.writes c h.caps hnone hsends
  have hreq := reads_req x.reads (writeAll c x.writes).1
  refine ⟨by rw [hreq]; exact hcmd.caps, by rw [hreq]; exact hcmd.view, ⟨hidle, hdue⟩, reads_none _ ?_⟩
  rcases hcmd.rd with hrd | hrd
  · rw [hrd]
    exact h.none
  · rw [hrd]
    rfl

/-- The messages fed, when the reader holds nothing as the response comes. -/
theorem fedAll_empty {c : Conn} (hrests : Rests c) (hv : c.rd.view = []) (rs : List Conn.Read) :
    fedAll c rs = messagesOf (readAll c rs).2.1 := by
  rw [fedAll_rests rs hrests (by rw [hv]; rfl), hv, List.nil_append, messagesOf_eq]

/-- A query that finds the response side aligned. -/
theorem Between.fed {c c' : Conn} {x : Turn} (h : Between c) (hx : Agent.turn c x = some c')
    (hq : isQuery x.cmd) (ha : Aligned c x) :
    fedAll (writeAll c x.writes).1 x.reads =
      messagesOf (readAll (writeAll c x.writes).1 x.reads).2.1 := by
  obtain ⟨⟨-, -, hanswered, hidle, -⟩, -, m, hp, hm⟩ := turn_strict hx
  obtain ⟨hnone, hsends⟩ := h.writes hm
  have hcmd := writeAll_spec x.writes c h.caps hnone hsends
  rw [Aligned, ← hp] at ha
  rw [← hp] at hq
  obtain ⟨w, hw, hbuf, htook, hdue⟩ := writeAll_took x.writes h.caps hnone hsends
  -- the reader holds nothing, or the statement is asked about
  have hempty : (writeAll c x.writes).1.rd.view = [] ∨ (writeAll c x.writes).1.awaiting = true := by
    rcases ha with hv | htakes
    · exact .inl (hcmd.rd_view hv)
    · obtain ⟨w', hw', -, req, hreq, htake, hall⟩ := writeAll_last x.writes h.caps hnone hsends
      have ht := handleWrite_takes (c := { c with req := req }) hreq htake hq (htakes w' hw')
      rw [hall]
      exact ht.imp_left fun hrd => by rw [hrd]; rfl
  generalize (writeAll c x.writes).1 = c1 at hanswered hidle htook hdue hempty ⊢
  rcases hwait : c1.awaiting with _ | _
  · rw [hwait] at hempty
    exact fedAll_empty ⟨hwait, hdue.trans h.rests.due⟩ (hempty.resolve_right (by decide)) x.reads
  · rcases hans : (readAll c1 x.reads).2.2 with _ | _
    · -- sent after all: the reader is reset before anything is heard
      have hquery : c1.query ≠ [] := by
        cases htook with
        | passed _ haw => exact absurd (haw.symm.trans hwait) (by rw [h.rests.awaiting]; decide)
        | captured _ _ _ _ _ haw => exact absurd (haw.symm.trans hwait) (by rw [h.rests.awaiting]; decide)
        | asked _ _ _ _ _ held => rw [held]; exact hbuf
      have hdue' : c1.due = [] := hdue.trans h.rests.due
      rw [fedAll_asked x.reads hwait hquery hans hidle,
        (asked_reads x.reads hwait hdue' hquery hans hidle).2.1]
      exact fedAll_empty (c := c1.resends) ⟨rfl, hdue'⟩ rfl x.reads
    · -- answered from the cache: there is no response
      have hheard := hanswered hans
      rw [fedAll_silent x.reads hheard, hheard]
      rfl

/-- In every run, whatever was seen of the server before the first command: where a query finds the
    response side aligned, the tracker is fed exactly the messages of its response, and it and the
    transaction flag are what these make of them. -/
theorem response_realigned {early : List Conn.Read} {xs : List Turn} {x : Turn} {c c' : Conn}
    (hrun : run turn (readAll {} early).1 xs = some c) (hx : turn c x = some c') (hq : isQuery x.cmd)
    (ha : Aligned c x) : Realigned c x := by
  have h : Between c :=
    run_inv (I := Between) (fun _ _ _ hi hs => hi.turn hs) (between_early early) hrun
  have hfed := h.fed hx hq ha
  obtain ⟨-, -, m, hp, hm⟩ := turn_strict hx
  obtain ⟨hnone, hsends⟩ := h.writes hm
  have hcmd := writeAll_spec x.writes c h.caps hnone hsends
  rw [hp] at hcmd
  refine ⟨hfed, ?_⟩
  rw [fedAll_track, hfed, hcmd.query hq, hcmd.in_txn]

/-- A statement that is not on the list, answered with an OK packet in a transaction. -/
def sampleTurn : Turn where
  cmd := [COM_QUERY, 66]
  writes := [{ sw := {}, looks := fun _ => {}, buf := encodeMessage [COM_QUERY, 66] 0 }]
  reads := [{ cap := 64, chunk := encodeMessage (OkBody.payload { status := 3 } 0) 1, fits := by decide }]

/-- The same response to a statement that is listed and not cached. -/
def sampleListed : Turn where
  cmd := [COM_QUERY, 113]
  writes := [{ sw := { list := [[113]] }, looks := fun _ => {}, buf := encodeMessage [COM_QUERY, 113] 0 }]
  reads := sampleTurn.reads

/-- A byte of an earlier response is left over, and the statement that is not on the list does not get rid
    of it; the one that is captured does. -/
theorem response_realigned_sample :
    let early : List Conn.Read := [{ cap := 1, chunk := [0], fits := by decide }]
    ∃ c, run turn (readAll {} early).1 [sampleTurn] = some c ∧ c.rd.view.length = 12 ∧
      ∃ c', turn c sampleListed = some c' ∧ c'.in_txn = true ∧ Realigned c sampleListed := by
  intro early
  refine exists_run_of_map (fun c => (c.in_txn, c.rd.view.length, (turn c sampleListed).map Conn.in_txn))
    (false, 12, some true) (by decide) ?_
  intro c hrun hc
  simp only [Prod.mk.injEq] at hc
  obtain ⟨hin, hleft, hx⟩ := hc
  obtain ⟨c', hx, htxn⟩ := Option.map_eq_some_iff.mp hx
  refine ⟨hleft, c', hx, htxn, response_realigned hrun hx (by decide) (.inr ?_)⟩
  rw [hin]
  decide

/-- One byte of a response that was under way stands in front of the next: no message of that is fed,
    the tracker does not complete, and the transaction goes unnoticed. -/
theorem response_misaligned :
    let early : List Conn.Read := [{ cap := 1, chunk := [0], fits := by decide }]
    let c := (readAll {} early).1
    isQuery sampleTurn.cmd ∧ ¬ Realigned c sampleTurn ∧
      (turn c sampleTurn).map (fun c' => (c'.resp.state, c'.in_txn)) = some (.Init, false) ∧
      (turn {} sampleTurn).map (fun c' => (c'.resp.state, c'.in_txn)) = some (.Done, true) := by
  intro early c
  refine ⟨by decide, ?_, by decide, by decide⟩
  rintro ⟨hfed, -⟩
  revert hfed
  decide

end Barnacle.Agent
