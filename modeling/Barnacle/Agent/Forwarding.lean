import Barnacle.Lib.Transition
import Barnacle.Agent.Reads
import Barnacle.Agent.Writes

/-! What reaches the server. An application writes a stream of commands, cut into `SSL_write` calls
    any way it likes; the agent withholds the packets of statements it answers from the cache and
    forwards everything else, or so it should. `Wire` is a connection with its two streams, the bytes
    the application wrote and those that reached the real `SSL_write`, and with the statements
    answered, each named by where its packet ends in the application's stream.

    The agent holds back the whole buffer of the write that completed the statement, and nothing but
    that buffer. So the streams agree as long as no cached answer is given for a statement whose
    packet is not exactly the held buffer, and nothing is written while a verdict is awaited. -/

namespace Barnacle.Agent
open Barnacle.Lib Barnacle.Mysql

/-! ### Removing packets from a stream -/

/-- The packets, less those that end at one of these positions. -/
def kept (ends : List Nat) : Nat → List Bytes → Bytes
  | _, [] => []
  | pos, w :: ws => (if pos + w.length ∈ ends then [] else w) ++ kept ends (pos + w.length) ws

/-- The stream with the complete packets that end at these positions removed. -/
def without (s : Bytes) (ends : List Nat) : Bytes :=
  kept ends 0 ((packets.split s).1.map Prod.snd) ++ (packets.split s).2

theorem kept_append (ends : List Nat) : ∀ (ws ws' : List Bytes) (pos : Nat),
    kept ends pos (ws ++ ws') = kept ends pos ws ++ kept ends (pos + ws.flatten.length) ws'
  | [], ws', pos => by simp [kept]
  | w :: ws, ws', pos => by
    rw [List.cons_append, kept, kept, kept_append ends ws ws', List.flatten_cons, List.length_append,
      Nat.add_assoc, List.append_assoc]

/-- Packets that end past every position given are all kept. -/
theorem kept_of_lt {ends : List Nat} : ∀ {ws : List Bytes} {pos : Nat}, (∀ e ∈ ends, e ≤ pos) →
    (∀ w ∈ ws, w ≠ []) → kept ends pos ws = ws.flatten
  | [], _, _, _ => rfl
  | w :: ws, pos, he, hne => by
    have hw := List.length_pos_of_ne_nil (hne w List.mem_cons_self)
    have hnot : pos + w.length ∉ ends := fun h => by have := he _ h; omega
    rw [kept, if_neg hnot, kept_of_lt (fun e h => (he e h).trans (by omega))
      fun v hv => hne v (List.mem_cons_of_mem _ hv), List.flatten_cons]

/-- A position at or before the packets removes none of them. -/
theorem kept_concat_end {ends : List Nat} {e : Nat} : ∀ {ws : List Bytes} {pos : Nat},
    pos + ws.flatten.length < e → kept (ends ++ [e]) pos ws = kept ends pos ws
  | [], _, _ => rfl
  | w :: ws, pos, h => by
    rw [List.flatten_cons, List.length_append] at h
    have hne : pos + w.length ≠ e := by omega
    rw [kept, kept, kept_concat_end (by omega)]
    simp [hne]

/-- The bytes of a stream's complete packets. -/
theorem packets_le (s : Bytes) : ((packets.split s).1.map Prod.snd).flatten.length ≤ s.length := by
  have h := congrArg List.length (packets.split_join s)
  rw [List.length_append] at h; omega

/-- What is written later is all there. -/
theorem without_append {s : Bytes} {ends : List Nat} (x : Bytes)
    (h : ∀ e ∈ ends, e ≤ ((packets.split s).1.map Prod.snd).flatten.length) :
    without (s ++ x) ends = without s ends ++ x := by
  have hjoin := packets.split_join ((packets.split s).2 ++ x)
  have hne := packets.split_ne_nil ((packets.split s).2 ++ x)
  rw [without, Framing.split_append, List.map_append, kept_append, Nat.zero_add,
    kept_of_lt h (by simpa using fun w m hm => hne (m, w) hm), without, List.append_assoc, hjoin,
    List.append_assoc]

/-- Removing the last packet of a stream that ends with it. -/
theorem without_last {s q : Bytes} {m : Message} {ms : List (Message × Bytes)}
    (ends : List Nat) (hs : packets.split s = (ms ++ [(m, q)], [])) (hq : q ≠ []) (h : ∀ e ∈ ends, e < s.length) :
    without s (ends ++ [s.length]) ++ q = without s ends := by
  have hlen : s.length = (ms.map Prod.snd).flatten.length + q.length := by
    have := congrArg List.length (packets.split_join s)
    rw [hs] at this
    simpa using this.symm
  have hpos := List.length_pos_of_ne_nil hq
  have hnot : s.length ∉ ends := fun he => Nat.lt_irrefl _ (h _ he)
  simp only [without, hs, List.map_append, List.map_cons, List.map_nil, kept_append, Nat.zero_add,
    List.append_nil, kept, ← hlen]
  rw [kept_concat_end (by omega), if_pos (by simp), if_neg hnot, List.append_nil]

/-! ### The two streams of a connection -/

/-- One connection, and what can be seen of it from outside. -/
structure Wire where
  conn : Conn := {}
  /-- everything the application gave to `SSL_write` -/
  app : Bytes := []
  /-- everything that reached the real one -/
  sent : Bytes := []
  /-- where the packet of the statement last asked about ends, and its text -/
  asked : Nat × Bytes := (0, [])
  answered : List (Nat × Bytes) := []

inductive Call
  | write (sw : Switches) (looks : Nat → Look) (buf : Bytes)
  | read (r : Conn.Read)

namespace Wire

/-- Bytes neither forwarded nor answered yet: the write held back while a verdict is awaited. -/
def held (s : Wire) : Bytes := if s.conn.awaiting then s.conn.query else []

def step (s : Wire) : Call → Option Wire
  | .write sw looks buf =>
    let w := s.conn.rep_SSL_write sw looks buf
    let app := s.app ++ buf
    let pos := app.length - w.1.conn.req.reader.buffered
    some { s with conn := w.1.conn, app := app, sent := s.sent ++ w.2,
                  asked := if w.1.suppress then (pos, w.1.conn.pending) else s.asked }
  | .read r =>
    let t := s.conn.rep_SSL_read r
    some { s with conn := t.conn, sent := s.sent ++ t.resent,
                  answered := if s.conn.answers r then s.answered ++ [s.asked] else s.answered }

/-- The two streams are sure to part where a write overtakes one held back, where a cached answer is
    for a statement whose packet is not exactly the write held back, and where the write held back is
    sent after all and its length is no `int`. -/
def Tidy (s : Wire) : Call → Prop
  | .write _ _ buf => s.conn.awaiting = false ∨ buf = []
  | .read r => (s.conn.answers r = true → s.conn.req.reader.view = [] ∧
      (packets.split s.app).1.getLast?.map Prod.snd = some s.conn.query) ∧
      (s.conn.awaiting = true → 0 < r.cap → s.conn.answers r = false → s.conn.query.length < 2 ^ 31)

instance (s : Wire) : ∀ c, Decidable (s.Tidy c)
  | .write _ _ buf => inferInstanceAs (Decidable (s.conn.awaiting = false ∨ buf = []))
  | .read r => inferInstanceAs (Decidable ((s.conn.answers r = true → _ ∧ _) ∧ (_ → _ → _ → _)))

/-- A complete packet of the stream carries this statement and ends at this position. -/
def IsStatement (s : Bytes) (a : Nat × Bytes) : Prop :=
  ∃ ms m w rest r, packets.split s = (ms ++ (m, w) :: rest, r) ∧
    a.1 = (ms.map Prod.snd).flatten.length + w.length ∧ extractQuery m.payload baseCaps = some a.2

theorem IsStatement.append {s : Bytes} {a : Nat × Bytes} (h : IsStatement s a) (x : Bytes) :
    IsStatement (s ++ x) a := by
  obtain ⟨ms, m, w, rest, r, hs, ha, hq⟩ := h
  refine ⟨ms, m, w, rest ++ (packets.split (r ++ x)).1, (packets.split (r ++ x)).2, ?_, ha, hq⟩
  rw [Framing.split_append, hs]; simp

theorem IsStatement.le {s : Bytes} {a : Nat × Bytes} (h : IsStatement s a) :
    a.1 ≤ ((packets.split s).1.map Prod.snd).flatten.length := by
  obtain ⟨ms, m, w, rest, r, hs, ha, -⟩ := h
  rw [hs, ha]; simp

/-- A statement asked about is a packet of the stream, and ends where the tracker stands. -/
theorem isStatement_of_endsAt {s v sql : Bytes} (h : EndsAt s v sql) :
    IsStatement s (s.length - v.length, sql) := by
  obtain ⟨ms, m, w, hs, hq⟩ := h
  refine ⟨ms, m, w, _, _, hs, ?_, hq⟩
  have hj := congrArg List.length (packets.split_join s)
  have hv := congrArg List.length (packets.split_join v)
  rw [hs] at hj
  simp only [List.map_append, List.map_cons, List.flatten_append, List.flatten_cons,
    List.length_append] at hj hv
  simp only
  omega

/-- The two streams agree, and the tracker stands at a packet of the application's. -/
structure Inv (s : Wire) : Prop where
  caps : s.conn.req.caps = baseCaps
  at_ : packets.At s.app s.conn.req.reader.view
  streams : s.sent ++ s.held = without s.app (s.answered.map Prod.fst)
  answered : ∀ a ∈ s.answered, IsStatement s.app a
  asked : s.conn.awaiting = true → s.conn.query ≠ [] ∧ IsStatement s.app s.asked ∧
    s.asked.1 = s.app.length - s.conn.req.reader.view.length ∧ ∀ a ∈ s.answered, a.1 < s.app.length

theorem inv_init : Inv {} :=
  ⟨rfl, Framing.At.refl, rfl, fun _ h => absurd h List.not_mem_nil, fun h => absurd h (by decide)⟩

theorem Inv.ends_le {s : Wire} (h : Inv s) : ∀ e ∈ s.answered.map Prod.fst,
    e ≤ ((packets.split s.app).1.map Prod.snd).flatten.length := by
  intro e he
  obtain ⟨a, ha, rfl⟩ := List.mem_map.mp he
  exact (h.answered a ha).le

/-- A write forwards its bytes or holds all of them back. -/
theorem Inv.write {s s' : Wire} {sw : Switches} {looks : Nat → Look} {buf : Bytes} (h : Inv s)
    (hidle : s.conn.awaiting = false ∨ buf = []) (hs : s.step (.write sw looks buf) = some s') :
    Inv s' := by
  rw [step, Option.some.injEq] at hs
  by_cases hbuf : buf = []
  · rw [Conn.rep_SSL_write, if_pos hbuf] at hs
    subst hs hbuf
    simp only [List.append_nil, Bool.false_eq_true, if_false]
    exact h
  have hidle : s.conn.awaiting = false := hidle.resolve_right hbuf
  have hh := handleWrite_spec sw looks buf h.caps h.at_
  rw [Conn.rep_SSL_write, if_neg hbuf] at hs
  generalize s.conn.handleWrite sw looks buf = w at hs hh
  have hstreams : s.sent ++ buf = without (s.app ++ buf) (s.answered.map Prod.fst) := by
    have := h.streams
    rw [held, hidle, if_neg (by decide), List.append_nil] at this
    rw [without_append buf h.ends_le, this]
  have hanswered : ∀ a ∈ s.answered, IsStatement (s.app ++ buf) a :=
    fun a ha => (h.answered a ha).append buf
  subst hs
  rcases hsup : w.suppress with _ | _
  · obtain ⟨hw, -⟩ := hh.passed hsup
    rw [hidle] at hw
    refine ⟨hh.caps, hh.at_, ?_, hanswered, fun ha => ?_⟩
    · simp only [held, hw, hsup]
      simpa using hstreams
    · simp only [hw] at ha
      cases ha
  · obtain ⟨hw, hq, hend⟩ := hh.asked hsup
    refine ⟨hh.caps, hh.at_, ?_, hanswered, fun _ => ⟨by simp only [hq]; exact hbuf, ?_, ?_, ?_⟩⟩
    · simp only [held, hw, hsup, hq]
      simpa using hstreams
    · simp only [if_true]
      rw [← MessageReader.length_view]
      exact isStatement_of_endsAt hend
    · simp only [if_true, MessageReader.length_view]
    · intro a ha
      have h1 := (h.answered a ha).le
      have h2 := packets_le s.app
      have h3 := List.length_pos_of_ne_nil hbuf
      simp only [List.length_append]
      omega

/-- A read sends the write held back, or answers the one statement it consists of. -/
theorem Inv.read {s s' : Wire} {r : Conn.Read} (h : Inv s) (ht : s.Tidy (.read r))
    (hs : s.step (.read r) = some s') : Inv s' := by
  rw [step, Option.some.injEq] at hs
  have hr := rep_SSL_read_spec s.conn r
  generalize s.conn.rep_SSL_read r = t at hs hr
  have hstreams := h.streams
  by_cases hidle : s.conn.awaiting = false ∨ r.cap = 0
  · -- nothing to settle
    obtain ⟨hres, haw⟩ := hr.idle hidle
    have hans : s.conn.answers r = false := by
      rcases hidle with hi | hi <;> simp [Conn.answers, hi]
    subst hs
    refine ⟨by rw [hr.req]; exact h.caps, by rw [hr.req]; exact h.at_, ?_, ?_, ?_⟩
    · simp only [held, hres, haw, hr.query, hans, List.append_nil]
      exact hstreams
    · simp only [hans, Bool.false_eq_true, if_false]
      exact h.answered
    · simp only [haw, hans, hr.req, hr.query]
      exact h.asked
  · rw [not_or, Bool.not_eq_false] at hidle
    obtain ⟨hwait, hcap⟩ := hidle
    obtain ⟨haw, hres⟩ := hr.settled hwait (Nat.pos_of_ne_zero hcap)
    obtain ⟨hqne, hstmt, hpos, hlt⟩ := h.asked hwait
    rw [held, if_pos hwait] at hstreams
    subst hs
    have hnowait : t.conn.awaiting ≠ true := by rw [haw]; decide
    refine ⟨by rw [hr.req]; exact h.caps, by rw [hr.req]; exact h.at_, ?_, ?_, fun ha => absurd ha hnowait⟩
    · simp only [held, if_neg hnowait, List.append_nil]
      by_cases hans : s.conn.answers r = true
      · obtain ⟨hview, hlast⟩ := ht.1 hans
        have hrest : (packets.split s.app).2 = [] := by
          obtain ⟨ms, hms⟩ := h.at_
          rw [hms, hview]; rfl
        obtain ⟨⟨m, q⟩, hget, hq⟩ := Option.map_eq_some_iff.mp hlast
        obtain rfl : q = s.conn.query := hq
        obtain ⟨ms, hms⟩ := List.getLast?_eq_some_iff.mp hget
        have hend : s.asked.1 = s.app.length := by rw [hpos, hview]; rfl
        have hcut := without_last (s.answered.map Prod.fst) (Prod.ext hms hrest) hqne
          (by simpa using fun e sql ha => hlt (e, sql) ha)
        rw [hres, if_pos hans, if_pos hans, List.append_nil, List.map_append, List.map_singleton, hend]
        exact List.append_cancel_right (hstreams.trans hcut.symm)
      · have hshort := ht.2 hwait (Nat.pos_of_ne_zero hcap) (Bool.not_eq_true _ ▸ hans)
        rw [hres, if_neg hans, if_neg hans, resend_of_lt hshort, hstreams]
    · simp only
      split_ifs
      · intro a ha
        rcases List.mem_append.mp ha with ha | ha
        · exact h.answered a ha
        · rw [List.mem_singleton.mp ha]; exact hstmt
      · exact h.answered

theorem inv_step (s : Wire) (c : Call) (s' : Wire) (h : Inv s) (ht : s.Tidy c)
    (hs : s.step c = some s') : Inv s' := by
  cases c with
  | write sw looks buf => exact h.write ht hs
  | read r => exact h.read ht hs

/-- However the application cuts its stream into writes, what reached the server is that stream less
    the packets of the statements answered from the cache — and less the write still held back, while
    a verdict is awaited. Each of those packets is a complete one and carries the statement. -/
theorem forwarded_stream {calls : List Call} {s : Wire} (ht : Along step Tidy {} calls)
    (hr : run step {} calls = some s) :
    s.sent ++ s.held = without s.app (s.answered.map Prod.fst) ∧
      ∀ a ∈ s.answered, IsStatement s.app a := by
  have h : Inv s := run_inv_along inv_step inv_init ht hr
  exact ⟨h.streams, h.answered⟩

/-! ### A statement in one write and in two

    The connection has learned its framing from one captured response when a statement the cache
    holds is written. -/

/-- The packet of the statement `q`. -/
def sampleQuery : Bytes := [2, 0, 0, 0, 3, 113]

def sampleWrite (cached : Bool) (buf : Bytes) : Call :=
  .write { list := [[113]] } (fun _ => { payload := cached, acquired := cached, posted := cached }) buf

def sampleWarm : List Call :=
  [sampleWrite false sampleQuery, .read { cap := 100, chunk := oneRow, fits := by decide }]

def sampleHit : Call :=
  .read { cap := 100, reply := some REPLY_OK, payload := some oneRow, fits := by decide }

theorem forwarded_stream_sample :
    ∃ s, run step {} (sampleWarm ++ [sampleWrite true sampleQuery, sampleHit]) = some s ∧
      s.answered = [(12, [113])] ∧
      s.sent ++ s.held = without s.app (s.answered.map Prod.fst) ∧
      ∀ a ∈ s.answered, IsStatement s.app a := by
  refine exists_run_of_map answered [(12, [113])] (by decide +kernel) ?_
  intro s hs ha
  exact ⟨ha, forwarded_stream (by decide +kernel) hs⟩

/-- The same statement written in two pieces and answered from the cache: the first piece was
    forwarded when it was written, so the server holds the beginning of a command. -/
theorem forwarded_partial_command :
    ∃ s, run step {} (sampleWarm ++ [sampleWrite true (sampleQuery.take 3),
        sampleWrite true (sampleQuery.drop 3), sampleHit]) = some s ∧
      s.conn.awaiting = false ∧ s.app = sampleQuery ++ sampleQuery ∧ s.answered = [(12, [113])] ∧
      s.sent = sampleQuery ++ sampleQuery.take 3 ∧
      s.sent ≠ without s.app (s.answered.map Prod.fst) := by
  refine exists_run_of_map (fun s => ((s.conn.awaiting, s.app), s.answered, s.sent))
    ((false, sampleQuery ++ sampleQuery), [(12, [113])], sampleQuery ++ sampleQuery.take 3)
    (by decide +kernel) ?_
  intro s _ he
  simp only [Prod.mk.injEq] at he
  obtain ⟨⟨hw, happ⟩, hans, hsent⟩ := he
  refine ⟨hw, happ, hans, hsent, ?_⟩
  rw [happ, hans, hsent]
  decide +kernel

end Wire

end Barnacle.Agent
