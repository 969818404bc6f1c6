import Barnacle.Agent.Forwarding
import Barnacle.Agent.Transactions

/-! A suppressed write and the reads after it. `settle` gives the pipe back and then takes one of two
    ways: the response is owed to the application and the reads hand it over piece by piece, or the
    buffer held back is sent and the reads are the server's. `Effect` are the calls a read makes on
    the way, which is what "once" and "before" are about. -/

namespace Barnacle.Agent
open Barnacle.Lib Barnacle.Mysql
open Barnacle.Daemon (BNCL_STMT_MAX)

/-- A call of the agent: the pipe of a lookup goes back, the real functions are called, a captured
    response goes to the daemon on a pipe of its own. -/
inductive Effect
  | release
  | SSL_write (buf : Bytes) (num : Int)
  | SSL_read
  | store (sql canon : Bytes)
deriving DecidableEq, Repr

namespace Conn

/-- What is left of the response owed. -/
def due (c : Conn) : Bytes := c.owed.drop c.owed_off

/-- The calls of `settle`: the pipe goes back before anything else. -/
def settleEffects (c : Conn) (reply : Option UInt8) (payload : Option Bytes) : List Effect :=
  if !c.awaiting then []
  else
    .release ::
      match c.answer reply payload with
      | some _ => []
      | none => if c.query = [] then [] else [.SSL_write c.query (intOf c.query.length)]

/-- The calls of `rep_SSL_read`. -/
def readEffects (c : Conn) (r : Read) : List Effect :=
  let s := if r.cap > 0 then c.settle r.cap r.reply r.payload else { conn := c }
  let es := if r.cap > 0 then c.settleEffects r.reply r.payload else []
  if s.got ≠ [] then es
  else
    let d := if r.cap > 0 then s.conn.drainLocked r.cap else ([], s.conn)
    if d.1 ≠ [] then es
    else if r.chunk = [] then es ++ [.SSL_read]
    else es ++ .SSL_read :: (d.2.observe r.chunk).2.map fun p => .store p.1 p.2

end Conn

/-- Reads one after another: the connection, the bytes returned, those of them that are the server's,
    and the calls made. -/
structure Outcome where
  conn : Conn
  got : Bytes
  heard : Bytes
  effects : List Effect

def readsOf : Conn → List Conn.Read → Outcome
  | c, [] => ⟨c, [], [], []⟩
  | c, r :: rs =>
    let t := c.rep_SSL_read r
    let o := readsOf t.conn rs
    ⟨o.conn, t.got ++ o.got, t.heard ++ o.heard, c.readEffects r ++ o.effects⟩

/-- The room of the reads together. -/
def room (rs : List Conn.Read) : Nat := (rs.map Conn.Read.cap).sum

variable {c : Conn}

/-! ### One read -/

theorem drainLocked_due (c : Conn) (cap : Nat) :
    (c.drainLocked cap).1 = c.due.take cap ∧ (c.drainLocked cap).2.due = c.due.drop cap := by
  have hlen : c.due.length = c.owed.length - c.owed_off := List.length_drop
  rw [Conn.drainLocked]
  split_ifs with h
  · have hnil : c.due = [] := List.eq_nil_of_length_eq_zero (by omega)
    simp [hnil]
  · dsimp only
    have htake : (c.owed.drop c.owed_off).take (min (c.owed.length - c.owed_off) cap) = c.due.take cap := by
      rw [← Conn.due, Nat.min_comm, ← List.take_take, ← hlen, List.take_length]
    refine ⟨htake, ?_⟩
    split_ifs with hend
    · -- all of it is handed over
      rw [List.drop_of_length_le (by omega)]
      rfl
    · have hcap : min (c.owed.length - c.owed_off) cap = cap := by omega
      rw [Conn.due, Conn.due, List.drop_drop]
      simp only [hcap]

/-- Nothing is asked about, or the call has no room: there is nothing to settle. -/
theorem settle_idle {r : Conn.Read} (h : c.awaiting = false ∨ r.cap = 0) :
    (if r.cap > 0 then c.settle r.cap r.reply r.payload else { conn := c }) =
      ({ conn := c } : Conn.Taken) := by
  rcases h with h | h
  · rw [Conn.settle, h]
    exact ite_self _
  · rw [h]
    rfl

theorem settleEffects_idle {r : Conn.Read} (h : c.awaiting = false) :
    (if r.cap > 0 then c.settleEffects r.reply r.payload else []) = [] := by
  rw [Conn.settleEffects, h]
  exact ite_self _

/-- A read with nothing to settle and something owed. -/
theorem read_due {r : Conn.Read} (ha : c.awaiting = false) (hdue : c.due ≠ []) (hcap : 0 < r.cap) :
    let t := c.rep_SSL_read r
    t.got = c.due.take r.cap ∧ t.heard = [] ∧ c.readEffects r = [] ∧ t.conn.awaiting = false ∧
      t.conn.due = c.due.drop r.cap := by
  obtain ⟨hgot, hrest⟩ := drainLocked_due c r.cap
  obtain ⟨-, haw, -⟩ := drainLocked_spec c r.cap
  have hne : (c.drainLocked r.cap).1 ≠ [] := by
    rw [hgot]
    obtain ⟨x, xs, hx⟩ := List.exists_cons_of_ne_nil hdue
    obtain ⟨n, hn⟩ : ∃ n, r.cap = n + 1 := ⟨r.cap - 1, by omega⟩
    rw [hx, hn]
    simp
  have ht : c.rep_SSL_read r = { conn := (c.drainLocked r.cap).2, got := (c.drainLocked r.cap).1 } := by
    rw [Conn.rep_SSL_read, settle_idle (.inl ha)]
    simp only [ne_eq, not_true_eq_false, if_false, Conn.readOn, if_pos hcap, if_pos hne]
  have heff : c.readEffects r = [] := by
    rw [Conn.readEffects, settle_idle (.inl ha), settleEffects_idle ha]
    simp only [ne_eq, not_true_eq_false, if_false, if_pos hcap, if_pos hne]
  intro t
  have : t = _ := ht
  rw [this]
  exact ⟨hgot, rfl, heff, haw.trans ha, hrest⟩

/-- A connection that awaits nothing and owes nothing. -/
structure Rests (c : Conn) : Prop where
  awaiting : c.awaiting = false
  due : c.due = []

/-- A read by a connection at rest is the server's. -/
theorem Rests.readOn (h : Rests c) (r : Conn.Read) :
    (c.readOn r).got = (c.readOn r).heard ∧ Rests (c.readOn r).conn := by
  obtain ⟨hgot, hrest⟩ := drainLocked_due c r.cap
  obtain ⟨-, haw, -⟩ := drainLocked_spec c r.cap
  rw [h.due, List.take_nil] at hgot
  rw [h.due, List.drop_nil] at hrest
  have hd : ∃ d, (if r.cap > 0 then c.drainLocked r.cap else ([], c)) = ([], d) ∧ Rests d := by
    split_ifs
    · exact ⟨_, Prod.ext hgot rfl, haw.trans h.awaiting, hrest⟩
    · exact ⟨c, rfl, h⟩
  obtain ⟨d, hd, hd'⟩ := hd
  rw [Conn.readOn, hd]
  simp only [ne_eq, not_true_eq_false, if_false]
  split_ifs
  · exact ⟨rfl, hd'⟩
  · obtain ⟨hw, -⟩ := observe_spec d r.chunk
    refine ⟨rfl, hw.awaiting.trans hd'.awaiting, ?_⟩
    rw [Conn.due, hw.owed.1, hw.owed.2]
    exact hd'.due

/-- The calls of a read, behind those of `settle`, when nothing is owed. -/
theorem Rests.effects (h : Rests c) (r : Conn.Read) (es : List Effect) :
    ∃ es', (let d := if r.cap > 0 then c.drainLocked r.cap else ([], c)
      if d.1 ≠ [] then es
      else if r.chunk = [] then es ++ [.SSL_read]
      else es ++ .SSL_read :: (d.2.observe r.chunk).2.map fun p => .store p.1 p.2) = es ++ es' ∧
      ∀ e ∈ es', e = .SSL_read ∨ ∃ sql canon, e = .store sql canon := by
  obtain ⟨hgot, -⟩ := drainLocked_due c r.cap
  rw [h.due, List.take_nil] at hgot
  have hd : (if r.cap > 0 then c.drainLocked r.cap else ([], c)).1 = [] := by
    split_ifs
    · exact hgot
    · rfl
  generalize (if r.cap > 0 then c.drainLocked r.cap else ([], c)) = d at hd
  dsimp only
  rw [if_neg (not_not_intro hd)]
  split_ifs
  · exact ⟨_, rfl, by simp⟩
  · refine ⟨_, rfl, ?_⟩
    intro e he
    rcases List.mem_cons.mp he with rfl | he
    · exact .inl rfl
    · obtain ⟨p, -, rfl⟩ := List.mem_map.mp he
      exact .inr ⟨_, _, rfl⟩

theorem Rests.read (h : Rests c) (r : Conn.Read) :
    (c.rep_SSL_read r).got = (c.rep_SSL_read r).heard ∧ Rests (c.rep_SSL_read r).conn ∧
      ∀ e ∈ c.readEffects r, e = .SSL_read ∨ ∃ sql canon, e = .store sql canon := by
  have hs := settle_idle (.inl h.awaiting : c.awaiting = false ∨ r.cap = 0)
  obtain ⟨es, hes, hall⟩ := h.effects r []
  obtain ⟨hgot, hrest⟩ := h.readOn r
  refine ⟨?_, ?_, ?_⟩
  · rw [Conn.rep_SSL_read, hs]
    exact hgot
  · rw [Conn.rep_SSL_read, hs]
    exact hrest
  · rw [Conn.readEffects, hs, settleEffects_idle h.awaiting]
    simp only [ne_eq, not_true_eq_false, if_false] at hes ⊢
    rw [hes]
    exact hall

/-- The connection once the response has been owed. -/
def Conn.owes (c : Conn) (rs : ResultSet) : Conn :=
  { c with
    awaiting := false, owed := encodeResultSet rs c.caps (c.last_seq + 1), owed_off := 0, pending := [] }

theorem settle_answers {cap : Nat} {reply : Option UInt8} {payload : Option Bytes} {rs : ResultSet}
    (ha : c.awaiting = true) (hans : c.answer reply payload = some rs) :
    c.settle cap reply payload =
      { conn := ((c.owes rs).drainLocked cap).2, got := ((c.owes rs).drainLocked cap).1 } := by
  have hans' : Conn.answer { c with awaiting := false } reply payload = some rs := hans
  rw [Conn.settle, ha, Conn.owes]
  simp only [Bool.not_true, Bool.false_eq_true, if_false, hans']

/-- Something of the response is returned at once. -/
theorem owes_drains {cap : Nat} (rs : ResultSet) (hcap : 0 < cap) :
    ((c.owes rs).drainLocked cap).1 ≠ [] :=
  drainLocked_ne_nil (encodeResultSet_ne_nil _ _ _) rfl hcap

theorem read_answers_eq {r : Conn.Read} {rs : ResultSet} (ha : c.awaiting = true) (hcap : 0 < r.cap)
    (hans : c.answer r.reply r.payload = some rs) :
    c.rep_SSL_read r = { conn := ((c.owes rs).drainLocked r.cap).2,
                         got := ((c.owes rs).drainLocked r.cap).1 } := by
  rw [Conn.rep_SSL_read, if_pos hcap, settle_answers ha hans]
  simp only [if_pos (owes_drains rs hcap)]

/-- The read that settles a statement answered from the cache. -/
theorem read_answers {r : Conn.Read} {rs : ResultSet} (ha : c.awaiting = true) (hcap : 0 < r.cap)
    (hans : c.answer r.reply r.payload = some rs) :
    let enc := encodeResultSet rs c.caps (c.last_seq + 1)
    let t := c.rep_SSL_read r
    t.got = enc.take r.cap ∧ t.heard = [] ∧ c.readEffects r = [.release] ∧ t.conn.awaiting = false ∧
      t.conn.due = enc.drop r.cap := by
  intro enc t
  obtain ⟨hgot, hrest⟩ := drainLocked_due (c.owes rs) r.cap
  obtain ⟨-, haw, -⟩ := drainLocked_spec (c.owes rs) r.cap
  have ht : t = _ := read_answers_eq ha hcap hans
  have heff : c.readEffects r = [.release] := by
    rw [Conn.readEffects, if_pos hcap, if_pos hcap, settle_answers ha hans]
    simp only [if_pos (owes_drains rs hcap)]
    rw [Conn.settleEffects, ha]
    simp only [Bool.not_true, Bool.false_eq_true, if_false, hans]
  rw [ht]
  exact ⟨hgot, rfl, heff, haw, hrest⟩

/-- The connection once the buffer held back has been sent: the response is captured. -/
def Conn.resends (c : Conn) : Conn :=
  { c with awaiting := false, captured := [], rd := c.rd.reset, capturing := true }

theorem settle_resends {cap : Nat} {reply : Option UInt8} {payload : Option Bytes}
    (ha : c.awaiting = true) (hq : c.query ≠ []) (hans : c.answer reply payload = none) :
    c.settle cap reply payload = { conn := c.resends, resent := c.resend } := by
  have hans' : Conn.answer { c with awaiting := false } reply payload = none := hans
  rw [Conn.settle, ha, Conn.resends]
  simp only [Bool.not_true, Bool.false_eq_true, if_false, hans', if_neg hq, Conn.resend]

/-- The read that settles a statement that has to go to the server. -/
theorem read_resends {r : Conn.Read} (ha : c.awaiting = true) (hcap : 0 < r.cap) (hdue : c.due = [])
    (hq : c.query ≠ []) (hans : c.answer r.reply r.payload = none) :
    let t := c.rep_SSL_read r
    t.got = t.heard ∧ Rests t.conn ∧
      ∃ es, c.readEffects r = .release :: .SSL_write c.query (intOf c.query.length) :: es ∧
        ∀ e ∈ es, e = .SSL_read ∨ ∃ sql canon, e = .store sql canon := by
  intro t
  have hrests : Rests c.resends := ⟨rfl, hdue⟩
  have hsettle : c.settle r.cap r.reply r.payload = _ := settle_resends ha hq hans
  obtain ⟨hgot, hrest⟩ := hrests.readOn r
  obtain ⟨es, hes, hall⟩ := hrests.effects r (.release :: [.SSL_write c.query (intOf c.query.length)])
  have ht : t = { c.resends.readOn r with resent := c.resend } := by
    show c.rep_SSL_read r = _
    rw [Conn.rep_SSL_read, if_pos hcap, hsettle]
    simp only [ne_eq, not_true_eq_false, if_false]
  refine ⟨by rw [ht]; exact hgot, by rw [ht]; exact hrest, es, ?_, hall⟩
  rw [Conn.readEffects, if_pos hcap, if_pos hcap, hsettle, Conn.settleEffects, ha]
  simp only [Bool.not_true, Bool.false_eq_true, if_false, hans, if_neg hq, ne_eq, not_true_eq_false]
    at hes ⊢
  exact hes

/-! ### The reads after -/

/-- Read as long as something is owed: what comes back is what was owed, in order, and no call is
    made. -/
theorem readsOf_due (rs : List Conn.Read) : ∀ {c : Conn}, c.awaiting = false →
    (∀ r ∈ rs, 0 < r.cap) → (rs ≠ [] → room rs.dropLast < c.due.length) →
    (readsOf c rs).got = c.due.take (room rs) ∧ (readsOf c rs).effects = [] ∧
      (readsOf c rs).conn.awaiting = false ∧ (readsOf c rs).conn.due = c.due.drop (room rs) := by
  induction rs with
  | nil =>
    intro c ha _ _
    exact ⟨rfl, rfl, ha, rfl⟩
  | cons r rs ih =>
    intro c ha hcap hroom
    have hlt := hroom (List.cons_ne_nil _ _)
    have hdue : c.due ≠ [] := by
      intro h
      rw [h] at hlt
      exact Nat.not_lt_zero _ hlt
    obtain ⟨hgot, -, heff, ha', hdue'⟩ := read_due ha hdue (hcap r List.mem_cons_self)
    obtain ⟨ih1, ih2, ih3, ih4⟩ := ih ha' (fun x hx => hcap x (List.mem_cons_of_mem _ hx)) (by
      intro hne
      rw [List.dropLast_cons_of_ne_nil hne] at hlt
      rw [hdue', List.length_drop]
      simp only [room, List.map_cons, List.sum_cons] at hlt ⊢
      omega)
    have hsum : room (r :: rs) = r.cap + room rs := by simp [room]
    rw [readsOf]
    dsimp only
    refine ⟨?_, by rw [heff, ih2]; rfl, ih3, ?_⟩
    · rw [hgot, ih1, hdue', hsum, List.take_add]
    · rw [ih4, hdue', List.drop_drop, hsum]

/-- At rest, every byte is the server's and nothing is settled. -/
theorem readsOf_rests (rs : List Conn.Read) : ∀ {c : Conn}, Rests c →
    (readsOf c rs).got = (readsOf c rs).heard ∧ Rests (readsOf c rs).conn ∧
      ∀ e ∈ (readsOf c rs).effects, e = .SSL_read ∨ ∃ sql canon, e = .store sql canon := by
  induction rs with
  | nil =>
    intro c h
    exact ⟨rfl, h, by simp [readsOf]⟩
  | cons r rs ih =>
    intro c h
    obtain ⟨hgot, hrest, hall⟩ := h.read r
    obtain ⟨ih1, ih2, ih3⟩ := ih hrest
    rw [readsOf]
    dsimp only
    refine ⟨by rw [hgot, ih1], ih2, ?_⟩
    intro e he
    rcases List.mem_append.mp he with he | he
    · exact hall e he
    · exact ih3 e he

/-- A statement answered from the cache, read until the reads have it all. -/
theorem readsOf_answers {r : Conn.Read} {rs : List Conn.Read} {rset : ResultSet}
    (ha : c.awaiting = true) (hcap : ∀ x ∈ r :: rs, 0 < x.cap)
    (hans : c.answer r.reply r.payload = some rset) :
    let enc := encodeResultSet rset c.caps (c.last_seq + 1)
    let o := readsOf c (r :: rs)
    room (r :: rs).dropLast < enc.length →
      o.got = enc.take (room (r :: rs)) ∧ o.effects = [.release] ∧
      (enc.length ≤ room (r :: rs) → o.got = enc ∧ Rests o.conn) := by
  intro enc o hroom
  obtain ⟨hgot, -, heff, ha', hdue⟩ := read_answers ha (hcap r List.mem_cons_self) hans
  replace hdue : (c.rep_SSL_read r).conn.due = enc.drop r.cap := hdue
  have hsum : room (r :: rs) = r.cap + room rs := by simp [room]
  have hleft : rs ≠ [] → room rs.dropLast < (c.rep_SSL_read r).conn.due.length := by
    intro hne
    rw [List.dropLast_cons_of_ne_nil hne] at hroom
    rw [hdue, List.length_drop]
    simp only [room, List.map_cons, List.sum_cons] at hroom ⊢
    omega
  obtain ⟨hgot', heff', ha'', hdue'⟩ :=
    readsOf_due rs ha' (fun x hx => hcap x (List.mem_cons_of_mem _ hx)) hleft
  have hall : o.got = enc.take (room (r :: rs)) := by
    rw [hsum, List.take_add]
    show (c.rep_SSL_read r).got ++ (readsOf (c.rep_SSL_read r).conn rs).got = _
    rw [hgot, hgot', hdue]
  refine ⟨hall, ?_, fun hle => ⟨?_, ha'', ?_⟩⟩
  · show c.readEffects r ++ (readsOf (c.rep_SSL_read r).conn rs).effects = _
    rw [heff, heff']
    rfl
  · rw [hall, List.take_of_length_le hle]
  · show (readsOf (c.rep_SSL_read r).conn rs).conn.due = []
    rw [hdue', hdue, List.drop_drop]
    exact List.drop_of_length_le (by rw [← hsum]; exact hle)

/-- A statement that has to go to the server. -/
theorem readsOf_resends {r : Conn.Read} (rs : List Conn.Read) (ha : c.awaiting = true)
    (hcap : 0 < r.cap) (hdue : c.due = []) (hq : c.query ≠ [])
    (hans : c.answer r.reply r.payload = none) :
    let o := readsOf c (r :: rs)
    o.got = o.heard ∧ Rests o.conn ∧
      ∃ es, o.effects = .release :: .SSL_write c.query (intOf c.query.length) :: es ∧
        ∀ e ∈ es, e = .SSL_read ∨ ∃ sql canon, e = .store sql canon := by
  obtain ⟨hgot, hrests, es, hes, hall⟩ := read_resends ha hcap hdue hq hans
  obtain ⟨hgot', hrests', hall'⟩ := readsOf_rests rs hrests
  rw [readsOf]
  dsimp only
  refine ⟨by rw [hgot, hgot'], hrests', es ++ (readsOf (c.rep_SSL_read r).conn rs).effects, ?_, ?_⟩
  · rw [hes]
    rfl
  · intro e he
    rcases List.mem_append.mp he with he | he
    · exact hall e he
    · exact hall' e he

/-! ### The write before -/

/-- `consider` asks only about a statement the table can key, and owes nothing new. -/
theorem consider_ask {sw : Switches} {look : Look} {buf sql : Bytes}
    (h : (c.consider sw look buf sql).1 = .ask) : keyed sql = true ∧
      (c.consider sw look buf sql).2.due = c.due ∧ (c.consider sw look buf sql).2.awaiting = true ∧
      (c.consider sw look buf sql).2.query = buf := by
  rw [Conn.consider] at h ⊢
  dsimp only at h ⊢
  split_ifs at h ⊢ with hon hlist htxn hpayload hpipe hpost
  have hkey : (keyed sql && look.acquired) = true := by simpa using hpipe
  exact ⟨(Bool.and_eq_true_iff.mp hkey).1, rfl, rfl, rfl⟩

/-- A command that is complete with this write and suppressed: its text can be keyed. -/
theorem suppressed_cases {sw : Switches} {looks : Nat → Look} {buf : Bytes} {m : Message}
    (hm : takeMessage (c.req.reader.view ++ buf) = some (m, []))
    (hsup : (c.handleWrite sw looks buf).suppress = true) :
    ∃ sql, extractQuery m.payload c.req.caps = some sql ∧ keyed sql = true ∧
      (c.handleWrite sw looks buf).conn.due = c.due ∧
      (c.handleWrite sw looks buf).conn.awaiting = true ∧
      (c.handleWrite sw looks buf).conn.query = buf := by
  obtain ⟨t, hv, hcaps, hn⟩ := RequestTracker.next_of_one
    (t := { c.req with reader := c.req.reader.append buf }) (m := m)
    (by rw [MessageReader.view_append]; exact hm)
  rw [Conn.handleWrite, RequestTracker.feed, hn] at hsup ⊢
  dsimp only at hcaps hsup ⊢
  rcases hq : extractQuery m.payload c.req.caps with _ | sql
  · rw [hq] at hsup
    cases hsup
  · rw [hq] at hsup
    dsimp only at hsup ⊢
    refine ⟨sql, rfl, ?_⟩
    have hcon := consider_spec sw (looks 0) buf { c with req := t } sql
    have hask := @consider_ask { c with req := t } sw (looks 0) buf sql
    rw [Conn.handleLoop] at hsup ⊢
    generalize Conn.consider sw (looks 0) buf { c with req := t } sql = r at hcon hask hsup
    obtain ⟨a, c'⟩ := r
    dsimp only at hsup hask hcon ⊢
    by_cases ha : a = .ask
    · rw [if_pos ha]
      exact hask ha
    · have hnext : c'.req.next = (none, c'.req) := by
        rw [hcon.req]
        exact RequestTracker.next_of_none (by rw [hv]; rfl)
      rw [if_neg ha, hnext] at hsup
      cases hsup

/-- So its buffer is short, and the cast to `int` changes nothing. -/
theorem suppressed_short {sw : Switches} {looks : Nat → Look} {buf : Bytes} {m : Message}
    (hc : c.req.caps = baseCaps) (hm : takeMessage (c.req.reader.view ++ buf) = some (m, []))
    (hsup : (c.handleWrite sw looks buf).suppress = true) : intOf buf.length = buf.length := by
  obtain ⟨sql, hsql, hkey, -⟩ := suppressed_cases hm hsup
  rw [hc, extractQuery_base] at hsql
  split_ifs at hsql
  have hlen := takeMessage_length hm
  have hkey' : sql.length ≤ BNCL_STMT_MAX - 1 := by simpa [keyed] using hkey
  rw [← Option.some.inj hsql, List.length_drop] at hkey'
  rw [List.length_append] at hlen
  simp only [BNCL_STMT_MAX] at hkey'
  exact Int.bmod_eq_of_le (by omega) (by omega)

/-- The reply confirms the payload, the framing is known, and the payload found is this result set. -/
def Conn.Serves (c : Conn) (r : Conn.Read) (rset : ResultSet) : Prop :=
  r.reply = some REPLY_OK ∧ c.caps_known = true ∧
    ∃ canon, r.payload = some canon ∧ parseResultSet canon BNCL_CANONICAL_CAPS = some rset

theorem answer_eq_some {r : Conn.Read} {rset : ResultSet} :
    c.answer r.reply r.payload = some rset ↔ c.Serves r rset := by
  rw [Conn.answer, Conn.Serves]
  split_ifs with h
  · rw [Option.bind_eq_some_iff]
    exact ⟨fun hp => ⟨h.1, h.2, hp⟩, fun hp => hp.2.2⟩
  · exact ⟨by simp, fun hp => absurd ⟨hp.1, hp.2.1⟩ h⟩

instance (c : Conn) : Decidable (Rests c) :=
  decidable_of_iff (c.awaiting = false ∧ c.due = []) ⟨fun h => ⟨h.1, h.2⟩, fun h => ⟨h.1, h.2⟩⟩

namespace Wire

/-- Strict use: a write comes when no verdict is awaited and everything owed has been read, and it
    does not go beyond the command it belongs to. -/
def Strict (s : Wire) : Call → Prop
  | .write _ _ buf => buf = [] ∨
      Rests s.conn ∧ ∀ mr ∈ takeMessage (s.conn.req.reader.view ++ buf), mr.2 = []
  | .read _ => True

instance (s : Wire) : ∀ c, Decidable (s.Strict c)
  | .write _ _ _ => inferInstanceAs (Decidable (_ ∨ _ ∧ _))
  | .read _ => inferInstanceAs (Decidable True)

theorem caps_step {s s' : Wire} {l : Call} (h : s.conn.req.caps = baseCaps)
    (hs : s.step l = some s') : s'.conn.req.caps = baseCaps := by
  cases l with
  | write sw looks buf =>
    rw [step, Option.some.injEq] at hs
    subst hs
    simp only [Conn.rep_SSL_write]
    by_cases hbuf : buf = []
    · rw [if_pos hbuf]
      exact h
    · rw [if_neg hbuf]
      exact (handleWrite_spec sw looks buf h Framing.At.refl).caps
  | read r =>
    rw [step, Option.some.injEq] at hs
    subst hs
    simp only [(rep_SSL_read_spec s.conn r).req]
    exact h

/-- A write that is suppressed in strict use, and the reads after it. Either the payload found is
    served: read until they have it all, the reads return its encoding for this connection, and the
    only call made is the one that gives the pipe back. Or the pipe goes back, the buffer is handed to
    the real `SSL_write` as it was, once and before the server is read, and every byte returned is the
    server's. -/
theorem suppressed_write_settled {calls : List Call} {s : Wire} {sw : Switches}
    {looks : Nat → Look} {buf : Bytes} (hrun : run step {} calls = some s)
    (hstrict : Along step Strict {} (calls ++ [.write sw looks buf]))
    (hsup : (s.conn.rep_SSL_write sw looks buf).1.suppress = true)
    (r : Conn.Read) (rs : List Conn.Read) (hcap : ∀ x ∈ r :: rs, 0 < x.cap) :
    let c := (s.conn.rep_SSL_write sw looks buf).1.conn
    let o := readsOf c (r :: rs)
    (∃ rset, c.Serves r rset ∧
      let enc := encodeResultSet rset c.caps (c.last_seq + 1)
      room (r :: rs).dropLast < enc.length →
        o.got = enc.take (room (r :: rs)) ∧ o.effects = [.release] ∧
        (enc.length ≤ room (r :: rs) → o.got = enc ∧ Rests o.conn)) ∨
    ((∀ rset, ¬c.Serves r rset) ∧ o.got = o.heard ∧ Rests o.conn ∧
      ∃ es, o.effects = .release :: .SSL_write buf buf.length :: es ∧
        ∀ e ∈ es, e = .SSL_read ∨ ∃ sql canon, e = .store sql canon) := by
  intro c o
  have hbuf : buf ≠ [] := by
    rintro rfl
    rw [Conn.rep_SSL_write, if_pos rfl] at hsup
    cases hsup
  have hw : (s.conn.rep_SSL_write sw looks buf).1 = s.conn.handleWrite sw looks buf := by
    rw [Conn.rep_SSL_write, if_neg hbuf]
  have hcaps : s.conn.req.caps = baseCaps :=
    run_inv (I := fun v => v.conn.req.caps = baseCaps) (fun _ _ _ h hs => caps_step h hs) rfl hrun
  obtain ⟨hrest, hone⟩ := (hstrict.later hrun).1.resolve_left hbuf
  rw [hw] at hsup
  -- the write completes the command, or it could not have been suppressed
  rcases hm : takeMessage (s.conn.req.reader.view ++ buf) with _ | ⟨m, rest⟩
  · rw [handleWrite_incomplete sw looks hm] at hsup
    cases hsup
  obtain rfl : rest = [] := hone _ hm
  obtain ⟨-, -, -, hdue, ha, hq⟩ := suppressed_cases hm hsup
  have hshort := suppressed_short hcaps hm hsup
  have hcw : c = (s.conn.handleWrite sw looks buf).conn := by rw [← hw]
  rw [← hcw] at hdue ha hq
  rw [hrest.due] at hdue
  rcases hans : c.answer r.reply r.payload with _ | rset
  · right
    obtain ⟨hgot, hrests, es, hes, hall⟩ := readsOf_resends rs ha (hcap r List.mem_cons_self) hdue
      (by rw [hq]; exact hbuf) hans
    refine ⟨fun rset hserves => ?_, hgot, hrests, es, ?_, hall⟩
    · rw [answer_eq_some.mpr hserves] at hans
      cases hans
    · rw [hes, hq, hshort]
  · left
    exact ⟨rset, answer_eq_some.mp hans, readsOf_answers ha hcap hans⟩

/-- The result set in `oneRow`. -/
def sampleSet : ResultSet := ⟨[⟨[], [], [], [], [110], [], 0, 0, 3, 0, 0⟩], [[some [49]]], 0, 0⟩

/-- The connection after a write of `sampleQuery`, which the cache has. -/
def sampleSuppressed (s : Wire) : Conn.Handled :=
  (s.conn.rep_SSL_write { list := [[113]] }
    (fun _ => { payload := true, acquired := true, posted := true }) sampleQuery).1

/-- The reads of the response: four bytes, then the rest. -/
def sampleFirst : Conn.Read :=
  { cap := 4, reply := some REPLY_OK, payload := some oneRow, fits := by decide }

def sampleRest : List Conn.Read := [{ cap := 96, fits := by decide }]

theorem suppressed_write_settled_sample :
    ∃ s c, run step {} sampleWarm = some s ∧ c = (sampleSuppressed s).conn ∧
      (readsOf c (sampleFirst :: sampleRest)).effects = [.release] ∧
      (readsOf c (sampleFirst :: sampleRest)).got = encodeResultSet sampleSet c.caps (c.last_seq + 1) := by
  have h : (run step {} sampleWarm).map (fun s => ((sampleSuppressed s).suppress,
      (sampleSuppressed s).conn.caps_known, decide (4 < (encodeResultSet sampleSet
        (sampleSuppressed s).conn.caps ((sampleSuppressed s).conn.last_seq + 1)).length) &&
      decide ((encodeResultSet sampleSet (sampleSuppressed s).conn.caps
        ((sampleSuppressed s).conn.last_seq + 1)).length ≤ 100))) = some (true, true, true) := by
    decide +kernel
  obtain ⟨s, hs, h⟩ := Option.map_eq_some_iff.mp h
  simp only [Prod.mk.injEq, Bool.and_eq_true, decide_eq_true_eq] at h
  obtain ⟨hsup, hknown, hlt, hle⟩ := h
  have hparse : parseResultSet oneRow BNCL_CANONICAL_CAPS = some sampleSet := by decide +kernel
  refine ⟨s, _, hs, rfl, ?_⟩
  rcases suppressed_write_settled hs (by decide +kernel) hsup sampleFirst sampleRest (by decide) with
    ⟨rset, ⟨-, -, canon, hcanon, hset⟩, h⟩ | ⟨hno, -⟩
  · cases hcanon
    rw [hparse] at hset
    cases hset
    obtain ⟨-, heff, hall⟩ := h hlt
    exact ⟨heff, (hall hle).1⟩
  · exact absurd ⟨rfl, hknown, oneRow, rfl, hparse⟩ (hno sampleSet)

end Wire

end Barnacle.Agent
