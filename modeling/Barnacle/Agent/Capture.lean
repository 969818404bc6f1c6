import Barnacle.Agent.Inference
import Barnacle.Agent.Settle

/-! A captured response. It is collected from the statement on until the tracker sees it end; what was
    collected by then is parsed, encoded canonically and handed to the daemon with the statement.
    `Capturing` is a capture under way, and `Capturing.reads` says what comes of it however the
    response is cut into reads: it is still on, or its end was seen and the bytes collected are some
    beginning of the response. -/

namespace Barnacle.Agent
open Barnacle.Lib Barnacle.Mysql

/-! ### The end of a capture -/

/-- The framing after a response has been captured. -/
def learned (whole : Bytes) (caps : UInt32) (known : Bool) : UInt32 × Bool :=
  if known then (caps, true)
  else
    match Conn.inferCaps whole with
    | some caps => (caps, true)
    | none => (caps, false)

/-- What is handed over for it, `t` being the tracker at its end. -/
def harvested (whole : Bytes) (caps : UInt32) (known : Bool) (t : ResponseTracker) : Option Bytes :=
  let l := learned whole caps known
  if t.poisoned || t.in_transaction || !l.2 then none
  else (parseResultSet whole l.1).map fun rs => encodeResultSet rs BNCL_CANONICAL_CAPS 1

theorem learn_learned (c : Conn) (whole : Bytes) :
    ((c.learn whole).caps, (c.learn whole).caps_known) = learned whole c.caps c.caps_known := by
  rw [Conn.learn, learned]
  by_cases hk : c.caps_known = true
  · rw [if_pos hk, if_pos hk, hk]
  · rw [if_neg hk, if_neg hk]
    rcases Conn.inferCaps whole with _ | caps
    · simp only [Prod.mk.injEq, true_and]
      simpa using hk
    · rfl

theorem harvest_harvested {c : Conn} (ht : c.in_txn = c.resp.in_transaction) :
    c.harvest.2 = harvested c.captured c.caps c.caps_known c.resp ∧ c.harvest.1.capturing = false ∧
      (c.harvest.1.caps, c.harvest.1.caps_known) = learned c.captured c.caps c.caps_known := by
  obtain ⟨d, hd⟩ : ∃ d : Conn, d = Conn.learn { c with capturing := false, captured := [] } c.captured :=
    ⟨_, rfl⟩
  have hl : (d.caps, d.caps_known) = learned c.captured c.caps c.caps_known := by
    rw [hd]
    exact learn_learned { c with capturing := false, captured := [] } c.captured
  have hcap : d.capturing = false := by
    rw [hd, Conn.learn]
    split_ifs
    · rfl
    · split <;> rfl
  obtain ⟨-, hresp, htxn, -⟩ := learn_spec { c with capturing := false, captured := [] } c.captured
  rw [← hd] at hresp htxn
  have hcaps : d.caps = (learned c.captured c.caps c.caps_known).1 := congrArg Prod.fst hl
  have hknown : d.caps_known = (learned c.captured c.caps c.caps_known).2 := congrArg Prod.snd hl
  rw [Conn.harvest, harvested, ← hd]
  dsimp only at hresp htxn ⊢
  rw [hresp, htxn, ht, hknown, hcaps]
  by_cases hno : (c.resp.poisoned || c.resp.in_transaction ||
      !(learned c.captured c.caps c.caps_known).2) = true
  · rw [if_pos hno, if_pos hno]
    exact ⟨rfl, hcap, hl⟩
  · rw [if_neg hno, if_neg hno]
    rcases parseResultSet c.captured (learned c.captured c.caps c.caps_known).1 with _ | rs
    · exact ⟨rfl, hcap, hl⟩
    · exact ⟨rfl, hcap, rfl⟩

/-! ### Watching a response in pieces -/

/-- Nothing that a capture goes by has changed. -/
structure Untouched (c c' : Conn) : Prop where
  capturing : c'.capturing = c.capturing
  captured : c'.captured = c.captured
  pending : c'.pending = c.pending
  caps : c'.caps = c.caps ∧ c'.caps_known = c.caps_known

theorem Untouched.refl (c : Conn) : Untouched c c := ⟨rfl, rfl, rfl, rfl, rfl⟩

theorem Untouched.trans {a b c : Conn} (h : Untouched a b) (h' : Untouched b c) : Untouched a c :=
  ⟨h'.capturing.trans h.capturing, h'.captured.trans h.captured, h'.pending.trans h.pending,
    h'.caps.1.trans h.caps.1, h'.caps.2.trans h.caps.2⟩

/-- One message: the response goes on, it ends and nothing is captured, or a capture ends. -/
theorem hear_cases (c : Conn) (m : Message) :
    let f := feedPayload c.resp m.payload
    (f.1 = false ∧ Untouched c (c.hear m).1 ∧ (c.hear m).2 = []) ∨
    (f.1 = true ∧ c.capturing = false ∧ Untouched c (c.hear m).1 ∧ (c.hear m).2 = []) ∨
    (f.1 = true ∧ c.capturing = true ∧ (c.hear m).1.capturing = false ∧
      ((c.hear m).1.caps, (c.hear m).1.caps_known) = learned c.captured c.caps c.caps_known ∧
      (c.hear m).2 = ((harvested c.captured c.caps c.caps_known f.2).map fun canon =>
        (c.pending, canon)).toList) := by
  intro f
  have hf : c.resp.feed m = f := feed_eq c.resp m
  rw [Conn.hear]
  dsimp only
  rw [hf]
  rcases hdone : f.1 with _ | _
  · exact .inl ⟨rfl, ⟨rfl, rfl, rfl, rfl, rfl⟩, rfl⟩
  · right
    simp only [Bool.not_true, Bool.false_eq_true, if_false]
    rcases hcap : c.capturing with _ | _
    · exact .inl ⟨trivial, rfl, ⟨hcap.symm, rfl, rfl, rfl, rfl⟩, rfl⟩
    · simp only [Bool.not_true, Bool.false_eq_true, if_false]
      obtain ⟨h1, h2, h3⟩ := harvest_harvested (c := { c with
        resp := f.2, in_txn := f.2.in_transaction, capturing := true }) rfl
      refine .inr ⟨trivial, trivial, h2, h3, ?_⟩
      exact congrArg (fun o => (Option.map (fun canon => (c.pending, canon)) o).toList) h1

/-- Not capturing, nothing is handed over. -/
theorem observeLoop_off (fuel : Nat) : ∀ {c : Conn}, c.capturing = false →
    Untouched c (c.observeLoop fuel).1 ∧ (c.observeLoop fuel).2 = [] := by
  induction fuel with
  | zero =>
    intro c _
    exact ⟨.refl c, rfl⟩
  | succ fuel ih =>
    intro c hoff
    rw [Conn.observeLoop]
    rcases c.rd.next with _ | ⟨m, rd⟩
    · exact ⟨.refl c, rfl⟩
    · dsimp only
      have hstep : Untouched c (Conn.hear { c with rd := rd } m).1 ∧
          (Conn.hear { c with rd := rd } m).2 = [] := by
        rcases hear_cases { c with rd := rd } m with ⟨-, hu, hh⟩ | ⟨-, -, hu, hh⟩ | ⟨-, hon, -⟩
        · exact ⟨⟨hu.capturing, hu.captured, hu.pending, hu.caps⟩, hh⟩
        · exact ⟨⟨hu.capturing, hu.captured, hu.pending, hu.caps⟩, hh⟩
        · rw [show c.capturing = true from hon] at hoff
          cases hoff
      obtain ⟨hu, hh⟩ := hstep
      obtain ⟨ihu, ihh⟩ := ih (hu.capturing.trans hoff)
      exact ⟨hu.trans ihu, by rw [hh, ihh]; rfl⟩

/-- What came of a capture: it goes on, or its end was seen with the tracker at `t`. -/
inductive Captures (c c' : Conn) (whole : Bytes) (handed : List (Bytes × Bytes)) :
    Option ResponseTracker → Prop
  | on (same : Untouched c c') (nothing : handed = []) : Captures c c' whole handed none
  | ended (t : ResponseTracker) (capturing : c'.capturing = false)
      (caps : (c'.caps, c'.caps_known) = learned whole c.caps c.caps_known)
      (harvest : handed = ((harvested whole c.caps c.caps_known t).map fun canon =>
        (c.pending, canon)).toList) : Captures c c' whole handed (some t)

theorem observeLoop_on (fuel : Nat) : ∀ {c : Conn}, c.rd.view.length < fuel → c.capturing = true →
    Captures c (c.observeLoop fuel).1 c.captured (c.observeLoop fuel).2
      (seen c.resp (payloads c.rd.view)) := by
  induction fuel with
  | zero =>
    intro c h
    exact absurd h (Nat.not_lt_zero _)
  | succ fuel ih =>
    intro c hfuel hon
    rw [Conn.observeLoop]
    rcases ht : takeMessage c.rd.view with _ | ⟨m, rest⟩
    · rw [next_of_view_none ht, payloads_of_none ht]
      exact .on (.refl c) rfl
    · obtain ⟨rd, hn, rfl⟩ := next_of_view ht
      have hlt := Framing.take_length_lt (F := packets) ht
      rw [hn, payloads_of_take ht, seen]
      dsimp only
      obtain ⟨-, hrd, htrack⟩ := hear_spec { c with rd := rd } m
      have hresp : (Conn.hear { c with rd := rd } m).1.resp = (feedPayload c.resp m.payload).2 := by
        rw [← feed_eq]
        exact congrArg Prod.fst htrack
      rcases hear_cases { c with rd := rd } m with ⟨hf, hu, hh⟩ | ⟨-, hoff, -⟩ | ⟨hf, -, hoff, hcaps, hh⟩
      · -- the response goes on
        have hf' : (feedPayload c.resp m.payload).1 = false := hf
        have hless : (Conn.hear { c with rd := rd } m).1.rd.view.length < fuel := by
          rw [hrd]
          show rd.view.length < fuel
          omega
        have ih := ih hless (hu.capturing.trans hon)
        rw [hresp, hrd, hu.captured] at ih
        rw [hf', if_neg (by decide), hh, List.nil_append]
        cases hseen : seen (feedPayload c.resp m.payload).2 (payloads rd.view) with
        | none =>
          rw [hseen] at ih
          cases ih with
          | on same handed =>
            exact .on (Untouched.trans ⟨hu.capturing, hu.captured, hu.pending, hu.caps⟩ same) handed
        | some t =>
          rw [hseen] at ih
          cases ih with
          | ended _ capturing caps handed =>
            rw [hu.caps.1, hu.caps.2] at caps handed
            rw [hu.pending] at handed
            exact .ended t capturing caps handed
      · rw [show c.capturing = false from hoff] at hon
        cases hon
      · -- the capture ends here, and nothing is handed over afterwards
        have hf' : (feedPayload c.resp m.payload).1 = true := hf
        obtain ⟨hu', hh'⟩ := observeLoop_off fuel hoff
        rw [if_pos hf']
        refine .ended _ (hu'.capturing.trans hoff) ?_ ?_
        · rw [hu'.caps.1, hu'.caps.2]
          exact hcaps
        · rw [hh', List.append_nil, hh]

/-- A capture that has got as far as `h`, of a response whose tracker began as `t`. -/
structure Capturing (c : Conn) (h : Bytes) (t : ResponseTracker) : Prop where
  on : c.capturing = true
  captured : c.captured = h
  view : c.rd.view = (packets.split h).2
  unseen : seen t (payloads h) = none
  resp : c.resp = after t (payloads h)

theorem payloads_append (h x : Bytes) :
    payloads (h ++ x) = payloads h ++ payloads ((packets.split h).2 ++ x) := by
  rw [payloads, Framing.split_append, List.map_append]
  rfl

/-- The tracker and the reader after a piece of a response. -/
theorem observe_after (c : Conn) (chunk : Bytes) :
    (c.observe chunk).1.resp = after c.resp (payloads (c.rd.view ++ chunk)) ∧
      (c.observe chunk).1.rd.view = (packets.split (c.rd.view ++ chunk)).2 := by
  obtain ⟨-, ho⟩ := observe_spec c chunk
  rw [Framing.feeds] at ho
  refine ⟨?_, congrArg Prod.snd ho⟩
  have hresp := congrArg (fun x => x.1.1) ho
  dsimp only at hresp
  rw [hresp, foldl_track, foldl_trackPayload, List.map_map]
  rfl

/-- One more piece: the capture goes on, or its end was in the piece. -/
theorem Capturing.observe {c : Conn} {h : Bytes} {t : ResponseTracker} (hc : Capturing c h t)
    (chunk : Bytes) :
    (Capturing (c.observe chunk).1 (h ++ chunk) t ∧ (c.observe chunk).1.pending = c.pending ∧
      (c.observe chunk).1.caps = c.caps ∧ (c.observe chunk).1.caps_known = c.caps_known ∧
      (c.observe chunk).2 = []) ∨
    ∃ t', seen t (payloads (h ++ chunk)) = some t' ∧ (c.observe chunk).1.capturing = false ∧
      ((c.observe chunk).1.caps, (c.observe chunk).1.caps_known) =
        learned (h ++ chunk) c.caps c.caps_known ∧
      (c.observe chunk).2 = ((harvested (h ++ chunk) c.caps c.caps_known t').map fun canon =>
        (c.pending, canon)).toList := by
  obtain ⟨hresp, hview⟩ := observe_after c chunk
  have hseen : seen t (payloads (h ++ chunk)) = seen c.resp (payloads (c.rd.view ++ chunk)) := by
    rw [payloads_append, seen_append, hc.unseen, hc.resp, hc.view]
    rfl
  have hcap : (if c.capturing then c.captured ++ chunk else c.captured) = h ++ chunk := by
    rw [if_pos hc.on, hc.captured]
  have hloop := observeLoop_on ((c.rd.append chunk).buffered + 1)
    (c := { c with rd := c.rd.append chunk, captured := h ++ chunk })
    (by rw [MessageReader.length_view]; exact Nat.lt_succ_self _) hc.on
  have heq : c.observe chunk = Conn.observeLoop ((c.rd.append chunk).buffered + 1)
      { c with rd := c.rd.append chunk, captured := h ++ chunk } := by
    rw [Conn.observe, hcap]
  rw [← heq, MessageReader.view_append, ← hseen] at hloop
  cases hs : seen t (payloads (h ++ chunk)) with
  | none =>
    rw [hs] at hloop
    cases hloop with
    | on same nothing =>
      refine .inl ⟨⟨same.capturing.trans hc.on, same.captured, ?_, hs, ?_⟩, same.pending, same.caps.1,
        same.caps.2, nothing⟩
      · rw [hview, hc.view]
        exact (congrArg Prod.snd (Framing.split_append h chunk)).symm
      · rw [hresp, hc.resp, hc.view, payloads_append h chunk, after_append]
  | some t' =>
    rw [hs] at hloop
    cases hloop with
    | ended _ capturing caps harvest => exact .inr ⟨t', rfl, capturing, caps, harvest⟩

theorem observe_off {c : Conn} (h : c.capturing = false) (chunk : Bytes) :
    Untouched c (c.observe chunk).1 ∧ (c.observe chunk).2 = [] := by
  have hcap : (if c.capturing then c.captured ++ chunk else c.captured) = c.captured :=
    if_neg (by rw [h]; decide)
  obtain ⟨hu, hh⟩ := observeLoop_off ((c.rd.append chunk).buffered + 1)
    (c := { c with rd := c.rd.append chunk }) h
  rw [Conn.observe, hcap]
  exact ⟨⟨hu.capturing, hu.captured, hu.pending, hu.caps⟩, hh⟩

/-! ### The reads of a response -/

/-- What the reads hand to the daemon, one after another. -/
def handedAll : Conn → List Conn.Read → List (Bytes × Bytes)
  | _, [] => []
  | c, r :: rs => (c.rep_SSL_read r).handed ++ handedAll (c.rep_SSL_read r).conn rs

/-- A read at rest watches what the server sent. -/
theorem Rests.watches {c : Conn} (h : Rests c) (r : Conn.Read) :
    (c.rep_SSL_read r).heard = r.chunk ∧
      (c.rep_SSL_read r).conn = (if r.chunk = [] then c else (c.observe r.chunk).1) ∧
      (c.rep_SSL_read r).handed = (if r.chunk = [] then [] else (c.observe r.chunk).2) := by
  have hdrain : (if r.cap > 0 then c.drainLocked r.cap else ([], c)) = ([], c) := by
    have hoff : c.owed_off ≥ c.owed.length := List.drop_eq_nil_iff.mp h.due
    rw [Conn.drainLocked, if_pos hoff]
    exact ite_self _
  rw [Conn.rep_SSL_read, settle_idle (.inl h.awaiting)]
  simp only [ne_eq, not_true_eq_false, if_false, Conn.readOn, hdrain]
  split_ifs with hchunk
  · exact ⟨hchunk.symm, rfl, rfl⟩
  · exact ⟨rfl, rfl, rfl⟩

/-- The reads of a response that is not captured. -/
theorem reads_off (rs : List Conn.Read) : ∀ {c : Conn}, Rests c → c.capturing = false →
    Untouched c (readAll c rs).1 ∧ handedAll c rs = [] := by
  induction rs with
  | nil =>
    intro c _ _
    exact ⟨.refl c, rfl⟩
  | cons r rs ih =>
    intro c h hoff
    obtain ⟨-, hconn, hhanded⟩ := h.watches r
    have hstep : Untouched c (c.rep_SSL_read r).conn ∧ (c.rep_SSL_read r).handed = [] := by
      rw [hconn, hhanded]
      split_ifs
      · exact ⟨.refl c, rfl⟩
      · exact observe_off hoff r.chunk
    obtain ⟨hu, hh⟩ := ih (h.read r).2.1 (hstep.1.capturing.trans hoff)
    exact ⟨hstep.1.trans hu, by rw [handedAll, hstep.2, hh]; rfl⟩

/-- The reads of a response that is captured: its end is seen or the capture is still on. What was
    captured when the end was seen is some of the response. -/
theorem Capturing.reads (rs : List Conn.Read) : ∀ {c : Conn} {h : Bytes} {t : ResponseTracker},
    Rests c → Capturing c h t →
    Capturing (readAll c rs).1 (h ++ (readAll c rs).2.1) t ∨
    ∃ whole t', payloads whole <+: payloads (h ++ (readAll c rs).2.1) ∧
      seen t (payloads whole) = some t' ∧ (readAll c rs).1.capturing = false ∧
      ((readAll c rs).1.caps, (readAll c rs).1.caps_known) = learned whole c.caps c.caps_known ∧
      handedAll c rs = ((harvested whole c.caps c.caps_known t').map fun canon =>
        (c.pending, canon)).toList := by
  induction rs with
  | nil =>
    intro c h t _ hc
    left
    rw [readAll, List.append_nil]
    exact hc
  | cons r rs ih =>
    intro c h t hrest hc
    obtain ⟨hheard, hconn, hhanded⟩ := hrest.watches r
    obtain ⟨-, hrest', -⟩ := hrest.read r
    rw [readAll, handedAll]
    dsimp only
    rw [hheard, ← List.append_assoc]
    by_cases hchunk : r.chunk = []
    · rw [if_pos hchunk] at hconn hhanded
      rw [hconn] at hrest' ⊢
      rw [hhanded, hchunk, List.append_nil, List.nil_append]
      exact ih hrest' hc
    · rw [if_neg hchunk] at hconn hhanded
      have hobs := hc.observe r.chunk
      rw [← hconn, ← hhanded] at hobs
      rcases hobs with ⟨hc', hpend, hcaps, hknown, hnone⟩ | ⟨t', hseen, hoff, hlearn, hharv⟩
      · rw [hnone, List.nil_append]
        rcases ih hrest' hc' with h1 | ⟨whole, t', h1, h2, h3, h4, h5⟩
        · exact .inl h1
        · rw [hcaps, hknown] at h4 h5
          rw [hpend] at h5
          exact .inr ⟨whole, t', h1, h2, h3, h4, h5⟩
      · -- the end was in this piece: nothing comes of the rest
        obtain ⟨hu, hh⟩ := reads_off rs hrest' hoff
        refine .inr ⟨h ++ r.chunk, t', ?_, hseen, hu.capturing.trans hoff, ?_, ?_⟩
        · rw [payloads_append (h ++ r.chunk)]
          exact List.prefix_append _ _
        · rw [hu.caps.1, hu.caps.2]
          exact hlearn
        · rw [hh, List.append_nil, hharv]

/-- A statement that was asked about and then sent: its reads are those of a captured one. -/
theorem asked_reads (rs : List Conn.Read) {c : Conn} (ha : c.awaiting = true) (hdue : c.due = [])
    (hq : c.query ≠ []) (hans : (readAll c rs).2.2 = false) (hidle : (readAll c rs).1.awaiting = false) :
    (readAll c rs).1 = (readAll c.resends rs).1 ∧ (readAll c rs).2.1 = (readAll c.resends rs).2.1 ∧
      handedAll c rs = handedAll c.resends rs := by
  induction rs with
  | nil =>
    rw [readAll, ha] at hidle
    cases hidle
  | cons r rs ih =>
    have hrests : Rests c.resends := ⟨rfl, hdue⟩
    obtain ⟨hheard, hconn, hhanded⟩ := hrests.watches r
    rw [readAll] at hans hidle
    dsimp only at hans hidle
    obtain ⟨hans0, hans⟩ := Bool.or_eq_false_iff.mp hans
    rw [readAll, readAll, handedAll, handedAll]
    dsimp only
    rcases Nat.eq_zero_or_pos r.cap with h0 | h0
    · -- a read without room changes nothing
      have hchunk : r.chunk = [] := List.eq_nil_of_length_eq_zero (by have := r.fits; omega)
      have hc : c.rep_SSL_read r = { conn := c } := by
        rw [Conn.rep_SSL_read, h0]
        simp [Conn.readOn, h0, hchunk]
      rw [if_pos hchunk] at hconn hhanded
      rw [hc] at hans hidle ⊢
      rw [hheard, hconn, hhanded, hchunk]
      obtain ⟨h1, h2, h3⟩ := ih hans hidle
      exact ⟨h1, by rw [h2], by rw [h3]⟩
    · have hnone : c.answer r.reply r.payload = none := by
        rw [Conn.answers, ha, decide_eq_true h0] at hans0
        simpa using hans0
      have hread : c.rep_SSL_read r = { c.resends.readOn r with resent := c.resend } := by
        rw [Conn.rep_SSL_read, if_pos h0, settle_resends ha hq hnone]
        simp only [ne_eq, not_true_eq_false, if_false]
      have hread' : c.resends.rep_SSL_read r = { c.resends.readOn r with resent := [] } := by
        rw [Conn.rep_SSL_read, if_pos h0]
        rfl
      rw [hread, hread']
      exact ⟨rfl, rfl, rfl⟩

/-- Neither a capture nor the framing has changed. -/
structure Unmoved (c c' : Conn) : Prop where
  capturing : c'.capturing = c.capturing
  caps : c'.caps = c.caps ∧ c'.caps_known = c.caps_known

theorem Unmoved.trans {a b c : Conn} (h : Unmoved a b) (h' : Unmoved b c) : Unmoved a c :=
  ⟨h'.capturing.trans h.capturing, h'.caps.1.trans h.caps.1, h'.caps.2.trans h.caps.2⟩

theorem drainLocked_unmoved (c : Conn) (cap : Nat) : Unmoved c (c.drainLocked cap).2 := by
  rw [Conn.drainLocked]
  split_ifs
  · exact ⟨rfl, rfl, rfl⟩
  · dsimp only
    split_ifs <;> exact ⟨rfl, rfl, rfl⟩

theorem readOn_silent {c : Conn} {r : Conn.Read} (h : (c.readOn r).heard = []) :
    (c.readOn r).handed = [] ∧ Unmoved c (c.readOn r).conn := by
  have hd : ∃ d, (if r.cap > 0 then c.drainLocked r.cap else ([], c)) = d ∧ Unmoved c d.2 := by
    refine ⟨_, rfl, ?_⟩
    split_ifs
    · exact drainLocked_unmoved c r.cap
    · exact ⟨rfl, rfl, rfl⟩
  obtain ⟨d, hd, hu⟩ := hd
  rw [Conn.readOn, hd] at h ⊢
  dsimp only at h ⊢
  split_ifs at h ⊢ with hgot hchunk
  · exact ⟨rfl, hu⟩
  · exact ⟨rfl, hu⟩
  · exact absurd h hchunk

/-- A read that hears nothing and sends nothing. -/
theorem read_silent {c : Conn} {r : Conn.Read} (hheard : (c.rep_SSL_read r).heard = [])
    (h : c.awaiting = false ∨ r.cap = 0 ∨ c.answers r = true) :
    (c.rep_SSL_read r).handed = [] ∧ Unmoved c (c.rep_SSL_read r).conn := by
  by_cases hidle : c.awaiting = false ∨ r.cap = 0
  · rw [Conn.rep_SSL_read, settle_idle hidle] at hheard ⊢
    exact readOn_silent hheard
  · rw [not_or, Bool.not_eq_false] at hidle
    obtain ⟨ha, hcap⟩ := hidle
    have hans := (h.resolve_left (by rw [ha]; decide)).resolve_left hcap
    have hcap : 0 < r.cap := Nat.pos_of_ne_zero hcap
    rw [Conn.answers, ha, decide_eq_true hcap] at hans
    obtain ⟨rs, hrs⟩ := Option.isSome_iff_exists.mp (show (c.answer r.reply r.payload).isSome = true from hans)
    rw [read_answers_eq ha hcap hrs]
    exact ⟨rfl, Unmoved.trans (b := c.owes rs) ⟨rfl, rfl, rfl⟩ (drainLocked_unmoved _ _)⟩

/-- A statement that was answered, with nothing of the server's read. -/
theorem silent_reads (rs : List Conn.Read) : ∀ {c : Conn}, (readAll c rs).2.1 = [] →
    (readAll c rs).2.2 = true ∨ c.awaiting = false →
    handedAll c rs = [] ∧ Unmoved c (readAll c rs).1 := by
  induction rs with
  | nil =>
    intro c _ _
    exact ⟨rfl, rfl, rfl, rfl⟩
  | cons r rs ih =>
    intro c hheard hans
    rw [readAll] at hheard hans
    dsimp only at hheard hans
    obtain ⟨hheard0, hheard⟩ := List.append_eq_nil_iff.mp hheard
    have hr := rep_SSL_read_spec c r
    -- this read answers, or the statement is still to be answered, or there is none
    have hcase : (c.awaiting = false ∨ r.cap = 0 ∨ c.answers r = true) ∧
        ((readAll (c.rep_SSL_read r).conn rs).2.2 = true ∨ (c.rep_SSL_read r).conn.awaiting = false) := by
      by_cases hidle : c.awaiting = false
      · exact ⟨.inl hidle, .inr ((hr.idle (.inl hidle)).2.trans hidle)⟩
      · have hans := hans.resolve_right hidle
        rcases Nat.eq_zero_or_pos r.cap with h0 | h0
        · have hno : c.answers r = false := by simp [Conn.answers, h0]
          rw [hno, Bool.false_or] at hans
          exact ⟨.inr (.inl h0), .inl hans⟩
        · have haw := (hr.settled (by simpa using hidle) h0).1
          rw [readAll_idle rs _ haw, Bool.or_false] at hans
          exact ⟨.inr (.inr hans), .inr haw⟩
    obtain ⟨hh, hu⟩ := read_silent hheard0 hcase.1
    obtain ⟨ihh, ihu⟩ := ih hheard hcase.2
    rw [handedAll, readAll, hh, ihh]
    exact ⟨rfl, hu.trans ihu⟩

end Barnacle.Agent
