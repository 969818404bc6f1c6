import Barnacle.Daemon.Model

/-! A client copying a payload while the daemon publishes another (`lookupPayload` in
    `src/uclient/shared.cpp`, `keep`, `store` and `serve` in `src/daemon/main.cpp`), one word at a
    time. The daemon fills a block, retires the old one, and then writes pointer, length, times and
    state; a miss clears pointer, length and time. The client looks at state, pointer, length and age,
    and then takes pointer and length once more for the copy. Nothing holds the two together, so what
    the client copies is one whole payload only if it takes pointer and length outside these writes
    and the block is not retired under it. -/

namespace Barnacle.Daemon
open Barnacle.Lib Barnacle.Arena

/-- A payload being published: its block, its bytes, and what goes into the record with it. -/
structure Job where
  p : Nat
  body : Bytes
  ttl : UInt32
  ts : UInt64
  now : UInt64
deriving DecidableEq, Repr

/-- What the daemon writes next. -/
inductive Writer
  | idle
  | retire (j : Job)
  | data (j : Job)
  | len (j : Job)
  | ttl (j : Job)
  | ts (j : Job)
  | state
  | clearData
  | clearLen
  | clearTs
deriving DecidableEq, Repr

/-- What the client reads next. A lookup that returns false leads back to `idle`. -/
inductive Reader
  | idle
  | state
  | data
  | len
  | age
  | ptr
  | size (p : Nat)
  | copy (p n : Nat) (out : Bytes)
  | done (out : Bytes)
deriving DecidableEq, Repr

/-- One record, with the arena its payloads live in. -/
structure Shared where
  heap : World := {}
  st : Stmt := {}
  writer : Writer := .idle
  reader : Reader := .idle
  /-- the payloads stored or fetched for this statement -/
  published : List Bytes := []
  /-- the blocks that were allocated for them and have not been retired -/
  mine : List Nat := []

namespace Shared

/-- `store` and a successful fetch begin with `keep`. -/
def keep (s : Shared) (body : Bytes) (ttl : UInt32) (ts now : UInt64) : Option Shared :=
  if s.writer = .idle ∧ body ≠ [] ∧ body.length < 2 ^ 63 then
    if s.st.data ≠ 0 ∧ s.st.data_len = body.length ∧
        s.heap.arena.mem.read s.st.data body.length = body then
      some { s with published := body :: s.published, writer := .data ⟨s.st.data, body, ttl, ts, now⟩ }
    else
      let r := s.heap.put body
      match r.1 with
      | none => some { s with heap := r.2 }
      | some p => some { s with
          heap := r.2
          published := body :: s.published
          mine := p :: s.mine
          writer := if s.st.data ≠ 0 then .retire ⟨p, body, ttl, ts, now⟩
            else .data ⟨p, body, ttl, ts, now⟩ }
  else none

/-- The daemon's next write. -/
def write (s : Shared) : Option Shared :=
  match s.writer with
  | .idle => none
  | .retire j => some { s with
      heap := s.heap.retire s.st.data j.now
      mine := s.mine.filter (· ≠ s.st.data)
      writer := .data j }
  | .data j => some { s with st := { s.st with data := j.p }, writer := .len j }
  | .len j => some { s with st := { s.st with data_len := j.body.length }, writer := .ttl j }
  | .ttl j => some { s with st := { s.st with ttl := j.ttl }, writer := .ts j }
  | .ts j => some { s with st := { s.st with ts := j.ts }, writer := .state }
  | .state => some { s with st := { s.st with state := .STMT_S_LOCAL }, writer := .idle }
  | .clearData => some { s with st := { s.st with data := 0 }, writer := .clearLen }
  | .clearLen => some { s with st := { s.st with data_len := 0 }, writer := .clearTs }
  | .clearTs => some { s with st := { s.st with ts := 0 }, writer := .idle }

/-- `lookupPayload` finds the payload too old. -/
def aged (st : Stmt) (now : UInt64) : Bool :=
  st.ttl ≠ 0 && st.ts ≠ 0 && now > st.ts && (now - st.ts) / 1000000000 > st.ttl.toUInt64

/-- The client's next read. -/
def read (s : Shared) (now : UInt64) : Option Shared :=
  match s.reader with
  | .idle | .done _ => none
  | .state => some { s with reader := if s.st.state = .STMT_S_LOCAL then .data else .idle }
  | .data => some { s with reader := if s.st.data ≠ 0 then .len else .idle }
  | .len => some { s with reader := if s.st.data_len ≠ 0 then .age else .idle }
  | .age => some { s with reader := if aged s.st now then .idle else .ptr }
  | .ptr => some { s with reader := .size s.st.data }
  | .size p => some { s with reader := .copy p s.st.data_len [] }
  | .copy p n out => some { s with
      reader := if out.length < n then .copy p n (out ++ [s.heap.arena.mem (p + out.length)])
        else .done out }

inductive Step
  | keep (body : Bytes) (ttl : UInt32) (ts now : UInt64)
  | miss
  | write
  /-- the arena is used for other statements -/
  | heap (c : Call)
  | lookupPayload
  | read (now : UInt64)

/-- Each step; other statements have other blocks. -/
def step (s : Shared) : Step → Option Shared
  | .keep body ttl ts now => s.keep body ttl ts now
  | .miss => if s.writer = .idle then some { s with writer := .clearData } else none
  | .write => s.write
  | .heap c =>
    if ∀ p ∈ s.mine, c.Avoids p then (s.heap.step c).map fun w => { s with heap := w } else none
  | .lookupPayload =>
    match s.reader with
    | .idle | .done _ => some { s with reader := .state }
    | _ => none
  | .read now => s.read now

/-- `loadStatements` has published the record, with no payload. -/
def start (mem : Mem) (len : Nat) : Shared := { heap := World.apply {} (.init (some mem) len) }

/-! ### Undisturbed, the writes add up to what `store` and `serve` do -/

section Undisturbed
variable {s : Shared} {body : Bytes} {ttl : UInt32} {ts now : UInt64}

theorem run_data {j : Job} (hw : s.writer = .data j) :
    run step s (List.replicate 5 .write) =
      some { s with st := s.st.publish j.p j.body.length j.ttl j.ts, writer := .idle } := by
  simp only [List.replicate, run, step, write, hw, Option.bind_some, Stmt.publish]

theorem run_retire {j : Job} (hw : s.writer = .retire j) :
    run step s (List.replicate 6 .write) =
      some { s with
        heap := s.heap.retire s.st.data j.now
        mine := s.mine.filter (· ≠ s.st.data)
        st := s.st.publish j.p j.body.length j.ttl j.ts
        writer := .idle } := by
  rw [List.replicate_succ, run, step, write, hw, Option.bind_some]
  exact run_data rfl

theorem run_keep (hidle : s.writer = .idle) (hne : body ≠ []) (hlen : body.length < 2 ^ 63) {q : Nat}
    (hq : (Daemon.keep s.heap s.st body now).1 = some q) :
    ∃ n s', run step s (.keep body ttl ts now :: List.replicate n .write) = some s' ∧
      s'.heap = (Daemon.keep s.heap s.st body now).2 ∧
      s'.st = s.st.publish q body.length ttl ts ∧ s'.writer = .idle := by
  have first : ∀ s₁ n, s.keep body ttl ts now = some s₁ →
      run step s (.keep body ttl ts now :: List.replicate n .write) =
        run step s₁ (List.replicate n .write) := fun s₁ n h => by
    rw [run, step, h, Option.bind_some]
  unfold Daemon.keep at hq ⊢
  by_cases hsame : s.st.data ≠ 0 ∧ s.st.data_len = body.length ∧
      s.heap.arena.mem.read s.st.data body.length = body
  · rw [if_pos hsame] at hq ⊢
    cases hq
    have hk : s.keep body ttl ts now = some { s with
        published := body :: s.published, writer := .data ⟨s.st.data, body, ttl, ts, now⟩ } := by
      rw [keep, if_pos ⟨hidle, hne, hlen⟩, if_pos hsame]
    exact ⟨5, _, (first _ 5 hk).trans (run_data rfl), rfl, rfl, rfl⟩
  · rw [if_neg hsame] at hq ⊢
    have hq : (s.heap.put body).1 = some q := hq
    by_cases h0 : s.st.data = 0
    · have hk : s.keep body ttl ts now = some { s with
          heap := (s.heap.put body).2, published := body :: s.published, mine := q :: s.mine
          writer := .data ⟨q, body, ttl, ts, now⟩ } := by
        rw [keep, if_pos ⟨hidle, hne, hlen⟩, if_neg hsame]
        simp only [hq, h0, ne_eq, not_true_eq_false, if_false]
      refine ⟨5, _, (first _ 5 hk).trans (run_data rfl), ?_, rfl, rfl⟩
      simp only [h0, ne_eq, not_true_eq_false, and_false, if_false]
    · have hk : s.keep body ttl ts now = some { s with
          heap := (s.heap.put body).2, published := body :: s.published, mine := q :: s.mine
          writer := .retire ⟨q, body, ttl, ts, now⟩ } := by
        rw [keep, if_pos ⟨hidle, hne, hlen⟩, if_neg hsame]
        simp only [hq, h0, ne_eq, not_false_eq_true, if_true]
      refine ⟨6, _, (first _ 6 hk).trans (run_retire rfl), ?_, rfl, rfl⟩
      simp only [hq, h0, Option.isSome_some, ne_eq, not_false_eq_true, and_self, if_true]

theorem run_miss (hidle : s.writer = .idle) :
    run step s (.miss :: List.replicate 3 .write) =
      some { s with st := { s.st with data := 0, data_len := 0, ts := 0 } } := by
  simp only [List.replicate, run, step, write, hidle, if_true, Option.bind_some]

end Undisturbed

/-! ### What holds between the two -/

/-- The record's pointer and length do not belong together: the old block is retired and the pointer
    still there, the pointer is written and the length is not, or the pointer is cleared and the
    length is not. -/
def torn (s : Shared) : Bool :=
  match s.writer with
  | .data j => s.st.data ≠ j.p
  | .len j => s.st.data_len ≠ j.body.length
  | .clearLen => true
  | _ => false

/-- The block at `p` holds one payload, whole, of `n` bytes. -/
def Whole (s : Shared) (p n : Nat) : Prop :=
  ∃ body ∈ s.published, n = body.length ∧ s.heap.Stores p body

/-- The job the daemon is at, while its block is not in the record yet. -/
def pending? (s : Shared) : Option Job :=
  match s.writer with
  | .retire j | .data j | .len j => some j
  | _ => none

/-- What the client knows. -/
def Knows (s : Shared) : Reader → Prop
  | .size p => p ∈ s.mine ∧ s.Whole p s.st.data_len ∧
      (s.st.data = p ∧ s.torn = false ∨ s.writer = .clearLen)
  | .copy p n out => p ∈ s.mine ∧ ∃ body ∈ s.published, n = body.length ∧ s.heap.Stores p body ∧
      out <+: body
  | .done out => out ∈ s.published
  | _ => True

structure Inv (s : Shared) : Prop where
  valid : ∃ bs fl rl, s.heap.Valid bs fl rl
  pending : ∀ j, s.pending? = some j → j.p ∈ s.mine ∧ j.body ∈ s.published ∧ s.heap.Stores j.p j.body
  retiring : ∀ j, s.writer = .retire j → s.st.data ≠ 0 ∧ j.p ≠ s.st.data
  reused : ∀ j, s.writer = .data j → s.st.data = j.p → s.st.data_len = j.body.length
  written : ∀ j, s.writer = .len j → s.st.data = j.p
  cleared : s.writer = .clearLen → s.st.data = 0
  record : s.torn = false → s.st.data ≠ 0 → s.st.data ∈ s.mine ∧ s.Whole s.st.data s.st.data_len
  reader : s.Knows s.reader

variable {s s' : Shared}

theorem live_ne_zero {w : World} (h : ∃ bs fl rl, w.Valid bs fl rl) {p : Nat} (hp : p ∈ w.live) :
    p ≠ 0 := by
  obtain ⟨bs, fl, rl, hv⟩ := h
  obtain ⟨b, -, -, -, rfl⟩ := hv.block hp
  simp [HDR]

theorem Whole.live {p n : Nat} (h : s.Whole p n) : p ∈ s.heap.live := by
  obtain ⟨_, _, _, hst⟩ := h
  exact hst.live

/-- What was stored in the blocks of this record stays there, and payloads stay published. -/
structure Grows (s s' : Shared) : Prop where
  published : ∀ b ∈ s.published, b ∈ s'.published
  stores : ∀ p b, p ∈ s'.mine → s.heap.Stores p b → s'.heap.Stores p b

theorem Whole.grow {p n : Nat} (h : s.Whole p n) (hg : Grows s s') (hp : p ∈ s'.mine) :
    s'.Whole p n := by
  obtain ⟨b, hb, e, hst⟩ := h
  exact ⟨b, hg.published b hb, e, hg.stores p b hp hst⟩

/-- A client that is past the pointer keeps what it knows while its block is not retired. -/
theorem Knows.grow {r : Reader} (h : s.Knows r) (hg : Grows s s')
    (hmine : ∀ p, r = .size p ∨ (∃ n out, r = .copy p n out) → p ∈ s.mine → p ∈ s'.mine)
    (hsize : ∀ p, r = .size p → s'.st.data_len = s.st.data_len ∧
      (s.st.data = p ∧ s.torn = false ∨ s.writer = .clearLen →
        s'.st.data = p ∧ s'.torn = false ∨ s'.writer = .clearLen)) : s'.Knows r := by
  cases r with
  | size p =>
    obtain ⟨hp, hw, ht⟩ := h
    obtain ⟨e, hk⟩ := hsize p rfl
    have hp' := hmine p (.inl rfl) hp
    refine ⟨hp', ?_, hk ht⟩
    rw [e]
    exact hw.grow hg hp'
  | copy p n out =>
    obtain ⟨hp, b, hb, e, hst, hout⟩ := h
    have hp' := hmine p (.inr ⟨n, out, rfl⟩) hp
    exact ⟨hp', b, hg.published b hb, e, hg.stores p b hp' hst, hout⟩
  | done out => exact hg.published out h
  | _ => trivial

theorem Grows.of_heap (hp : s'.published = s.published) (hw : s'.heap = s.heap) : Grows s s' :=
  ⟨fun b hb => by rw [hp]; exact hb, fun p b _ hst => by rw [hw]; exact hst⟩

namespace Inv

/-- While the daemon is idle the client's pointer is the record's. -/
theorem size_idle (hidle : s.writer = .idle) {p : Nat}
    (h : s.st.data = p ∧ s.torn = false ∨ s.writer = .clearLen) : s.st.data = p :=
  h.elim And.left fun h => by rw [hidle] at h; cases h

/-- `keep` finds the bytes there already. -/
theorem reuse (h : s.Inv) (hidle : s.writer = .idle) {j : Job} (hp : s.st.data = j.p)
    (h0 : s.st.data ≠ 0) (hl : s.st.data_len = j.body.length)
    (hread : s.heap.arena.mem.read s.st.data j.body.length = j.body)
    (hs : s' = { s with published := j.body :: s.published, writer := .data j }) : s'.Inv := by
  have htorn : s.torn = false := by rw [torn, hidle]
  obtain ⟨hmine, b, hb, e, hst⟩ := h.record htorn h0
  have hbody : b = j.body := by rw [← hst.read, ← hread, ← e, ← hl]
  subst hs
  have hg : Grows s { s with published := j.body :: s.published, writer := .data j } :=
    ⟨fun _ hb => List.mem_cons_of_mem _ hb, fun _ _ _ hst => hst⟩
  refine ⟨h.valid, ?_, ?_, ?_, ?_, ?_, fun _ _ => ?_, h.reader.grow hg (fun _ _ hp => hp) ?_⟩
  · rintro j ⟨⟩
    rw [← hp, ← hbody]
    exact ⟨hmine, List.mem_cons_self, hst⟩
  · rintro j ⟨⟩
  · rintro j ⟨⟩ -; exact hl
  · rintro j ⟨⟩
  · rintro ⟨⟩
  · exact ⟨hmine, Whole.grow ⟨b, hb, e, hst⟩ hg hmine⟩
  · exact fun p _ => ⟨rfl, fun ht => .inl ⟨size_idle hidle ht, by simp [torn, hp]⟩⟩

/-- `keep` has filled a new block. -/
theorem fresh (h : s.Inv) (hidle : s.writer = .idle) {j : Job} {w : World}
    (hw : s.heap.step (.put j.body) = some w) (hp : j.p ∉ s.heap.live) (h0 : j.p ≠ 0)
    (hst : w.Stores j.p j.body)
    (hs : s' = { s with heap := w, published := j.body :: s.published, mine := j.p :: s.mine,
                        writer := if s.st.data ≠ 0 then .retire j else .data j }) : s'.Inv := by
  have htorn : s.torn = false := by rw [torn, hidle]
  obtain ⟨bs, fl, rl, hv⟩ := h.valid
  obtain ⟨bs', fl', rl', hv', -⟩ := World.valid_step hv hw
  have hheap : s'.heap = w := by rw [hs]
  have hrec : s'.st = s.st := by rw [hs]
  have hm : ∀ {q}, q ∈ s.mine → q ∈ s'.mine := fun hq => by rw [hs]; exact List.mem_cons_of_mem _ hq
  have hg : Grows s s' := ⟨fun b hb => by rw [hs]; exact List.mem_cons_of_mem _ hb,
    fun q b _ hq => by rw [hheap]; exact hq.step (c := .put j.body) hv trivial hw⟩
  have hwr : s'.writer = if s.st.data ≠ 0 then .retire j else .data j := by rw [hs]
  have hown : s'.heap.Stores j.p j.body := by rw [hheap]; exact hst
  have htorn' : s.st.data ≠ 0 → s'.torn = false := fun hd => by rw [torn, hwr, if_pos hd]
  refine ⟨⟨bs', fl', rl', by rw [hheap]; exact hv'⟩, fun i hi => ?_, fun i hi => ?_,
    fun i hi hd => ?_, fun i hi => ?_, fun hi => ?_, fun _ hd => ?_, ?_⟩
  · obtain rfl : i = j := by
      rw [pending?, hwr] at hi
      by_cases hd : s.st.data = 0 <;> simp only [hd, ne_eq, not_true_eq_false, not_false_eq_true,
        if_true, if_false, Option.some.injEq] at hi <;> exact hi.symm
    refine ⟨?_, ?_, hown⟩ <;> rw [hs] <;> exact List.mem_cons_self
  · rw [hwr] at hi
    split at hi <;> cases hi
    next hd =>
      rw [hrec]
      exact ⟨hd, fun e => hp (e ▸ (h.record htorn hd).2.live)⟩
  · rw [hwr] at hi
    split at hi <;> cases hi
    next hz =>
      rw [hrec] at hd
      exact absurd (hd.symm.trans (not_not.mp hz)) h0
  · rw [hwr] at hi; split at hi <;> cases hi
  · rw [hwr] at hi; split at hi <;> cases hi
  · rw [hrec] at hd ⊢
    obtain ⟨hmine, hwh⟩ := h.record htorn hd
    exact ⟨hm hmine, hwh.grow hg (hm hmine)⟩
  · rw [show s'.reader = s.reader by rw [hs]]
    refine h.reader.grow hg (fun q _ => hm) fun q hq => ⟨by rw [hrec], fun ht => .inl ?_⟩
    have hk := h.reader
    rw [hq] at hk
    have hd : s.st.data ≠ 0 := by
      rw [size_idle hidle ht]
      exact live_ne_zero h.valid hk.2.1.live
    exact ⟨by rw [hrec]; exact size_idle hidle ht, htorn' hd⟩

theorem keep {body : Bytes} {ttl : UInt32} {ts now : UInt64} (h : s.Inv)
    (hs : s.keep body ttl ts now = some s') : s'.Inv := by
  unfold Shared.keep at hs
  split at hs
  next hguard =>
    obtain ⟨hidle, -, hlen⟩ := hguard
    split at hs
    next hsame =>
      obtain ⟨h0, hl, hread⟩ := hsame
      exact h.reuse (j := ⟨s.st.data, body, ttl, ts, now⟩) hidle rfl h0 hl hread (Option.some.inj hs).symm
    next =>
      obtain ⟨bs, fl, rl, hv⟩ := h.valid
      dsimp only at hs
      rcases World.put_spec hv hlen with e | ⟨p, e, hp, h0, -, hst⟩
      · rw [e] at hs
        cases hs
        exact h
      · rw [e] at hs
        exact h.fresh (j := ⟨p, body, ttl, ts, now⟩) hidle (if_pos hlen) hp h0 hst (Option.some.inj hs).symm
  next => cases hs

/-- The old block is retired; nobody is reading it. -/
theorem retire (h : s.Inv) {j : Job} (hw : s.writer = .retire j)
    (hfree : ∀ p, s.reader = .size p ∨ (∃ n out, s.reader = .copy p n out) → p ≠ s.st.data)
    (hs : s' = { s with heap := s.heap.retire s.st.data j.now,
                        mine := s.mine.filter (· ≠ s.st.data), writer := .data j }) : s'.Inv := by
  obtain ⟨h0, hne⟩ := h.retiring j hw
  obtain ⟨hjm, hjp, hjs⟩ := h.pending j (by rw [pending?, hw])
  obtain ⟨bs, fl, rl, hv⟩ := h.valid
  have hlive := (h.record (by rw [torn, hw]) h0).2.live
  have hstep : s.heap.step (.retire s.st.data j.now) = some (s.heap.retire s.st.data j.now) :=
    if_pos (Or.inr hlive)
  obtain ⟨bs', fl', rl', hv', -⟩ := World.valid_step hv hstep
  have hheap : s'.heap = s.heap.retire s.st.data j.now := by rw [hs]
  have hmem : ∀ {q}, q ∈ s'.mine ↔ q ∈ s.mine ∧ q ≠ s.st.data := fun {q} => by
    rw [hs, List.mem_filter, decide_eq_true_eq]
  have hg : Grows s s' := ⟨fun b hb => by rw [hs]; exact hb, fun q b hq hst => by
    rw [hheap]; exact hst.step (c := .retire s.st.data j.now) hv (hmem.mp hq).2.symm hstep⟩
  have hwr : s'.writer = .data j := by rw [hs]
  have hrec : s'.st = s.st := by rw [hs]
  have hj : j.p ∈ s'.mine := hmem.mpr ⟨hjm, hne⟩
  refine ⟨⟨bs', fl', rl', by rw [hheap]; exact hv'⟩, fun i hi => ?_, fun i hi => ?_,
    fun i hi hd => ?_, fun i hi => ?_, fun hi => ?_, fun ht => ?_, ?_⟩
  · rw [pending?, hwr] at hi
    cases hi
    exact ⟨hj, hg.published _ hjp, hg.stores _ _ hj hjs⟩
  · rw [hwr] at hi; cases hi
  · rw [hwr] at hi
    cases hi
    rw [hrec] at hd
    exact absurd hd.symm hne
  · rw [hwr] at hi; cases hi
  · rw [hwr] at hi; cases hi
  · rw [torn, hwr, hrec] at ht
    simp only [ne_eq, decide_not, Bool.not_eq_eq_eq_not, Bool.not_false, decide_eq_true_eq] at ht
    exact absurd ht.symm hne
  · rw [show s'.reader = s.reader by rw [hs]]
    refine h.reader.grow hg (fun q hq hm => hmem.mpr ⟨hm, hfree q hq⟩) fun q hq => ?_
    have hk := h.reader
    rw [hq] at hk
    rcases hk.2.2 with ⟨e, -⟩ | e
    · exact absurd e.symm (hfree q (.inl hq))
    · rw [hw] at e; cases e

/-- A write into the record. -/
theorem field (h : s.Inv) {st : Stmt} {wr : Writer} (hs : s' = { s with st := st, writer := wr })
    (hpend : ∀ i, s'.pending? = some i → s.pending? = some i)
    (hret : ∀ i, wr ≠ .retire i) (hreu : ∀ i, wr ≠ .data i)
    (hwri : ∀ i, wr = .len i → st.data = i.p) (hcle : wr = .clearLen → st.data = 0)
    (hrec : s'.torn = false → st.data ≠ 0 → st.data ∈ s.mine ∧ s.Whole st.data st.data_len)
    (hsize : ∀ p, s.reader = .size p → st.data_len = s.st.data_len ∧
      (s.st.data = p ∧ s.torn = false ∨ s.writer = .clearLen →
        st.data = p ∧ s'.torn = false ∨ wr = .clearLen)) : s'.Inv := by
  subst hs
  have hg : Grows s { s with st := st, writer := wr } := .of_heap rfl rfl
  exact ⟨h.valid, fun i hi => h.pending i (hpend i hi), fun i hi => absurd hi (hret i),
    fun i hi => absurd hi (hreu i), hwri, hcle, fun ht hd => hrec ht hd,
    h.reader.grow hg (fun _ _ hp => hp) hsize⟩

theorem write (h : s.Inv)
    (hretire : ∀ j, s.writer = .retire j → ∀ p,
      s.reader = .size p ∨ (∃ n out, s.reader = .copy p n out) → p ≠ s.st.data)
    (hclear : s.writer = .clearLen → ∀ p, s.reader ≠ .size p)
    (hs : s.write = some s') : s'.Inv := by
  have done : s.torn = false → s.st.data ≠ 0 → s.st.data ∈ s.mine ∧ s.Whole s.st.data s.st.data_len :=
    h.record
  unfold Shared.write at hs
  cases hw : s.writer <;> rw [hw] at hs <;> cases hs
  case retire j => exact h.retire hw (hretire j hw) rfl
  case data j =>
    obtain ⟨hm, hb, hst⟩ := h.pending j (by rw [pending?, hw])
    refine h.field rfl (by simp [pending?, hw]) (by simp) (by simp) (by simp) (by simp)
      (fun ht _ => ?_) fun p hp => ⟨rfl, fun ht => .inl ?_⟩
    · have e : s.st.data_len = j.body.length := by simpa [torn] using ht
      exact ⟨hm, j.body, hb, e, hst⟩
    · rcases ht with ⟨e, ht⟩ | e
      · have e' : s.st.data = j.p := by simpa [torn, hw] using ht
        exact ⟨e'.symm.trans e, by simpa [torn] using h.reused j hw e'⟩
      · rw [hw] at e; cases e
  case len j =>
    obtain ⟨hm, hb, hst⟩ := h.pending j (by rw [pending?, hw])
    have e := h.written j hw
    refine h.field rfl (by simp [pending?]) (by simp) (by simp) (by simp) (by simp)
      (fun _ _ => ?_) fun p hp => ?_
    · exact ⟨by rw [e]; exact hm, j.body, hb, rfl, by rw [e]; exact hst⟩
    · have hk := h.reader
      rw [hp] at hk
      rcases hk.2.2 with ⟨ed, ht⟩ | e'
      · have el : s.st.data_len = j.body.length := by simpa [torn, hw] using ht
        exact ⟨el.symm, fun _ => .inl ⟨ed, rfl⟩⟩
      · rw [hw] at e'; cases e'
  case clearData =>
    refine h.field rfl (by simp [pending?]) (by simp) (by simp) (by simp) (by simp)
      (fun _ h0 => absurd rfl h0) fun p hp => ⟨rfl, fun _ => .inr rfl⟩
  case clearLen =>
    refine h.field rfl (by simp [pending?]) (by simp) (by simp) (by simp) (by simp)
      (fun _ h0 => absurd (h.cleared hw) h0) fun p hp => absurd hp (hclear hw p)
  all_goals
    have ht : s.torn = false := by rw [torn, hw]
    refine h.field rfl (by simp [pending?]) (by simp) (by simp) (by simp) (by simp)
      (fun _ h0 => done ht h0) fun p hp => ⟨rfl, fun hk => .inl ?_⟩
    rcases hk with ⟨e, -⟩ | e
    · exact ⟨e, rfl⟩
    · rw [hw] at e; cases e

/-- The arena serves other statements. -/
theorem other (h : s.Inv) {c : Call} {w : World} (hc : ∀ p ∈ s.mine, c.Avoids p)
    (hw : s.heap.step c = some w) : Inv { s with heap := w } := by
  obtain ⟨bs, fl, rl, hv⟩ := h.valid
  obtain ⟨bs', fl', rl', hv', -⟩ := World.valid_step hv hw
  have hg : Grows s { s with heap := w } :=
    ⟨fun _ hb => hb, fun p b hp hst => hst.step hv (hc p hp) hw⟩
  refine ⟨⟨bs', fl', rl', hv'⟩, fun j hj => ?_, h.retiring, h.reused, h.written, h.cleared,
    fun ht h0 => ?_, h.reader.grow hg (fun _ _ hp => hp) fun _ _ => ⟨rfl, id⟩⟩
  · obtain ⟨hm, hb, hst⟩ := h.pending j hj
    exact ⟨hm, hb, hg.stores _ _ hm hst⟩
  · obtain ⟨hm, hwh⟩ := h.record ht h0
    exact ⟨hm, hwh.grow hg hm⟩

theorem turn (h : s.Inv) {r : Reader} (hr : s.Knows r) : Inv { s with reader := r } := by
  refine ⟨h.valid, h.pending, h.retiring, h.reused, h.written, h.cleared, h.record, ?_⟩
  cases r <;> exact hr

theorem read {now : UInt64} (h : s.Inv)
    (hptr : s.reader = .ptr → s.torn = false ∧ s.st.data ≠ 0) (hs : s.read now = some s') :
    s'.Inv := by
  have hk := h.reader
  unfold Shared.read at hs
  cases hr : s.reader <;> rw [hr] at hs hk <;> cases hs
  case ptr =>
    obtain ⟨ht, h0⟩ := hptr hr
    obtain ⟨hm, hw⟩ := h.record ht h0
    exact h.turn ⟨hm, hw, .inl ⟨rfl, ht⟩⟩
  case size p =>
    obtain ⟨hm, ⟨b, hb, e, hst⟩, -⟩ := hk
    exact h.turn ⟨hm, b, hb, e, hst, List.nil_prefix⟩
  case copy p n out =>
    obtain ⟨hm, b, hb, rfl, hst, hout⟩ := hk
    refine h.turn ?_
    split
    next hlt =>
      -- the next byte of the copy is the next byte of the payload
      have hnext := Mem.read_get s.heap.arena.mem (a := p) hlt
      rw [hst.read] at hnext
      refine ⟨hm, b, hb, rfl, hst, ?_⟩
      obtain ⟨rest, rfl⟩ := hout
      cases rest with
      | nil => simp at hlt
      | cons c rest =>
        rw [List.getElem?_append_right (Nat.le_refl _), Nat.sub_self, List.getElem?_cons_zero,
          Option.some.injEq] at hnext
        exact ⟨rest, by rw [← hnext, List.append_assoc]; rfl⟩
    next hge =>
      have : out = b := hout.eq_of_length (Nat.le_antisymm hout.length_le (Nat.le_of_not_lt hge))
      rw [this]
      exact hb
  all_goals
    refine h.turn ?_
    split <;> trivial

end Inv

/-- The daemon's next write would spoil the copy the client is at. -/
def disturbs (s : Shared) : Bool :=
  match s.writer, s.reader with
  | .retire _, .size p | .retire _, .copy p _ _ => p = s.st.data
  | .clearLen, .size _ => true
  | _, _ => false

/-- What keeps a copy whole. The client takes the pointer for its copy only while there is one and it
    belongs with the length; the daemon retires no block between a client's taking its pointer and
    copying its last byte, and clears no length between a client's taking pointer and length. -/
def Calm (s : Shared) : Step → Prop
  | .read _ => s.reader = .ptr → s.torn = false ∧ s.st.data ≠ 0
  | .write => s.disturbs = false
  | _ => True

theorem inv_step {l : Step} (h : s.Inv) (hc : s.Calm l) (hs : s.step l = some s') : s'.Inv := by
  cases l <;> simp only [step] at hs
  case keep body ttl ts now => exact h.keep hs
  case miss =>
    split at hs <;> cases hs
    next hidle =>
      refine h.field rfl (by simp [pending?]) (by simp) (by simp) (by simp) (by simp)
        (fun _ => h.record (by rw [torn, hidle])) fun p hp => ⟨rfl, fun hk => .inl ?_⟩
      exact ⟨Inv.size_idle hidle hk, rfl⟩
  case write =>
    refine h.write (fun j hw p hp => ?_) (fun hw p hp => ?_) hs
    · rcases hp with hp | ⟨n, out, hp⟩ <;> simpa [Calm, disturbs, hw, hp] using hc
    · simp [Calm, disturbs, hw, hp] at hc
  case heap c =>
    split at hs
    next hav =>
      obtain ⟨w, hw, rfl⟩ := Option.map_eq_some_iff.mp hs
      exact h.other hav hw
    next => cases hs
  case lookupPayload => split at hs <;> cases hs <;> exact h.turn trivial
  case read now => exact h.read hc hs

theorem inv_start {mem : Mem} {len : Nat} (h1 : BNCL_CTL_BYTES + MIN_BLOCK < len)
    (h2 : len < 2 ^ 32) : (start mem len).Inv := by
  obtain ⟨bs, fl, hv⟩ := World.valid_init (w := {}) mem h1 h2
  have hok : (Arena.init {} (some mem) len).1 = true := by
    rw [Arena.init, if_neg (Nat.not_le.mpr h1)]
  have e : (start mem len).heap = { arena := (Arena.init {} (some mem) len).2 } := by
    rw [start, World.apply, if_pos hok]
  refine ⟨⟨bs, fl, [], by rw [e]; exact hv⟩, ?_, ?_, ?_, ?_, ?_, ?_, trivial⟩ <;>
    simp [start, pending?]

/-- In every calm run, what `lookupPayload` returns is one payload that was stored or fetched for the
    statement, whole. -/
theorem payload_returned_whole (mem : Mem) (len : Nat) (hmin : BNCL_CTL_BYTES + MIN_BLOCK < len)
    (hmax : len < 2 ^ 32) (steps : List Step) (s : Shared)
    (hrun : run step (start mem len) steps = some s) (hcalm : Along step Calm (start mem len) steps) :
    ∀ out, s.reader = .done out → out ∈ s.published := by
  have h : s.Inv := run_inv_along (I := Inv) (fun _ _ _ h hc hs => inv_step h hc hs)
    (inv_start hmin hmax) hcalm hrun
  intro out hr
  have hk := h.reader
  rw [hr] at hk
  exact hk

instance (s : Shared) : (l : Step) → Decidable (s.Calm l)
  | .read _ => inferInstanceAs (Decidable (s.reader = .ptr → s.torn = false ∧ s.st.data ≠ 0))
  | .write => inferInstanceAs (Decidable (s.disturbs = false))
  | .keep .. | .miss | .heap _ | .lookupPayload => .isTrue trivial

theorem payload_returned_whole_sample :
    ∃ s, run step (start (fun _ => 0) 300) (.keep [1, 2, 3] 0 5 5 :: List.replicate 5 .write ++
        [.lookupPayload] ++ List.replicate 10 (.read 9) ++ .keep [7, 8, 9, 10, 11] 0 6 6 ::
        List.replicate 6 .write) = some s ∧
      s.reader = .done [1, 2, 3] ∧ [1, 2, 3] ∈ s.published := by
  refine exists_run_of_map Shared.reader (.done [1, 2, 3]) (by decide +kernel) ?_
  intro s hs hr
  exact ⟨hr, payload_returned_whole _ 300 (by decide) (by decide) _ s hs (by decide +kernel) _ hr⟩

/-- The client takes the new pointer and then the old length: it returns the first three bytes of a
    payload of five. -/
theorem payload_returned_cut :
    ∃ s, run step (start (fun _ => 0) 300) (.keep [1, 2, 3] 0 5 5 :: List.replicate 5 .write ++
        .keep [7, 8, 9, 10, 11] 0 6 6 :: List.replicate 2 .write ++ [.lookupPayload] ++
        List.replicate 10 (.read 9)) = some s ∧
      s.reader = .done [7, 8, 9] ∧ s.published = [[7, 8, 9, 10, 11], [1, 2, 3]] := by
  refine exists_run_of_map (fun s => (s.reader, s.published))
    (.done [7, 8, 9], [[7, 8, 9, 10, 11], [1, 2, 3]]) (by decide +kernel) ?_
  intro s _ he
  exact Prod.mk.inj he

end Shared

end Barnacle.Daemon
