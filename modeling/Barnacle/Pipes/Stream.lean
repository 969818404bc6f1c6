import Barnacle.Pipes.Model

/-! One dpipe as the bytes on its socket. The clients that hold the pipe one after another `post`
    requests on it, a header and for a STORE the body behind it; `serve` reads them back with
    `readExactly`, a piece at a time. The queue of requests in `Pipes.Model` is this stream as long as
    every post is taken whole. A post that is taken in part reports failure, but what was taken stays
    in the stream. -/

namespace Barnacle.Pipes
open Barnacle.Lib

def BNCL_REQ_LOOKUP : Nat := 0
def BNCL_REQ_STORE : Nat := 1

/-- `struct bncl_req`. -/
structure bncl_req where
  kind : Nat
  len : Nat
deriving DecidableEq, Repr

namespace bncl_req

/-- `sizeof(bncl_req)` -/
def size : Nat := 8

def bytes (r : bncl_req) : Bytes := leBytes 4 r.kind ++ leBytes 4 r.len

def ofBytes (b : Bytes) : bncl_req := ⟨leVal (b.take 4), leVal (b.drop 4)⟩

@[simp] theorem length_bytes (r : bncl_req) : r.bytes.length = size := by simp [bytes, size]

theorem ofBytes_bytes {r : bncl_req} (hk : r.kind < 256 ^ 4) (hl : r.len < 256 ^ 4) :
    ofBytes r.bytes = r := by
  have htake : (leBytes 4 r.kind ++ leBytes 4 r.len).take 4 = leBytes 4 r.kind :=
    List.take_left' (length_leBytes 4 _)
  have hdrop : (leBytes 4 r.kind ++ leBytes 4 r.len).drop 4 = leBytes 4 r.len :=
    List.drop_left' (length_leBytes 4 _)
  rw [ofBytes, bytes, htake, hdrop, leVal_leBytes hk, leVal_leBytes hl]

end bncl_req

/-- Where the daemon is: waiting in `epoll_wait`, or in one of the two `readExactly` of `serve` with
    what it has so far. -/
inductive Reading
  | idle
  | header (got : Bytes)
  | body (len : Nat) (got : Bytes)
deriving DecidableEq, Repr

/-- `posted` and `decoded` are there for the statements only: the posts that were taken whole, and the
    requests that `serve` has read. -/
structure Dpipe where
  /-- what `key_of_fd` has for the socket -/
  key_of_fd : Option Nat
  /-- taken by the socket and not read yet -/
  stream : Bytes := []
  reading : Reading := .idle
  posted : List Kind := []
  decoded : List Kind := []

namespace Dpipe

/-! ### The clients -/

def askLookup : Bytes := (bncl_req.mk BNCL_REQ_LOOKUP 0).bytes

/-- Header and body in one write. An empty body and one that is too long are not sent. -/
def askStore (canonical : Bytes) : Option Bytes :=
  if canonical.isEmpty || decide (canonical.length > BNCL_STORE_MAX) then none
  else some ((bncl_req.mk BNCL_REQ_STORE canonical.length).bytes ++ canonical)

/-- The bytes that are handed to `post`. -/
def message : Kind → Option Bytes
  | .lookup => some askLookup
  | .store canonical => askStore canonical

/-- `send` takes the first `n` bytes; fewer than all of them is a failure to the poster. -/
def post (s : Dpipe) (k : Kind) (n : Nat) : Option Dpipe :=
  match message k with
  | none => some s
  | some msg =>
    if n ≤ msg.length then
      some { s with
        stream := s.stream ++ msg.take n
        posted := if n = msg.length then s.posted ++ [k] else s.posted }
    else none

/-! ### The daemon -/

/-- `serve` with the header read. -/
def serveHeader (s : Dpipe) (req : bncl_req) : Dpipe :=
  match s.key_of_fd with
  | none => { s with reading := .idle }
  | some _ =>
    if req.kind = BNCL_REQ_STORE then
      if req.len = 0 ∨ req.len > BNCL_STORE_MAX then { s with reading := .idle }
      else { s with reading := .body req.len [] }
    else { s with reading := .idle, decoded := s.decoded ++ [.lookup] }

/-- `serve` with the body read. -/
def serveBody (s : Dpipe) (body : Bytes) : Dpipe :=
  { s with reading := .idle, decoded := s.decoded ++ [.store body] }

/-- `read` returns between one byte and what `readExactly` still wants. -/
def readSome (s : Dpipe) (n : Nat) : Option Dpipe :=
  if n = 0 ∨ s.stream.length < n then none
  else
    let rest := { s with stream := s.stream.drop n }
    match s.reading with
    | .idle => none
    | .header got =>
      let got := got ++ s.stream.take n
      if got.length < bncl_req.size then some { rest with reading := .header got }
      else if got.length = bncl_req.size then some (rest.serveHeader (.ofBytes got))
      else none
    | .body len got =>
      let got := got ++ s.stream.take n
      if got.length < len then some { rest with reading := .body len got }
      else if got.length = len then some (rest.serveBody got)
      else none

/-- `ready`: `epoll_wait` has found the socket readable and `serve` begins. `fail`: `read` returns an
    error or the end of the stream, `readExactly` drops what it has and `serve` returns. -/
inductive Label
  | post (k : Kind) (n : Nat)
  | ready
  | read (n : Nat)
  | fail
deriving DecidableEq, Repr

def step (s : Dpipe) : Label → Option Dpipe
  | .post k n => s.post k n
  | .ready => if s.reading = .idle ∧ s.stream ≠ [] then some { s with reading := .header [] } else none
  | .read n => s.readSome n
  | .fail => if s.reading = .idle then none else some { s with reading := .idle }

/-- `Pool::init` has made the pipe and the daemon has put it into `key_of_fd`. -/
def start (key : Nat) : Dpipe := { key_of_fd := some key }

variable {s s' : Dpipe} {k : Kind} {l : Label}

/-! ### Requests on the wire -/

/-- The header of a request, and what follows it. -/
def headerOf : Kind → bncl_req
  | .lookup => ⟨BNCL_REQ_LOOKUP, 0⟩
  | .store canonical => ⟨BNCL_REQ_STORE, canonical.length⟩

def bodyOf : Kind → Bytes
  | .lookup => []
  | .store canonical => canonical

/-- The request is one that is sent at all. -/
def Sendable : Kind → Prop
  | .lookup => True
  | .store canonical => 0 < canonical.length ∧ canonical.length ≤ BNCL_STORE_MAX

/-- Requests one behind the other. -/
def wire (ks : List Kind) : Bytes := ks.flatMap fun k => (headerOf k).bytes ++ bodyOf k

@[simp] theorem wire_nil : wire [] = [] := rfl

@[simp] theorem wire_cons (k : Kind) (ks : List Kind) :
    wire (k :: ks) = (headerOf k).bytes ++ (bodyOf k ++ wire ks) := by
  simp [wire]

@[simp] theorem wire_append (ks ks' : List Kind) : wire (ks ++ ks') = wire ks ++ wire ks' := by
  simp [wire]

theorem message_some {msg : Bytes} (h : message k = some msg) :
    Sendable k ∧ msg = (headerOf k).bytes ++ bodyOf k := by
  cases k with
  | lookup =>
    cases h
    exact ⟨trivial, (List.append_nil _).symm⟩
  | store canonical =>
    simp only [message, askStore] at h
    split at h
    · cases h
    next hc =>
      cases h
      simp only [Bool.or_eq_true, List.isEmpty_iff, decide_eq_true_eq, not_or, Nat.not_lt] at hc
      exact ⟨⟨List.length_pos_of_ne_nil hc.1, hc.2⟩, rfl⟩

theorem ofBytes_headerOf (h : Sendable k) : bncl_req.ofBytes (headerOf k).bytes = headerOf k := by
  cases k with
  | lookup => exact bncl_req.ofBytes_bytes (by decide) (by decide)
  | store canonical =>
    have := h.2
    simp only [BNCL_STORE_MAX] at this
    exact bncl_req.ofBytes_bytes (by simp [headerOf, BNCL_REQ_STORE]) (by simp only [headerOf]; omega)

/-! ### Staying in step -/

/-- The posts that have been taken whole and not been read. -/
def pending (s : Dpipe) : List Kind := s.posted.drop s.decoded.length

/-- What the daemon has of the request it is reading and what it has not read are the requests `ks`,
    and it knows where in the first of them it is. -/
def Aligned (stream : Bytes) (ks : List Kind) : Reading → Prop
  | .idle => stream = wire ks
  | .header got => ks ≠ [] ∧ got.length < bncl_req.size ∧ got ++ stream = wire ks
  | .body len got => ∃ body rest, ks = .store body :: rest ∧ body.length = len ∧ got.length < len ∧
      got ++ stream = body ++ wire rest

structure InStep (s : Dpipe) : Prop where
  known : s.key_of_fd.isSome
  decoded : s.decoded <+: s.posted
  sendable : ∀ k ∈ s.posted, Sendable k
  aligned : Aligned s.stream s.pending s.reading

/-- The step keeps the stream whole: a post is taken whole or not at all, and a `read` fails only when
    nothing of the request has been read. -/
def Whole (s : Dpipe) : Label → Prop
  | .post k n => ∀ msg ∈ message k, n = 0 ∨ n = msg.length
  | .fail => s.reading = .header []
  | .ready | .read _ => True

instance (s : Dpipe) : DecidablePred s.Whole
  | .post k n => inferInstanceAs (Decidable (∀ msg ∈ message k, n = 0 ∨ n = msg.length))
  | .fail => inferInstanceAs (Decidable (s.reading = .header []))
  | .ready | .read _ => inferInstanceAs (Decidable True)

theorem Aligned.append {stream : Bytes} {ks : List Kind} {r : Reading} (h : Aligned stream ks r)
    (k : Kind) : Aligned (stream ++ wire [k]) (ks ++ [k]) r := by
  cases r with
  | idle =>
    rw [Aligned] at h ⊢
    rw [h, wire_append]
  | header got =>
    obtain ⟨-, hlen, e⟩ := h
    exact ⟨by simp, hlen, by rw [← List.append_assoc, e, wire_append]⟩
  | body len got =>
    obtain ⟨body, rest, rfl, hb, hlen, e⟩ := h
    exact ⟨body, rest ++ [k], rfl, hb, hlen, by rw [← List.append_assoc, e, wire_append, List.append_assoc]⟩

/-- `readExactly` has all it wanted, `x`, and the stream goes on behind it. -/
theorem read_all {got stream x rest : Bytes} {n : Nat} (e : got ++ stream = x ++ rest)
    (hn : n ≤ stream.length) (hlen : got.length + n = x.length) :
    got ++ stream.take n = x ∧ stream.drop n = rest := by
  have e' : (got ++ stream.take n) ++ stream.drop n = x ++ rest := by
    rw [List.append_assoc, List.take_append_drop, e]
  exact List.append_inj e' (by rw [List.length_append, List.length_take]; omega)

namespace InStep

/-- Another request at the end of the stream. -/
theorem post {n : Nat} (h : s.InStep) (hw : s.Whole (.post k n)) (hs : s.post k n = some s') :
    s'.InStep := by
  unfold Dpipe.post at hs
  split at hs
  · cases hs
    exact h
  next msg hm =>
  split at hs
  next hn =>
    obtain ⟨hk, rfl⟩ := message_some hm
    cases hs
    rcases hw _ hm with rfl | rfl
    · -- nothing was taken
      have hne : (0 : Nat) ≠ ((headerOf k).bytes ++ bodyOf k).length := by
        rw [List.length_append, bncl_req.length_bytes, bncl_req.size]
        omega
      simpa only [List.take_zero, List.append_nil, if_neg hne] using h
    · simp only [List.take_length, if_true]
      have hpend : (s.posted ++ [k]).drop s.decoded.length = s.pending ++ [k] :=
        List.drop_append_of_le_length h.decoded.length_le
      have hwire : (headerOf k).bytes ++ bodyOf k = wire [k] := by simp
      refine ⟨h.known, h.decoded.trans (List.prefix_append _ _), ?_, ?_⟩
      · intro k' hk'
        rcases List.mem_append.mp hk' with hk' | hk'
        · exact h.sendable k' hk'
        · rw [List.mem_singleton.mp hk']
          exact hk
      · rw [hwire]
        simp only [pending, hpend]
        exact h.aligned.append k
  next => cases hs

/-- The first pending request has been read. -/
theorem decode {ks : List Kind} (h : s.InStep) (hp : s.pending = k :: ks) (hst : s'.stream = wire ks)
    (hk : s'.key_of_fd = s.key_of_fd) (hd : s'.decoded = s.decoded ++ [k])
    (hpost : s'.posted = s.posted) (hr : s'.reading = .idle) : s'.InStep := by
  obtain ⟨rest, e⟩ := h.decoded
  have hrest : rest = k :: ks := by rw [← hp, pending, ← e, List.drop_left]
  have hpost' : s'.posted = s'.decoded ++ ks := by rw [hpost, hd, ← e, hrest, List.append_assoc]; rfl
  refine ⟨by rw [hk]; exact h.known, ⟨ks, hpost'.symm⟩, by rw [hpost]; exact h.sendable, ?_⟩
  rw [hr, pending, hpost', List.drop_left]
  exact hst

/-- The pending request the daemon is reading the header of. -/
theorem read_header {n : Nat} {got : Bytes} (h : s.InStep) (hr : s.reading = .header got)
    (hn : n ≤ s.stream.length) (hlen : (got ++ s.stream.take n).length = bncl_req.size) :
    ({ s with stream := s.stream.drop n }.serveHeader
      (.ofBytes (got ++ s.stream.take n))).InStep := by
  have hal := h.aligned
  rw [hr] at hal
  obtain ⟨hne, -, e⟩ := hal
  obtain ⟨k, ks, hp⟩ := List.exists_cons_of_ne_nil hne
  rw [hp, wire_cons] at e
  rw [List.length_append, List.length_take, Nat.min_eq_left hn] at hlen
  obtain ⟨hgot, hrest⟩ := read_all e hn (by rw [bncl_req.length_bytes, hlen])
  have hk : Sendable k := by
    refine h.sendable k ?_
    have : k ∈ s.pending := by rw [hp]; exact List.mem_cons_self
    exact List.mem_of_mem_drop this
  rw [hgot, ofBytes_headerOf hk, serveHeader]
  obtain ⟨key, hkey⟩ := Option.isSome_iff_exists.mp h.known
  simp only [hkey]
  cases k with
  | lookup =>
    rw [if_neg (by simp [headerOf, BNCL_REQ_LOOKUP, BNCL_REQ_STORE])]
    exact h.decode hp hrest hkey.symm rfl rfl rfl
  | store body =>
    have hok : ¬((headerOf (.store body)).len = 0 ∨ (headerOf (.store body)).len > BNCL_STORE_MAX) := by
      have := hk.1
      have := hk.2
      simp only [headerOf]
      omega
    rw [if_pos (by rfl), if_neg hok]
    exact ⟨by simp, h.decoded, h.sendable, body, ks, hp, rfl, hk.1, hrest⟩

theorem read_body {n len : Nat} {got : Bytes} (h : s.InStep) (hr : s.reading = .body len got)
    (hn : n ≤ s.stream.length) (hlen : (got ++ s.stream.take n).length = len) :
    ({ s with stream := s.stream.drop n }.serveBody (got ++ s.stream.take n)).InStep := by
  have hal := h.aligned
  rw [hr] at hal
  obtain ⟨body, ks, hp, hb, -, e⟩ := hal
  rw [List.length_append, List.length_take, Nat.min_eq_left hn] at hlen
  obtain ⟨hgot, hrest⟩ := read_all e hn (by rw [hb, hlen])
  rw [hgot]
  exact h.decode hp hrest rfl rfl rfl rfl

/-- The daemon reads on in the same request. -/
theorem read_on {n : Nat} {r : Reading} (h : s.InStep)
    (hal : Aligned (s.stream.drop n) s.pending r) :
    { s with stream := s.stream.drop n, reading := r }.InStep :=
  ⟨h.known, h.decoded, h.sendable, hal⟩

end InStep

theorem inStep_step (h : s.InStep) (hw : s.Whole l) (hs : s.step l = some s') : s'.InStep := by
  have hal := h.aligned
  cases l with
  | post k n => exact h.post hw hs
  | ready =>
    simp only [step] at hs
    split at hs
    next hc =>
      cases hs
      rw [hc.1] at hal
      refine ⟨h.known, h.decoded, h.sendable, ?_, by simp [bncl_req.size], hal⟩
      intro hp
      change s.pending = [] at hp
      exact hc.2 (by rw [hal, hp]; rfl)
    next => cases hs
  | read n =>
    simp only [step, readSome] at hs
    split at hs
    · cases hs
    next hn =>
    have hle : n ≤ s.stream.length := by omega
    cases hr : s.reading with
    | idle => simp only [hr] at hs; cases hs
    | header got =>
      simp only [hr] at hs hal
      split at hs
      next hlt =>
        cases hs
        exact h.read_on ⟨hal.1, hlt, by rw [List.append_assoc, List.take_append_drop]; exact hal.2.2⟩
      next =>
        split at hs
        next hlen => cases hs; exact h.read_header hr hle hlen
        next => cases hs
    | body len got =>
      simp only [hr] at hs hal
      split at hs
      next hlt =>
        cases hs
        obtain ⟨body, rest, hp, hb, -, e⟩ := hal
        exact h.read_on ⟨body, rest, hp, hb, hlt,
          by rw [List.append_assoc, List.take_append_drop]; exact e⟩
      next =>
        split at hs
        next hlen => cases hs; exact h.read_body hr hle hlen
        next => cases hs
  | fail =>
    simp only [step] at hs
    split at hs
    · cases hs
    · cases hs
      rw [show s.reading = .header [] from hw] at hal
      exact ⟨h.known, h.decoded, h.sendable, hal.2.2⟩

theorem inStep_start (key : Nat) : (start key).InStep :=
  ⟨rfl, List.prefix_rfl, by simp [start], rfl⟩

/-! ### The daemon gets through -/

/-- The steps the daemon takes by itself. -/
def Label.daemon : Label → Bool
  | .ready | .read _ => true
  | _ => false

/-- How far the daemon is from having read everything. -/
def ahead (s : Dpipe) : Nat := 2 * s.stream.length + if s.reading = .idle then 1 else 0

@[simp] theorem serveHeader_stream (s : Dpipe) (req : bncl_req) :
    (s.serveHeader req).stream = s.stream := by
  unfold serveHeader
  split <;> [rfl; split] <;> [split; skip] <;> rfl

@[simp] theorem serveHeader_posted (s : Dpipe) (req : bncl_req) :
    (s.serveHeader req).posted = s.posted := by
  unfold serveHeader
  split <;> [rfl; split] <;> [split; skip] <;> rfl

/-- Reading takes bytes off the stream, and nothing is posted. -/
theorem readSome_cases {n : Nat} (h : s.readSome n = some s') :
    s.reading ≠ .idle ∧ 0 < n ∧ n ≤ s.stream.length ∧ s'.stream = s.stream.drop n ∧
      s'.posted = s.posted := by
  unfold readSome at h
  split at h
  · cases h
  next hn =>
  have hn' : 0 < n ∧ n ≤ s.stream.length := by omega
  cases hr : s.reading with
  | idle => simp only [hr] at h; cases h
  | header got =>
    simp only [hr] at h
    split at h <;> [skip; split at h] <;> cases h <;> refine ⟨by simp, hn'.1, hn'.2, ?_, ?_⟩ <;> simp
  | body len got =>
    simp only [hr] at h
    split at h <;> [skip; split at h] <;> cases h <;> exact ⟨by simp, hn'.1, hn'.2, rfl, rfl⟩

/-- Every step of the daemon brings it nearer to the end. -/
theorem ahead_step (hl : Label.daemon l = true) (hs : s.step l = some s') :
    s'.ahead < s.ahead ∧ s'.posted = s.posted := by
  cases l with
  | post k n => cases hl
  | fail => cases hl
  | ready =>
    simp only [step] at hs
    split at hs
    next hc =>
      cases hs
      simp [ahead, hc.1]
    next => cases hs
  | read n =>
    obtain ⟨hr, h0, hn, hst, hp⟩ := readSome_cases hs
    refine ⟨?_, hp⟩
    rw [ahead, ahead, if_neg hr, hst, List.length_drop]
    split <;> omega

/-- A byte that is there and wanted can be read. -/
theorem readSome_one (hst : s.stream ≠ [])
    (hr : (∃ got, s.reading = .header got ∧ got.length < bncl_req.size) ∨
      ∃ len got, s.reading = .body len got ∧ got.length < len) : ∃ s', s.readSome 1 = some s' := by
  have hpos := List.length_pos_of_ne_nil hst
  have hone : (s.stream.take 1).length = 1 := by rw [List.length_take]; omega
  unfold readSome
  rw [if_neg (by omega)]
  obtain ⟨got, hr, hlt⟩ | ⟨len, got, hr, hlt⟩ := hr <;> simp only [hr, List.length_append, hone] <;>
    split
  · exact ⟨_, rfl⟩
  · exact ⟨_, if_pos (by omega)⟩
  · exact ⟨_, rfl⟩
  · exact ⟨_, if_pos (by omega)⟩

/-- In step, the daemon never waits for bytes that do not come. -/
theorem InStep.stuck (h : s.InStep) (hno : ∀ l, Label.daemon l = true → s.step l = none) :
    s.reading = .idle ∧ s.stream = [] ∧ s.decoded = s.posted := by
  have hal := h.aligned
  -- in the middle of a request there is a byte to read
  have more : ∀ {got x : Bytes}, got ++ s.stream = x → got.length < x.length → s.stream ≠ [] := by
    intro got x e hlt hnil
    rw [← e, hnil, List.append_nil] at hlt
    exact Nat.lt_irrefl _ hlt
  have blocked : ∀ {P : Prop}, (∃ s', s.readSome 1 = some s') → P := by
    rintro P ⟨s', hs'⟩
    have := hno (.read 1) rfl
    rw [step, hs'] at this
    cases this
  cases hr : s.reading with
  | idle =>
    have hst : s.stream = [] := by
      by_contra hne
      have := hno .ready rfl
      rw [step, if_pos ⟨hr, hne⟩] at this
      cases this
    rw [hr, Aligned, hst] at hal
    refine ⟨rfl, hst, ?_⟩
    obtain ⟨rest, e⟩ := h.decoded
    have hrest : rest = s.pending := by rw [pending, ← e, List.drop_left]
    rw [← hrest] at hal
    cases rest with
    | nil => rw [← e, List.append_nil]
    | cons k ks =>
      have := congrArg List.length hal
      rw [wire_cons, List.length_append, bncl_req.length_bytes, bncl_req.size, List.length_nil] at this
      omega
  | header got =>
    rw [hr] at hal
    obtain ⟨hne, hlt, e⟩ := hal
    obtain ⟨k, ks, hp⟩ := List.exists_cons_of_ne_nil hne
    refine blocked (readSome_one (more e ?_) (.inl ⟨got, hr, hlt⟩))
    rw [hp, wire_cons, List.length_append, bncl_req.length_bytes]
    omega
  | body len got =>
    rw [hr] at hal
    obtain ⟨body, rest, -, hb, hlt, e⟩ := hal
    refine blocked (readSome_one (more e ?_) (.inr ⟨len, got, hr, hlt⟩))
    rw [List.length_append]
    omega

/-- The daemon alone: it stays in step, and cannot go on for ever. -/
theorem InStep.daemon_run (ls : List Label) : ∀ {s s' : Dpipe}, s.InStep →
    (∀ l ∈ ls, Label.daemon l = true) → run step s ls = some s' →
    s'.InStep ∧ s'.posted = s.posted ∧ ls.length + s'.ahead ≤ s.ahead := by
  induction ls with
  | nil =>
    intro s s' h _ hrun
    cases hrun
    exact ⟨h, rfl, by simp⟩
  | cons l ls ih =>
    intro s s' h hl hrun
    obtain ⟨s₁, h1, hrun⟩ := Option.bind_eq_some_iff.mp hrun
    have hl0 := hl l List.mem_cons_self
    obtain ⟨hlt, hp⟩ := ahead_step hl0 h1
    have hw : s.Whole l := by cases l <;> trivial
    obtain ⟨h', hp', hle⟩ := ih (inStep_step h hw h1) (fun l' hm => hl l' (List.mem_cons_of_mem _ hm)) hrun
    refine ⟨h', hp'.trans hp, ?_⟩
    rw [List.length_cons]
    omega

/-- In every run in which each post is taken whole or not at all, and no read fails in the middle of a
    request: what `serve` has decoded are the posts that were taken, in order, up to those that are
    pending; where the daemon reads a header a pending request begins, where it reads a body that body's
    bytes are next, and when `serve` returns the stream is at a request's beginning. And left alone the
    daemon comes to an end, with every request decoded. -/
theorem decoded_as_posted (key : Nat) (ls : List Label) (s : Dpipe)
    (hrun : run step (start key) ls = some s) (hwhole : Along step Whole (start key) ls) :
    s.decoded ++ s.pending = s.posted ∧ Aligned s.stream s.pending s.reading ∧
    ∀ ls' s', (∀ l ∈ ls', Label.daemon l = true) → run step s ls' = some s' →
      ls'.length ≤ s.ahead ∧
      ((∀ l, Label.daemon l = true → s'.step l = none) →
        s'.reading = .idle ∧ s'.stream = [] ∧ s'.decoded = s.posted) := by
  have h : s.InStep :=
    run_inv_along (fun _ _ _ h hw hs => inStep_step h hw hs) (inStep_start key) hwhole hrun
  refine ⟨?_, h.aligned, fun ls' s' hd hrun' => ?_⟩
  · obtain ⟨rest, e⟩ := h.decoded
    rw [pending, ← e, List.drop_left]
  · obtain ⟨h', hp, hle⟩ := h.daemon_run ls' hd hrun'
    refine ⟨by omega, fun hno => ?_⟩
    rw [← hp]
    exact h'.stuck hno

/-- A STORE of two bytes and a LOOKUP, read in pieces after a read that failed. -/
theorem decoded_as_posted_sample :
    ∃ s, run step (start 0) [.post (.store [1, 2]) 10, .ready, .fail, .ready, .read 5, .post .lookup 8,
        .read 3, .read 2, .ready] = some s ∧
      s.decoded = [.store [1, 2]] ∧ s.decoded ++ s.pending = [.store [1, 2], .lookup] := by
  refine exists_run_of_map (fun s => (s.decoded, s.posted))
    ([.store [1, 2]], [.store [1, 2], .lookup]) (by decide +kernel) ?_
  intro s hs h
  simp only [Prod.mk.injEq] at h
  obtain ⟨hpre, -, -⟩ := decoded_as_posted 0 _ s hs (by decide)
  exact ⟨h.1, by rw [hpre, h.2]⟩

/-- Of a STORE of four bytes the socket takes the header and two bytes. The next client's LOOKUP, taken
    whole, completes the body, and `serve` is left inside that LOOKUP. -/
theorem body_completed_by_next_post :
    ∃ s, run step (start 0) [.post (.store [1, 2, 3, 4]) 10, .post .lookup 8, .ready, .read 8,
        .read 4] = some s ∧
      s.posted = [.lookup] ∧ s.decoded = [.store [1, 2, 0, 0]] ∧ s.reading = .idle ∧
      s.stream = [0, 0, 0, 0, 0, 0] := by
  refine exists_run_of_map (fun s => ((s.posted, s.decoded), s.reading, s.stream))
    (([.lookup], [.store [1, 2, 0, 0]]), .idle, [0, 0, 0, 0, 0, 0]) (by decide +kernel) ?_
  intro s _ h
  simp only [Prod.mk.injEq] at h
  exact ⟨h.1.1, h.1.2, h.2.1, h.2.2⟩

end Dpipe

end Barnacle.Pipes
