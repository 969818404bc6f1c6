import Mathlib.Data.List.TakeWhile
import Barnacle.Valkey.Client

/-! Calls against a server that conforms to the protocol.

    A line and a number of bytes are taken off the buffer in the same way, and neither is changed by what
    comes behind it (`Stable`), so it does not matter how the stream was cut into reads. What is left of
    the stream after a call is what the server sends for the calls to come (`Carries`), part of it in the
    buffer already. -/

namespace Barnacle.Valkey
open Barnacle.Lib

/-! ### Decimal numbers -/

theorem toNat_digit (n : Nat) : (digit n).toNat = 48 + n % 10 := by
  rw [digit, UInt8.toNat_ofNat']
  omega

theorem isDigit_digit (n : Nat) : isDigit (digit n) = true := by
  have h := toNat_digit n
  simp only [isDigit, Bool.and_eq_true, decide_eq_true_eq, UInt8.le_iff_toNat_le, h, UInt8.reduceToNat]
  omega

theorem isDigit_decimalLoop (fuel : Nat) : ∀ n, ∀ b ∈ decimalLoop fuel n, isDigit b = true := by
  induction fuel with
  | zero =>
    intro n b hb
    cases hb
  | succ fuel ih =>
    intro n b hb
    rw [decimalLoop] at hb
    split_ifs at hb
    · rw [List.mem_singleton.mp hb]
      exact isDigit_digit n
    · rcases List.mem_append.mp hb with hb | hb
      · exact ih _ b hb
      · rw [List.mem_singleton.mp hb]
        exact isDigit_digit n

theorem isDigit_decimal (n : Nat) : ∀ b ∈ decimal n, isDigit b = true := isDigit_decimalLoop _ n

/-- The digits read back, whatever number of them is asked for. -/
theorem foldl_decimalLoop (fuel : Nat) : ∀ n, n < fuel →
    (decimalLoop fuel n).foldl (fun m b => 10 * m + (b.toNat - 48)) 0 = n := by
  induction fuel with
  | zero =>
    intro n h
    exact absurd h (Nat.not_lt_zero _)
  | succ fuel ih =>
    intro n h
    have hd := toNat_digit n
    rw [decimalLoop]
    split_ifs with hlt
    · rw [List.foldl_cons, List.foldl_nil, hd]
      omega
    · rw [List.foldl_append, ih (n / 10) (by omega), List.foldl_cons, List.foldl_nil, hd]
      omega

theorem digitsVal_decimal (n : Nat) : digitsVal (decimal n) = n := by
  have hall : (decimal n).takeWhile isDigit = decimal n :=
    List.takeWhile_eq_self_iff.mpr (isDigit_decimal n)
  rw [digitsVal, hall]
  exact foldl_decimalLoop _ n (Nat.lt_succ_self n)

theorem decimal_ne_nil (n : Nat) : decimal n ≠ [] := by
  rw [decimal, decimalLoop]
  split_ifs <;> simp

/-- No digit is a space, a sign or the byte that ends a line. -/
theorem of_isDigit {b : UInt8} (h : isDigit b = true) :
    isSpace b = false ∧ b ≠ 45 ∧ b ≠ 43 ∧ b ≠ CR := by
  simp only [isDigit, Bool.and_eq_true, decide_eq_true_eq, UInt8.le_iff_toNat_le, UInt8.reduceToNat] at h
  have hne : ∀ c : UInt8, c.toNat < 48 → b ≠ c := by
    rintro c hc rfl
    omega
  refine ⟨?_, hne 45 (by decide), hne 43 (by decide), hne CR (by decide)⟩
  simp only [isSpace, Bool.or_eq_false_iff, Bool.and_eq_false_iff, decide_eq_false_iff_not,
    UInt8.le_iff_toNat_le, UInt8.reduceToNat]
  exact ⟨hne 32 (by decide), Or.inr (by omega)⟩

theorem cr_notMem_decimal (n : Nat) : CR ∉ decimal n :=
  fun h => (of_isDigit (isDigit_decimal n CR h)).2.2.2 rfl

theorem strtol_decimal {n : Nat} (h : n < 2 ^ 63) : strtol (decimal n) = n := by
  obtain ⟨b, rest, hb⟩ := List.exists_cons_of_ne_nil (decimal_ne_nil n)
  have hdig := of_isDigit (isDigit_decimal n b (by rw [hb]; simp))
  have hval := digitsVal_decimal n
  rw [hb] at hval ⊢
  rw [strtol, List.dropWhile_cons_of_neg (by simp [hdig.1])]
  simp only [hdig.2.1, hdig.2.2.1, if_false, hval, LONG_MAX]
  omega

theorem strtol_minus {n : Nat} (h : n ≤ 2 ^ 63) : strtol (45 :: decimal n) = -n := by
  rw [strtol, List.dropWhile_cons_of_neg (by decide)]
  simp only [if_true, digitsVal_decimal, LONG_MIN]
  omega

/-! ### Lines -/

theorem findCrlf_append {b line rest : Bytes} (x : Bytes) (h : findCrlf b = some (line, rest)) :
    findCrlf (b ++ x) = some (line, rest ++ x) := by
  induction b generalizing line with
  | nil => cases h
  | cons y b ih =>
    rw [findCrlf] at h
    rw [List.cons_append, findCrlf]
    split_ifs at h with hy
    · cases h
      rcases b with _ | ⟨z, b⟩
      · cases hy.2
      · exact if_pos hy
    · obtain ⟨⟨l, r⟩, hr, he⟩ := Option.map_eq_some_iff.mp h
      cases he
      have hne : ¬(y = CR ∧ (b ++ x).head? = some LF) := by
        rintro ⟨rfl, hb⟩
        rcases b with _ | ⟨z, b⟩
        · cases hr
        · exact hy ⟨rfl, hb⟩
      rw [if_neg hne, ih hr]
      rfl

/-- A line without the byte that ends lines is the first. -/
theorem findCrlf_line {line : Bytes} (h : CR ∉ line) (rest : Bytes) :
    findCrlf (line ++ crlf ++ rest) = some (line, rest) := by
  induction line with
  | nil => rfl
  | cons b line ih =>
    rw [List.mem_cons, not_or] at h
    rw [List.cons_append, List.cons_append, findCrlf, if_neg (fun hb => h.1 hb.1.symm), ih h.2]
    rfl

theorem takeExactly_append {b x rest : Bytes} {want : Nat} (y : Bytes)
    (h : takeExactly want b = some (x, rest)) : takeExactly want (b ++ y) = some (x, rest ++ y) := by
  rw [takeExactly] at h ⊢
  split_ifs at h with hlt
  cases h
  rw [if_neg (by rw [List.length_append]; omega), List.take_append_of_le_length (by omega),
    List.drop_append_of_le_length (by omega)]

theorem takeExactly_length (body rest : Bytes) : takeExactly body.length (body ++ rest) = some (body, rest) := by
  rw [takeExactly, if_neg (by simp), List.take_left, List.drop_left]

/-! ### A stream in pieces -/

/-- No `read` fails, and none comes to the end of the stream. -/
def Flowing (reads : List Recv) : Prop := ∀ r ∈ reads, r ≠ .failed ∧ r ≠ .got []

/-- No `write` fails. -/
def Taking (writes : List Send) : Prop := ∀ w ∈ writes, w ≠ .failed ∧ w ≠ .took 0

/-- The bytes the `read`s will return. -/
def flow (reads : List Recv) : Bytes :=
  reads.flatMap fun r =>
    match r with
    | .got bytes => bytes
    | _ => []

/-- A `read` after which the next one is made. -/
def Recv.ok : Recv → Bool
  | .got bytes => bytes ≠ []
  | .eintr => true
  | .failed => false

/-- The bytes that arrive until the connection is lost, if it is. -/
def arrives (reads : List Recv) : Bytes := flow (reads.takeWhile Recv.ok)

/-- The connection will be lost. -/
def Breaks (reads : List Recv) : Prop := ∃ r ∈ reads, r.ok = false

theorem Recv.ok_iff (r : Recv) : r.ok = true ↔ r ≠ .failed ∧ r ≠ .got [] := by
  cases r <;> simp [Recv.ok]

theorem Flowing.arrives {reads : List Recv} (h : Flowing reads) : arrives reads = flow reads := by
  rw [Valkey.arrives, List.takeWhile_eq_self_iff.mpr fun r hr => (Recv.ok_iff r).mpr (h r hr)]

theorem arrives_got {bytes : Bytes} (h : bytes ≠ []) (reads : List Recv) :
    arrives (.got bytes :: reads) = bytes ++ arrives reads := by
  rw [arrives, List.takeWhile_cons_of_pos (by simpa [Recv.ok] using h), flow, List.flatMap_cons]
  rfl

theorem arrives_eintr (reads : List Recv) : arrives (.eintr :: reads) = arrives reads := by
  rw [arrives, List.takeWhile_cons_of_pos rfl, flow, List.flatMap_cons]
  rfl

theorem arrives_lost {r : Recv} (h : r.ok = false) (reads : List Recv) : arrives (r :: reads) = [] := by
  rw [arrives, List.takeWhile_cons_of_neg (by simp [h])]
  rfl

section
variable {take : Bytes → Option (Bytes × Bytes)} {x rest : Bytes}

/-- What can be taken off the front of a buffer is not changed by what comes behind. -/
def Stable (take : Bytes → Option (Bytes × Bytes)) : Prop :=
  ∀ (b x rest y : Bytes), take b = some (x, rest) → take (b ++ y) = some (x, rest ++ y)

/-- What the stream starts with is taken off it wherever the reads cut it, and only reads that succeed
    are made for it. Induction on the reads. -/
theorem readLoop_bytes (hstable : Stable take) :
    ∀ (reads : List Recv) (inbuf : Bytes), take (inbuf ++ arrives reads) = some (x, rest) →
    ∃ made inbuf' reads', reads = made ++ reads' ∧ (∀ r ∈ made, r.ok = true) ∧
      readLoop take reads inbuf = some (.bytes x inbuf' reads') ∧ inbuf' ++ arrives reads' = rest := by
  intro reads
  induction reads with
  | nil =>
    intro inbuf h
    rw [arrives, List.takeWhile_nil, flow, List.flatMap_nil, List.append_nil] at h
    exact ⟨[], rest, [], rfl, by simp, by rw [readLoop, h]; rfl, by simp [arrives, flow]⟩
  | cons r reads ih =>
    intro inbuf h
    rcases hb : take inbuf with _ | ⟨x', rest'⟩
    · -- not yet: the next read is made, and it is not the one that loses the connection
      by_cases hr : r.ok = true
      · have hnext : ∃ inbuf₁, readLoop take (r :: reads) inbuf = readLoop take reads inbuf₁ ∧
            inbuf ++ arrives (r :: reads) = inbuf₁ ++ arrives reads := by
          rcases r with bytes | _ | _
          · have hne : bytes ≠ [] := by simpa [Recv.ok] using hr
            refine ⟨inbuf ++ bytes, ?_, by rw [arrives_got hne, List.append_assoc]⟩
            rw [readLoop.eq_def]
            simp only [hb, hne, if_false]
          · refine ⟨inbuf, ?_, by rw [arrives_eintr]⟩
            rw [readLoop.eq_def]
            simp only [hb]
          · cases hr
        obtain ⟨inbuf₁, hloop, hstream⟩ := hnext
        rw [hstream] at h
        obtain ⟨made, inbuf', reads', rfl, hmade, hl, hrest⟩ := ih inbuf₁ h
        exact ⟨r :: made, inbuf', reads', rfl, List.forall_mem_cons.mpr ⟨hr, hmade⟩, by rw [hloop, hl], hrest⟩
      · rw [arrives_lost (by simpa using hr), List.append_nil, hb] at h
        cases h
    · have hall := hstable inbuf x' rest' (arrives (r :: reads)) hb
      rw [h] at hall
      cases hall
      exact ⟨[], rest', r :: reads, rfl, by simp, by rw [readLoop.eq_def]; simp only [hb], rfl⟩

/-- When the connection is lost before there is anything to take, that is what the loop returns. -/
theorem readLoop_lost (hstable : Stable take) :
    ∀ (reads : List Recv) (inbuf : Bytes), Breaks reads → take (inbuf ++ arrives reads) = none →
    readLoop take reads inbuf = some .lost := by
  intro reads
  induction reads with
  | nil =>
    rintro inbuf ⟨r, hr, -⟩
    cases hr
  | cons r reads ih =>
    intro inbuf hbr h
    have hb : take inbuf = none := by
      rcases hb : take inbuf with _ | ⟨x', rest'⟩
      · rfl
      · rw [hstable inbuf x' rest' _ hb] at h
        cases h
    have hbr' : r.ok = true → Breaks reads := by
      intro hr
      obtain ⟨r', hmem, hok⟩ := hbr
      rcases List.mem_cons.mp hmem with rfl | hmem
      · rw [hr] at hok
        cases hok
      · exact ⟨r', hmem, hok⟩
    rw [readLoop.eq_def]
    simp only [hb]
    rcases r with bytes | _ | _
    · by_cases hne : bytes = []
      · simp only [hne, if_true]
      · simp only [hne, if_false]
        rw [arrives_got hne, ← List.append_assoc] at h
        exact ih _ (hbr' (by simpa [Recv.ok] using hne)) h
    · rw [arrives_eintr] at h
      exact ih _ (hbr' rfl) h
    · rfl

end

theorem findCrlf_stable : Stable findCrlf := fun _ _ _ y h => findCrlf_append y h

theorem takeExactly_stable (want : Nat) : Stable (takeExactly want) := fun _ _ _ y h => takeExactly_append y h

/-! ### Writes -/

/-- A `write` after which the next one is made. -/
def Send.ok : Send → Bool
  | .took n => n ≠ 0
  | .eintr => true
  | .failed => false

def Send.bytes : Send → Nat
  | .took n => n
  | _ => 0

/-- How many bytes are taken until a `write` fails, if one does. -/
def room (writes : List Send) : Nat := ((writes.takeWhile Send.ok).map Send.bytes).sum

/-- `n` bytes can be written. -/
def Delivers (writes : List Send) (n : Nat) : Prop := (∀ w ∈ writes, w.ok = true) ∨ n ≤ room writes

theorem room_lost {w : Send} (h : w.ok = false) (writes : List Send) : room (w :: writes) = 0 := by
  rw [room, List.takeWhile_cons_of_neg (by simp [h])]
  rfl

theorem room_ok {w : Send} (h : w.ok = true) (writes : List Send) :
    room (w :: writes) = w.bytes + room writes := by
  rw [room, List.takeWhile_cons_of_pos h, List.map_cons, List.sum_cons]
  rfl

theorem delivers_cons {w : Send} {n : Nat} (h : w.ok = true) (writes : List Send) :
    Delivers (w :: writes) n ↔ Delivers writes (n - w.bytes) := by
  rw [Delivers, Delivers, List.forall_mem_cons, room_ok h, Nat.sub_le_iff_le_add']
  exact or_congr_left (and_iff_right h)

theorem not_delivers_lost {w : Send} {n : Nat} (h : w.ok = false) (hn : n ≠ 0) (writes : List Send) :
    ¬Delivers (w :: writes) n := by
  rw [Delivers, room_lost h, List.forall_mem_cons]
  simp [h, hn]

/-- Sending succeeds when as many bytes can be written. Induction on the writes. -/
theorem sendLoop_ok (writes : List Send) : ∀ (out : Bytes),
    (sendLoop writes out).2.2 = true ↔ Delivers writes out.length := by
  induction writes with
  | nil =>
    intro out
    simp [sendLoop, Delivers]
  | cons w writes ih =>
    intro out
    rw [sendLoop.eq_def]
    by_cases hout : out = []
    · simp [hout, Delivers]
    · have hlen : out.length ≠ 0 := fun e => hout (List.eq_nil_of_length_eq_zero e)
      simp only [hout, if_false]
      rcases w with n | _ | _
      · by_cases hn : n = 0
        · subst hn
          simpa using not_delivers_lost rfl hlen writes
        · have hw : (Send.took n).ok = true := by simpa [Send.ok] using hn
          simp only [hn, if_false]
          rw [ih, delivers_cons hw, List.length_drop]
          rfl
      · rw [delivers_cons rfl]
        exact ih out
      · simpa using not_delivers_lost rfl hlen writes

/-- What was taken when the loop succeeds is all of it. -/
theorem sendLoop_sent (writes : List Send) : ∀ (out : Bytes), (sendLoop writes out).2.2 = true →
    (sendLoop writes out).1 = out := by
  induction writes with
  | nil =>
    intro out _
    rfl
  | cons w writes ih =>
    intro out h
    rw [sendLoop.eq_def] at h ⊢
    by_cases hout : out = []
    · simp only [hout, if_true]
    · simp only [hout, if_false] at h ⊢
      rcases w with n | _ | _
      · by_cases hn : n = 0
        · simp [hn] at h
        · simp only [hn, if_false] at h ⊢
          rw [ih _ h, List.take_append_drop]
      · exact ih _ h
      · cases h

/-- The `write`s that are left are the last of those there were. -/
theorem sendLoop_suffix (writes : List Send) : ∀ (out : Bytes), (sendLoop writes out).2.1 <:+ writes := by
  induction writes with
  | nil =>
    intro out
    exact List.suffix_rfl
  | cons w writes ih =>
    intro out
    rw [sendLoop.eq_def]
    by_cases hout : out = []
    · simp only [hout, if_true]
      exact List.suffix_rfl
    · simp only [hout, if_false]
      rcases w with n | _ | _
      · by_cases hn : n = 0
        · simp only [hn, if_true]
          exact List.suffix_cons _ _
        · simp only [hn, if_false]
          exact (ih _).trans (List.suffix_cons _ _)
      · exact (ih _).trans (List.suffix_cons _ _)
      · exact List.suffix_cons _ _

theorem Taking.delivers {writes : List Send} (h : Taking writes) (n : Nat) : Delivers writes n := by
  refine Or.inl fun w hw => ?_
  have hok := h w hw
  cases w <;> simp_all [Send.ok]

/-! ### Sockets -/

/-- The socket a call is made on: the one there is, or the one connecting will come to. -/
def Reaches (v : Valkey) (s : Socket) : Prop :=
  v.fd = some s ∨ (v.fd = none ∧ v.dials.head? = some (some s))

variable {v : Valkey} {s : Socket}

theorem connect_of_fd (h : v.fd = some s) : v.connect = (true, v) := by
  rw [connect, healthy, h]
  rfl

theorem Reaches.connect (h : v.Reaches s) :
    ∃ v', v.connect = (true, v') ∧ v'.fd = some s ∧ v'.inbuf = v.inbuf := by
  rcases h with hfd | ⟨hfd, hd⟩
  · exact ⟨v, connect_of_fd hfd, hfd, rfl⟩
  · obtain ⟨dials, hdials⟩ := List.head?_eq_some_iff.mp hd
    exact ⟨{ v with fd := some s, dials := dials }, by rw [Valkey.connect, healthy, hfd, hdials]; rfl, rfl, rfl⟩

/-- Reading from the socket. -/
theorem reading_bytes {take : Bytes → Option (Bytes × Bytes)} {x rest : Bytes} (hfd : v.fd = some s)
    (hstable : Stable take) (h : take (v.inbuf ++ arrives s.reads) = some (x, rest)) :
    ∃ made inbuf' reads', s.reads = made ++ reads' ∧ (∀ r ∈ made, r.ok = true) ∧ inbuf' ++ arrives reads' = rest ∧
      v.reading take = some (some x, { v with fd := some { s with reads := reads' }, inbuf := inbuf' }) := by
  obtain ⟨made, inbuf', reads', hreads, hmade, hl, hrest⟩ := readLoop_bytes hstable s.reads v.inbuf h
  refine ⟨made, inbuf', reads', hreads, hmade, hrest, ?_⟩
  rw [reading, hfd]
  simp only [hl, Option.map_some]

theorem reading_lost {take : Bytes → Option (Bytes × Bytes)} (hfd : v.fd = some s) (hstable : Stable take)
    (hb : Breaks s.reads) (h : take (v.inbuf ++ arrives s.reads) = none) :
    v.reading take = some (none, v.disconnect) := by
  rw [reading, hfd]
  simp only [readLoop_lost hstable s.reads v.inbuf hb h, Option.map_some]

/-- What was read without loss leaves the loss to come. -/
theorem Breaks.of_append {made reads : List Recv} (hmade : ∀ r ∈ made, r.ok = true) (h : Breaks (made ++ reads)) :
    Breaks reads := by
  obtain ⟨r, hr, hlost⟩ := h
  rcases List.mem_append.mp hr with hr | hr
  · rw [hmade r hr] at hlost
    cases hlost
  · exact ⟨r, hr, hlost⟩

/-! ### One call -/

/-- There is a connection, or connecting will come to one, on which nothing fails: `stream` is what the
    server has still to be heard saying, in the buffer or to be read, and `sent` what it was told. -/
def Carries (v : Valkey) (stream sent : Bytes) : Prop :=
  ∃ s, (v.fd = some s ∨ (v.fd = none ∧ v.dials.head? = some (some s))) ∧ Flowing s.reads ∧ Taking s.writes ∧
    v.inbuf ++ flow s.reads = stream ∧ s.sent = sent

variable {stream sent rest : Bytes}

/-- What is buffered belongs to what has still to be heard. -/
theorem Carries.buffered (h : v.Carries stream sent) : v.inbuf <+: stream := by
  obtain ⟨s, -, -, -, rfl, -⟩ := h
  exact List.prefix_append _ _

theorem Carries.connect (h : v.Carries stream sent) :
    ∃ v', v.connect = (true, v') ∧ v'.Carries stream sent ∧ v'.fd ≠ none := by
  obtain ⟨s, hs, hf, ht, hstream, hsent⟩ := h
  obtain ⟨v', hv', hfd, hbuf⟩ := Reaches.connect hs
  exact ⟨v', hv', ⟨s, Or.inl hfd, hf, ht, by rw [hbuf, hstream], hsent⟩, by rw [hfd]; simp⟩

theorem Carries.sendCommand (h : v.Carries stream sent) (hfd : v.fd ≠ none) (args : List Bytes) :
    ∃ v', v.sendCommand args = (true, v') ∧ v'.Carries stream (sent ++ encodeCommand args) ∧ v'.fd ≠ none := by
  obtain ⟨s, hs | ⟨hnone, -⟩, hf, ht, hstream, rfl⟩ := h
  · have hok := (sendLoop_ok s.writes (encodeCommand args)).mpr (ht.delivers _)
    have ht' : Taking (sendLoop s.writes (encodeCommand args)).2.1 :=
      fun w hw => ht w ((sendLoop_suffix _ _).subset hw)
    have hall := sendLoop_sent s.writes (encodeCommand args) hok
    refine ⟨{ v with fd := some { s with writes := (sendLoop s.writes (encodeCommand args)).2.1,
                                         sent := s.sent ++ encodeCommand args } }, ?_, ?_, by simp⟩
    · rw [Valkey.sendCommand, hs]
      simp only [hok, if_true, hall]
    · exact ⟨_, Or.inl rfl, hf, ht', hstream, rfl⟩
  · exact absurd hnone hfd

/-- Taking off the stream what it starts with. -/
theorem Carries.reading {take : Bytes → Option (Bytes × Bytes)} {x : Bytes} (h : v.Carries stream sent)
    (hfd : v.fd ≠ none) (hstable : Stable take) (ht : take stream = some (x, rest)) :
    ∃ v', v.reading take = some (some x, v') ∧ v'.Carries rest sent ∧ v'.fd ≠ none := by
  obtain ⟨s, hs | ⟨hnone, -⟩, hf, hw, rfl, hsent⟩ := h
  · rw [← hf.arrives] at ht
    obtain ⟨made, inbuf', reads', hreads, -, hrest, hread⟩ := reading_bytes hs hstable ht
    have hf' : Flowing reads' := fun r hr => hf r (by rw [hreads]; exact List.mem_append_right _ hr)
    exact ⟨_, hread, ⟨_, Or.inl rfl, hf', hw, by rw [← hf'.arrives, hrest], hsent⟩, by simp⟩
  · exact absurd hnone hfd

/-- A command whose reply starts with `line`. -/
theorem Carries.command {line : Bytes} (h : v.Carries (line ++ crlf ++ rest) sent) (hline : CR ∉ line)
    (args : List Bytes) :
    ∃ v', v.command args = some (some line, v') ∧ v'.Carries rest (sent ++ encodeCommand args) ∧
      v'.fd ≠ none := by
  obtain ⟨v₁, e₁, h₁, hfd₁⟩ := h.connect
  obtain ⟨v₂, e₂, h₂, hfd₂⟩ := h₁.sendCommand hfd₁ args
  obtain ⟨v₃, e₃, h₃, hfd₃⟩ := h₂.reading hfd₂ findCrlf_stable (findCrlf_line hline rest)
  refine ⟨v₃, ?_, h₃, hfd₃⟩
  rw [Valkey.command]
  simp only [e₁, Bool.not_true, Bool.false_eq_true, if_false, e₂]
  exact e₃

/-! ### Replies -/

/-- A call and what a server that conforms says to it: a value or nil to a GET, a status or an error to a
    SETEX, a number to a DBSIZE. -/
inductive Exchange
  | get (key value : Bytes) (fits : value.length < 2 ^ 63)
  | miss (key : Bytes)
  | setex (key value : Bytes) (ttl_secs : Int) (stored : Bool) (text : Bytes) (line : CR ∉ text)
  | dbsize (keys : Int) (least : LONG_MIN ≤ keys) (most : keys ≤ LONG_MAX)

/-- The calls of the client. -/
inductive Request
  | get (key : Bytes)
  | setex (key value : Bytes) (ttl_secs : Int)
  | dbsize

/-- What a call returns; `none` is false. -/
inductive Answer
  | got (value : Option Bytes)
  | stored (ok : Bool)
  | keys (n : Option Int)
  deriving DecidableEq

def perform (v : Valkey) : Request → Option (Answer × Valkey)
  | .get key => (v.get key).map fun r => (.got r.1, r.2)
  | .setex key value ttl => (v.setex key value ttl).map fun r => (.stored r.1, r.2)
  | .dbsize => v.dbsize.map fun r => (.keys r.1, r.2)

def performAll : Valkey → List Request → Option (List Answer × Valkey)
  | v, [] => some ([], v)
  | v, r :: rs => (v.perform r).bind fun x => (performAll x.2 rs).map fun y => (x.1 :: y.1, y.2)

/-- A signed number, as the server writes it. -/
def signed (n : Int) : Bytes := if n < 0 then 45 :: decimal n.natAbs else decimal n.natAbs

namespace Exchange

def request : Exchange → Request
  | .get key _ _ => .get key
  | .miss key => .get key
  | .setex key value ttl _ _ _ => .setex key value ttl
  | .dbsize _ _ _ => .dbsize

/-- The arguments of the command the call sends. -/
def args : Exchange → List Bytes
  | .get key _ _ => [[71, 69, 84], key]
  | .miss key => [[71, 69, 84], key]
  | .setex key value ttl _ _ _ => [[83, 69, 84, 69, 88], key, decimal (if ttl ≤ 0 then 1 else ttl).toNat, value]
  | .dbsize _ _ _ => [[68, 66, 83, 73, 90, 69]]

/-- What the call is to return. -/
def answer : Exchange → Answer
  | .get _ value _ => .got (some value)
  | .miss _ => .got none
  | .setex _ _ _ stored _ _ => .stored stored
  | .dbsize keys _ _ => .keys (some keys)

/-- The first line of the reply. -/
def line : Exchange → Bytes
  | .get _ value _ => 36 :: decimal value.length
  | .miss _ => [36, 45, 49]
  | .setex _ _ _ stored text _ => (if stored then 43 else 45) :: text
  | .dbsize keys _ _ => 58 :: signed keys

/-- What follows that line. -/
def body : Exchange → Bytes
  | .get _ value _ => value ++ crlf
  | _ => []

/-- The bytes of the reply. -/
def reply (e : Exchange) : Bytes := e.line ++ crlf ++ e.body

theorem cr_notMem_line (e : Exchange) : CR ∉ e.line := by
  cases e with
  | get key value fits => simpa [line, CR] using cr_notMem_decimal value.length
  | miss key => simp [line, CR]
  | setex key value ttl stored text hline => cases stored <;> simpa [line, CR] using hline
  | dbsize keys =>
    rw [line, signed]
    split_ifs <;> simpa [CR] using cr_notMem_decimal keys.natAbs

end Exchange

theorem strtol_signed {n : Int} (h : LONG_MIN ≤ n) (h' : n ≤ LONG_MAX) : strtol (signed n) = n := by
  simp only [LONG_MIN, LONG_MAX] at h h'
  rw [signed]
  split_ifs with hneg
  · rw [strtol_minus (by omega)]
    omega
  · rw [strtol_decimal (by omega)]
    omega

theorem signed_ne_nil (n : Int) : signed n ≠ [] := by
  rw [signed]
  split_ifs
  · simp
  · exact decimal_ne_nil _

/-- A GET whose reply announces a value goes on to read it. -/
theorem get_of_length {v v' : Valkey} {key : Bytes} {n : Nat} (hn : n < 2 ^ 63)
    (h : v.command [[71, 69, 84], key] = some (some (36 :: decimal n), v')) :
    v.get key = (v'.readExactly (n + 2)).map fun r => (r.1.map fun body => body.take n, r.2) := by
  have hlen : strtol (decimal n) = n := strtol_decimal hn
  simp only [Valkey.get, h, if_true, hlen]
  rw [if_neg (by omega), Int.toNat_natCast]

theorem get_of_value {v v' v'' : Valkey} {key value : Bytes} (fits : value.length < 2 ^ 63)
    (h : v.command [[71, 69, 84], key] = some (some (36 :: decimal value.length), v'))
    (hr : v'.readExactly (value.length + 2) = some (some (value ++ crlf), v'')) : v.get key = some (some value, v'') := by
  rw [get_of_length fits h, hr]
  simp

theorem get_of_nil {v v' : Valkey} {key : Bytes}
    (h : v.command [[71, 69, 84], key] = some (some [36, 45, 49], v')) : v.get key = some (none, v') := by
  have hneg : strtol [45, 49] = -1 := by decide
  simp only [Valkey.get, h, if_true, hneg]
  rfl

/-- One call takes its own reply off the stream, returns what the reply says, and has sent its command. -/
theorem Carries.perform {e : Exchange} (h : v.Carries (e.reply ++ rest) sent) :
    ∃ v', v.perform e.request = some (e.answer, v') ∧ v'.Carries rest (sent ++ encodeCommand e.args) := by
  have hreply : v.Carries (e.line ++ crlf ++ (e.body ++ rest)) sent := by
    rwa [Exchange.reply, List.append_assoc] at h
  obtain ⟨v₁, e₁, h₁, hfd⟩ := hreply.command e.cr_notMem_line e.args
  cases e with
  | get key value fits =>
    have hbody : takeExactly (value.length + 2) (value ++ crlf ++ rest) = some (value ++ crlf, rest) := by
      have := takeExactly_length (value ++ crlf) rest
      rwa [List.length_append] at this
    obtain ⟨v₂, e₂, h₂, -⟩ := h₁.reading hfd (takeExactly_stable _) hbody
    refine ⟨v₂, ?_, h₂⟩
    simp only [Exchange.args, Exchange.line] at e₁
    rw [Exchange.request, Valkey.perform, get_of_value fits e₁ e₂]
    rfl
  | miss key =>
    refine ⟨v₁, ?_, h₁⟩
    rw [Exchange.request, Valkey.perform, get_of_nil e₁]
    rfl
  | setex key value ttl stored text hline =>
    refine ⟨v₁, ?_, h₁⟩
    simp only [Exchange.args, Exchange.line] at e₁
    simp only [Exchange.request, Valkey.perform, Valkey.setex, e₁, List.head?_cons]
    cases stored <;> rfl
  | dbsize keys least most =>
    refine ⟨v₁, ?_, h₁⟩
    have hlen := List.length_pos_of_ne_nil (signed_ne_nil keys)
    simp only [Exchange.args, Exchange.line] at e₁
    simp only [Exchange.request, Valkey.perform, Valkey.dbsize, e₁]
    have hcond : ¬((58 :: signed keys).length < 2 ∨ (58 :: signed keys).head? ≠ some 58) := by
      simp only [List.length_cons, List.head?_cons, ne_eq, not_true_eq_false, or_false]
      omega
    rw [if_neg hcond, List.tail_cons, strtol_signed least most]
    rfl

/-- Every call of a run takes its own reply off the stream. Induction on the calls. -/
theorem Carries.performAll {es : List Exchange} (h : v.Carries (es.flatMap Exchange.reply ++ rest) sent) :
    ∃ v', v.performAll (es.map Exchange.request) = some (es.map Exchange.answer, v') ∧
      v'.Carries rest (sent ++ es.flatMap fun e => encodeCommand e.args) := by
  induction es generalizing v sent with
  | nil => exact ⟨v, rfl, by simpa using h⟩
  | cons e es ih =>
    rw [List.flatMap_cons, List.append_assoc] at h
    obtain ⟨v₁, e₁, h₁⟩ := h.perform
    obtain ⟨v₂, e₂, h₂⟩ := ih h₁
    refine ⟨v₂, ?_, ?_⟩
    · simp only [List.map_cons, Valkey.performAll, e₁, e₂, Option.bind_some, Option.map_some]
    · rwa [List.flatMap_cons, ← List.append_assoc]

/-! ### Commands -/

def decodeArgs : Nat → Bytes → Option (List Bytes × Bytes)
  | 0, b => some ([], b)
  | n + 1, b =>
    (findCrlf b).bind fun l =>
      if l.1.head? ≠ some 36 then none
      else
        (takeExactly (digitsVal l.1.tail) l.2).bind fun a =>
          (takeExactly 2 a.2).bind fun e =>
            if e.1 ≠ crlf then none else (decodeArgs n e.2).map fun r => (a.1 :: r.1, r.2)

/-- A command off the front of what was written: its arguments, and what follows it. -/
def decodeCommand (b : Bytes) : Option (List Bytes × Bytes) :=
  (findCrlf b).bind fun l => if l.1.head? ≠ some 42 then none else decodeArgs (digitsVal l.1.tail) l.2

theorem decodeArgs_encode (rest : Bytes) (args : List Bytes) :
    decodeArgs args.length (args.flatMap encodeArg ++ rest) = some (args, rest) := by
  induction args with
  | nil => rfl
  | cons a args ih =>
    have hline : CR ∉ (36 :: decimal a.length : Bytes) := by simpa [CR] using cr_notMem_decimal a.length
    have hb : (a :: args).flatMap encodeArg ++ rest =
        (36 :: decimal a.length) ++ crlf ++ (a ++ (crlf ++ (args.flatMap encodeArg ++ rest))) := by
      simp [encodeArg]
    rw [List.length_cons, decodeArgs, hb, findCrlf_line hline, Option.bind_some]
    simp only [List.head?_cons, ne_eq, not_true_eq_false, if_false, List.tail_cons, digitsVal_decimal]
    rw [takeExactly_length, Option.bind_some]
    simp only
    rw [show takeExactly 2 _ = _ from takeExactly_length crlf _, Option.bind_some]
    simp only [not_true_eq_false, if_false]
    rw [ih]
    rfl

/-- What is written for a command is read as its arguments and as nothing else. -/
theorem decodeCommand_encode (args : List Bytes) (rest : Bytes) :
    decodeCommand (encodeCommand args ++ rest) = some (args, rest) := by
  have hline : CR ∉ (42 :: decimal args.length : Bytes) := by simpa [CR] using cr_notMem_decimal args.length
  have hb : encodeCommand args ++ rest =
      (42 :: decimal args.length) ++ crlf ++ (args.flatMap encodeArg ++ rest) := by
    simp [encodeCommand]
  rw [decodeCommand, hb, findCrlf_line hline, Option.bind_some]
  simp only [List.head?_cons, ne_eq, not_true_eq_false, if_false, List.tail_cons, digitsVal_decimal]
  exact decodeArgs_encode rest args

/-- What a command that was sent has added to what was written. -/
theorem sendCommand_sent {v v' : Valkey} {args : List Bytes} (h : v.sendCommand args = (true, v')) :
    ∃ s s', v.fd = some s ∧ v'.fd = some s' ∧ s'.sent = s.sent ++ encodeCommand args := by
  rw [Valkey.sendCommand] at h
  rcases hfd : v.fd with _ | s
  · simp [hfd] at h
  · simp only [hfd] at h
    split_ifs at h with hok
    · have hv : _ = v' := congrArg Prod.snd h
      subst hv
      exact ⟨s, _, rfl, rfl, by rw [sendLoop_sent s.writes _ hok]⟩
    · simp at h

/-! ### A run of calls -/

/-- However the replies are cut into reads, each call of a run returns what its own reply says, and after
    any number of them the buffer holds nothing but the front of what the calls still to come will be
    told. What a command that was sent has written is read back as its arguments, whatever their bytes
    and whatever is written behind it. -/
theorem each_call_takes_its_reply :
    (∀ (v : Valkey) (es₁ es₂ : List Exchange) (sent : Bytes),
      v.Carries ((es₁ ++ es₂).flatMap Exchange.reply) sent →
      ∃ v', v.performAll (es₁.map Exchange.request) = some (es₁.map Exchange.answer, v') ∧
        v'.Carries (es₂.flatMap Exchange.reply) (sent ++ es₁.flatMap fun e => encodeCommand e.args) ∧
        v'.inbuf <+: es₂.flatMap Exchange.reply) ∧
    ∀ (v v' : Valkey) (args : List Bytes), v.sendCommand args = (true, v') →
      ∃ s s' out, v.fd = some s ∧ v'.fd = some s' ∧ s'.sent = s.sent ++ out ∧
        ∀ rest, decodeCommand (out ++ rest) = some (args, rest) := by
  constructor
  · intro v es₁ es₂ sent h
    rw [List.flatMap_append] at h
    obtain ⟨v', e', h'⟩ := h.performAll
    exact ⟨v', e', h', h'.buffered⟩
  · intro v v' args h
    obtain ⟨s, s', hs, hs', hsent⟩ := sendCommand_sent h
    exact ⟨s, s', encodeCommand args, hs, hs', hsent, decodeCommand_encode args⟩

/-- A client that has yet to connect, to a server that will answer a GET with CR, LF and NUL and a DBSIZE
    with 7. The first read ends inside the first line end, the third one inside the second reply. -/
def sampleClient : Valkey :=
  { dials := [some { reads := [.got [36, 51, 13], .eintr, .got [10, 13, 10, 0, 13, 10, 58], .got [55, 13, 10]],
                     writes := [.took 3, .eintr] }] }

def sampleExchanges : List Exchange := [.get [107] [13, 10, 0] (by decide), .dbsize 7 (by decide) (by decide)]

theorem sampleClient_carries : sampleClient.Carries (sampleExchanges.flatMap Exchange.reply) [] :=
  ⟨_, Or.inr ⟨rfl, rfl⟩, by simp [Flowing], by simp [Taking], by decide, rfl⟩

theorem each_call_takes_its_reply_sample :
    (∃ v', sampleClient.performAll [.get [107], .dbsize] = some ([.got (some [13, 10, 0]), .keys (some 7)], v') ∧
      v'.inbuf = []) ∧
    decodeCommand (encodeCommand [[71, 69, 84], [13, 10, 36]] ++ [42]) = some ([[71, 69, 84], [13, 10, 36]], [42]) := by
  constructor
  · obtain ⟨v', e', -, hbuf⟩ := each_call_takes_its_reply.1 sampleClient sampleExchanges [] []
      (by rw [List.append_nil]; exact sampleClient_carries)
    exact ⟨v', e', List.prefix_nil.mp hbuf⟩
  · have hsend : sendCommand { fd := some {} } [[71, 69, 84], [13, 10, 36]] =
        (true, { fd := some { sent := encodeCommand [[71, 69, 84], [13, 10, 36]] } }) := by decide
    obtain ⟨s, s', out, hs, hs', hout, hdec⟩ := each_call_takes_its_reply.2 _ _ _ hsend
    cases hs
    cases hs'
    have : encodeCommand [[71, 69, 84], [13, 10, 36]] = out := hout
    rw [this]
    exact hdec [42]

end Barnacle.Valkey
