import Barnacle.Mysql.RoundTrip

/-! The path of an answer through the cache: parsed off one connection, stored in canonical framing,
    parsed again and framed for another connection.

    The bytes the first parse accepts are whatever the server sent: lengths may be longer than they
    need to be, the separator is not looked at, bytes may follow the terminator. What comes out is
    well formed all the same, and from there on the round trip of the encoder carries it. -/

namespace Barnacle.Mysql
open Barnacle.Lib

/-! ### What the parser lets through -/

theorem readLenEnc_lt {d : Bytes} {pos n pos' : Nat} (h : readLenEnc d pos = some (n, pos')) :
    n < 2 ^ 64 := by
  obtain ⟨first, -, ⟨-, rfl, -⟩ | ⟨w, hl, -, rfl, -⟩⟩ := readLenEnc_cases h
  · exact lt_trans first.toNat_lt (by decide)
  · have hw : w ≤ 8 := by
      rcases hl with ⟨-, rfl⟩ | ⟨-, rfl⟩ | ⟨-, rfl⟩ <;> decide
    calc leAt d (pos + 1) w < 256 ^ w := leAt_lt d (pos + 1) w
      _ ≤ 256 ^ 8 := Nat.pow_le_pow_right (by decide) hw
      _ = 2 ^ 64 := by decide

theorem readLenEncString_fits {d s : Bytes} {pos pos' : Nat}
    (h : readLenEncString d pos = some (s, pos')) : s.length < 2 ^ 64 := by
  rw [readLenEncString] at h
  split at h
  · simp at h
  · rename_i n q hn
    have hlt := readLenEnc_lt hn
    split_ifs at h
    simp only [Option.some.injEq, Prod.mk.injEq] at h
    rw [← h.1, List.length_take]
    omega

theorem parseColumn_fits {m : Message} {c : Column} (h : parseColumn m = some c) : c.Fits := by
  simp only [parseColumn, Option.bind_eq_bind, Option.bind_eq_some_iff] at h
  obtain ⟨r1, h1, r2, h2, r3, h3, r4, h4, r5, h5, r6, h6, r7, -, h⟩ := h
  split_ifs at h
  simp only [Option.some.injEq] at h
  subst h
  exact ⟨readLenEncString_fits h1, readLenEncString_fits h2, readLenEncString_fits h3,
    readLenEncString_fits h4, readLenEncString_fits h5, readLenEncString_fits h6⟩

theorem forall_mem_snoc {α : Type} {p : α → Prop} {xs : List α} {x : α} (hxs : ∀ y ∈ xs, p y)
    (hx : p x) : ∀ y ∈ xs ++ [x], p y := by
  intro y hy
  rcases List.mem_append.mp hy with hy | hy
  · exact hxs y hy
  · rw [List.mem_singleton.mp hy]
    exact hx

theorem parseColumns_spec {n : Nat} {r r' : MessageReader} {acc cols : List Column}
    (h : parseColumns n r acc = some (cols, r')) (hacc : ∀ c ∈ acc, c.Fits) :
    cols.length = acc.length + n ∧ ∀ c ∈ cols, c.Fits := by
  induction n generalizing r acc with
  | zero =>
    simp only [parseColumns, Option.some.injEq, Prod.mk.injEq] at h
    obtain ⟨rfl, -⟩ := h
    exact ⟨rfl, hacc⟩
  | succ n ih =>
    rw [parseColumns] at h
    split at h
    · simp at h
    · split at h
      · simp at h
      · rename_i c hc
        obtain ⟨hlen, hfit⟩ := ih h (forall_mem_snoc hacc (parseColumn_fits hc))
        refine ⟨?_, hfit⟩
        rw [hlen, List.length_append, List.length_singleton]
        omega

theorem parseFields_spec {d : Bytes} {n pos : Nat} {acc r : Row}
    (h : parseFields d n pos acc = some r) (hacc : ∀ v ∈ acc, Value.Fits v) :
    r.length = acc.length + n ∧ ∀ v ∈ r, Value.Fits v := by
  induction n generalizing pos acc with
  | zero =>
    simp only [parseFields, Option.some.injEq] at h
    subst h
    exact ⟨rfl, hacc⟩
  | succ n ih =>
    -- one more field, whichever way it was read
    have more : ∀ (v : Value) {pos : Nat}, v.Fits → parseFields d n pos (acc ++ [v]) = some r →
        r.length = acc.length + (n + 1) ∧ ∀ v ∈ r, Value.Fits v := by
      intro v pos hv h
      obtain ⟨hlen, hfit⟩ := ih h (forall_mem_snoc hacc hv)
      refine ⟨?_, hfit⟩
      rw [hlen, List.length_append, List.length_singleton]
      omega
    rw [parseFields] at h
    split at h
    · simp at h
    · split_ifs at h
      · exact more none trivial h
      · split at h
        · simp at h
        · rename_i s q hs
          exact more (some s) (readLenEncString_fits hs) h

theorem parseRows_spec {caps : UInt32} {ncols fuel : Nat} {r : MessageReader} {acc rows : List Row}
    {st : UInt16 × UInt16} (h : parseRows caps ncols fuel r acc = some (rows, st))
    (hacc : ∀ w ∈ acc, w.length = ncols ∧ ∀ v ∈ w, Value.Fits v) :
    ∀ w ∈ rows, w.length = ncols ∧ ∀ v ∈ w, Value.Fits v := by
  induction fuel generalizing r acc with
  | zero => simp [parseRows] at h
  | succ fuel ih =>
    rw [parseRows] at h
    split at h
    · simp at h
    · split at h
      · simp at h
      · split_ifs at h
        · simp only [Option.some.injEq, Prod.mk.injEq] at h
          rw [← h.1]
          exact hacc
        · split at h
          · simp at h
          · rename_i w hw
            have hrow := parseFields_spec hw (by simp)
            exact ih h (forall_mem_snoc hacc (by simpa using hrow))

/-- Whatever bytes are accepted, the result set is well formed. -/
theorem parseResultSet_wellFormed {b : Bytes} {caps : UInt32} {rs : ResultSet}
    (h : parseResultSet b caps = some rs) : rs.WellFormed := by
  rw [parseResultSet] at h
  split at h
  · simp at h
  split_ifs at h
  split at h
  · simp at h
  rename_i ncols _ hcount
  have hlt := readLenEnc_lt hcount
  split_ifs at h with hzero
  rw [parseBody] at h
  split at h
  · simp at h
  rename_i cols rd hcols
  obtain ⟨hlen, hfit⟩ := parseColumns_spec hcols (by simp)
  rw [List.length_nil, Nat.zero_add] at hlen
  dsimp only at h
  generalize (if hasCap caps CLIENT_DEPRECATE_EOF = true then some rd else rd.next.map Prod.snd) =
    sep at h
  split at h
  · simp at h
  split at h
  · simp at h
  rename_i rows status warnings hrows
  have hw := parseRows_spec hrows (by simp)
  simp only [Option.some.injEq] at h
  subst h
  refine ⟨?_, by rw [hlen]; exact hlt, hfit, fun r hr => (hw r hr).1, fun r hr => (hw r hr).2⟩
  rintro rfl
  exact hzero (by simpa using hlen.symm)

/-! ### Through the cache -/

/-- What is stored: the canonical framing, as the agent hands it over. -/
def stored (rs : ResultSet) : Bytes := encodeResultSet rs BNCL_CANONICAL_CAPS 1

/-- What a connection with the capabilities `caps` is served: the stored bytes parsed and framed for
    it. -/
def served (bytes : Bytes) (caps : UInt32) (seq : UInt8) : Option Bytes :=
  (parseResultSet bytes BNCL_CANONICAL_CAPS).map fun rs => encodeResultSet rs caps seq

/-- A result set parsed from any accepted bytes, under any capabilities, is parsed back unchanged from
    the canonical framing it is stored in, and from what any connection is then served. -/
theorem answer_preserved (b : Bytes) (c₁ c₂ : UInt32) (s : UInt8) (rs : ResultSet)
    (h : parseResultSet b c₁ = some rs) :
    parseResultSet (stored rs) BNCL_CANONICAL_CAPS = some rs ∧
      ∃ out, served (stored rs) c₂ s = some out ∧ parseResultSet out c₂ = some rs := by
  have hrs := parseResultSet_wellFormed h
  have hback : ∀ caps seq, parseResultSet (encodeResultSet rs caps seq) caps = some rs :=
    fun caps seq => parseResultSet_framed hrs (encodeResultSet_eq rs caps seq)
  have hcanon := hback BNCL_CANONICAL_CAPS 1
  refine ⟨hcanon, encodeResultSet rs c₂ s, ?_, hback c₂ s⟩
  rw [served, stored, hcanon, Option.map_some]

/-- A response with an overlong column count, a separator of one byte, a NULL, an in-transaction status
    and a byte after the terminator. -/
def oddResponse : Bytes :=
  [3, 0, 0, 1, 0xFC, 1, 0] ++ 17 :: 0 :: 0 :: 2 :: List.replicate 17 0 ++ [1, 0, 0, 3, 7] ++
    [1, 0, 0, 4, 0xFB] ++ [5, 0, 0, 5, 0xFE, 0, 0, 1, 0] ++ [9]

theorem answer_preserved_sample :
    ∃ rs, parseResultSet oddResponse 0 = some rs ∧ rs.rows = [[none]] ∧
      rs.status = SERVER_STATUS_IN_TRANS ∧
      ∃ out, served (stored rs) 0x01000000 250 = some out ∧
        parseResultSet out 0x01000000 = some rs := by
  have h : (parseResultSet oddResponse 0).map (fun rs => (rs.rows, rs.status)) =
      some ([[none]], SERVER_STATUS_IN_TRANS) := by decide +kernel
  obtain ⟨rs, hrs, h⟩ := Option.map_eq_some_iff.mp h
  simp only [Prod.mk.injEq] at h
  exact ⟨rs, hrs, h.1, h.2, (answer_preserved oddResponse 0 0x01000000 250 rs hrs).2⟩

end Barnacle.Mysql
