import Barnacle.Mysql.Bounds

/-! `parseResultSet` as the code does its reads (`src/common/mysql/resultset.cpp`). The declared number of
    columns is whatever eight bytes can say, but every column costs a message and every message a header:
    the rounds are counted against the headers the input has room for, and the messages taken are counted
    on the way. -/

namespace Barnacle.Mysql.Bounds
open Barnacle.Lib Barnacle.Lib.Checked

/-! ### Columns and rows -/

def parseColumn (m : Message) : Checked Column := do
  let d := m.payload
  let (catalog, pos) ← getLenEncStr d 0
  let (schema, pos) ← getLenEncStr d pos
  let (table, pos) ← getLenEncStr d pos
  let (org_table, pos) ← getLenEncStr d pos
  let (name, pos) ← getLenEncStr d pos
  let (org_name, pos) ← getLenEncStr d pos
  let (_, pos) ← readLenEnc d pos
  if add64 pos 10 > d.length then refuse
  else do
    let charset ← leRead d pos 2
    let pos := add64 pos 2
    let length ← leRead d pos 4
    let pos := add64 pos 4
    let type ← byteAt d pos
    let pos := add64 pos 1
    let flags ← leRead d pos 2
    let pos := add64 pos 2
    let decimals ← byteAt d pos
    give (some { catalog, schema, table, org_table, name, org_name, charset := UInt16.ofNat charset,
                 length := UInt32.ofNat length, type, flags := UInt16.ofNat flags, decimals })

def parseFields (d : Bytes) : Nat → Nat → Row → Checked Row
  | 0, _, r => give (some r)
  | n + 1, pos, r =>
    if pos ≥ d.length then refuse
    else do
      let b ← byteAt d pos
      if b = 0xFB then parseFields d n (add64 pos 1) (r ++ [none])
      else do
        let (s, pos) ← getLenEncStr d pos
        parseFields d n pos (r ++ [some s])

def parseRow (m : Message) (ncols : Nat) : Checked Row := parseFields m.payload ncols 0 []

def terminatorStatus (d : Bytes) (caps : UInt32) : Checked (UInt16 × UInt16) :=
  if hasCap caps CLIENT_DEPRECATE_EOF then do
    let affected ← attempt (readLenEnc d 1)
    let p := (affected.map Prod.snd).getD 1
    let insert_id ← attempt (readLenEnc d p)
    let p := (insert_id.map Prod.snd).getD p
    if add64 p 4 ≤ d.length then do
      let status ← leRead d p 2
      let warnings ← leRead d (add64 p 2) 2
      give (some (UInt16.ofNat status, UInt16.ofNat warnings))
    else give (some (0, 0))
  else if d.length ≥ 5 then do
    let warnings ← leRead d 1 2
    let status ← leRead d 3 2
    give (some (UInt16.ofNat status, UInt16.ofNat warnings))
  else give (some (0, 0))

theorem parseColumn_eq {m : Message} (hd : m.payload.length < 2 ^ 63) :
    parseColumn m = give (Mysql.parseColumn m) := by
  simp only [parseColumn, Mysql.parseColumn, getLenEncStr_eq hd, readLenEnc_eq hd]
  refine give_bind_eq fun x₁ _ => give_bind_eq fun x₂ _ => give_bind_eq fun x₃ _ => ?_
  refine give_bind_eq fun x₄ _ => give_bind_eq fun x₅ _ => give_bind_eq fun x₆ _ => ?_
  refine give_bind_eq fun x₇ h₇ => ?_
  have hle := (readLenEnc_le h₇).2
  rw [add64_of_lt (by omega)]
  refine guard_eq Iff.rfl fun h => ?_
  rw [leRead_of_le _ (by omega), give_some_bind, add64_of_lt (by omega), leRead_of_le _ (by omega), give_some_bind,
    add64_of_lt (by omega), byteAt_of_lt (by omega), give_some_bind, add64_of_lt (by omega),
    leRead_of_le _ (by omega), give_some_bind, add64_of_lt (by omega), byteAt_of_lt (by omega), give_some_bind]

theorem parseFields_eq {d : Bytes} (hd : d.length < 2 ^ 63) (n : Nat) : ∀ (pos : Nat) (r : Row),
    parseFields d n pos r = give (Mysql.parseFields d n pos r) := by
  induction n with
  | zero => exact fun _ _ => rfl
  | succ n ih =>
    intro pos r
    rw [parseFields, Mysql.parseFields]
    cases hb : d[pos]? with
    | none =>
      rw [if_pos (List.getElem?_eq_none_iff.mp hb)]
      rfl
    | some b =>
      obtain ⟨hlt, -⟩ := List.getElem?_eq_some_iff.mp hb
      rw [if_neg (by omega), byteAt_of_getElem? hb, give_some_bind, add64_of_lt (by omega)]
      dsimp only
      by_cases hnull : b = 0xFB
      · rw [if_pos hnull, if_pos hnull]
        exact ih _ _
      · rw [if_neg hnull, if_neg hnull, getLenEncStr_eq hd]
        cases Mysql.readLenEncString d pos with
        | none => rfl
        | some sp => exact ih _ _

theorem parseRow_eq {m : Message} (hd : m.payload.length < 2 ^ 63) (ncols : Nat) :
    parseRow m ncols = give (Mysql.parseRow m ncols) := parseFields_eq hd ncols 0 []

theorem terminatorStatus_eq {d : Bytes} (hd : d.length < 2 ^ 63) (caps : UInt32) :
    terminatorStatus d caps = give (some (Mysql.terminatorStatus d caps)) := by
  have hnext : ∀ p, p ≤ d.length + 1 → ((Mysql.readLenEnc d p).map Prod.snd).getD p ≤ d.length + 1 := by
    intro p hp
    cases hr : Mysql.readLenEnc d p with
    | none => exact hp
    | some np => exact Nat.le_succ_of_le (readLenEnc_le hr).2
  have hp := hnext _ (hnext 1 (by omega))
  rw [terminatorStatus, Mysql.terminatorStatus, readLenEnc_eq hd, attempt_give, give_some_bind]
  dsimp only
  rw [readLenEnc_eq hd, attempt_give, give_some_bind]
  generalize ((Mysql.readLenEnc d (((Mysql.readLenEnc d 1).map Prod.snd).getD 1)).map Prod.snd).getD
    (((Mysql.readLenEnc d 1).map Prod.snd).getD 1) = p at hp ⊢
  rw [add64_of_lt (b := 4) (by omega), add64_of_lt (b := 2) (by omega)]
  split_ifs with hc h1 h2
  · rw [leRead_of_le _ (by omega), give_some_bind, leRead_of_le _ (by omega), give_some_bind]
  · rfl
  · rw [leRead_of_le _ (by omega), give_some_bind, leRead_of_le _ (by omega), give_some_bind]
  · rfl

/-! ### The response -/

/-- A computation that may refuse, with the messages it has taken by then. -/
abbrev Counted (α : Type) := Except Trap (Option α × Nat)

/-- `for (i = 0; i < ncols; i++)`, with as many rounds as there may be headers. -/
def parseColumns (ncols : Nat) : Nat → Nat → MessageReader → List Column → Nat →
    Counted (List Column × MessageReader)
  | 0, _, _, _, _ => .error .unfinished
  | fuel + 1, i, rd, cols, reads =>
    if i < ncols then
      match next rd with
      | .error t => .error t
      | .ok none => .ok (none, reads)
      | .ok (some (m, rd)) =>
        match parseColumn m with
        | .error t => .error t
        | .ok none => .ok (none, reads + 1)
        | .ok (some c) => parseColumns ncols fuel (i + 1) rd (cols ++ [c]) (reads + 1)
    else .ok (some (cols, rd), reads)

def parseRows (caps : UInt32) (ncols : Nat) : Nat → MessageReader → List Row → Nat →
    Counted (List Row × UInt16 × UInt16)
  | 0, _, _, _ => .error .unfinished
  | fuel + 1, rd, rows, reads =>
    match next rd with
    | .error t => .error t
    | .ok none => .ok (none, reads)
    | .ok (some (m, rd)) =>
      let reads := reads + 1
      if m.payload.length = 0 then .ok (none, reads)
      else
        match byteAt m.payload 0 with
        | .error t => .error t
        | .ok none => .ok (none, reads)
        | .ok (some h) =>
          if h = 0xFF then .ok (none, reads)
          else if h = 0xFE ∧ m.payload.length < 9 then
            match terminatorStatus m.payload caps with
            | .error t => .error t
            | .ok o => .ok (o.map fun sw => (rows, sw), reads)
          else
            match parseRow m ncols with
            | .error t => .error t
            | .ok none => .ok (none, reads)
            | .ok (some r) => parseRows caps ncols fuel rd (rows ++ [r]) reads

/-- The packet between the definitions and the rows, where the framing has one. -/
def separator (caps : UInt32) (rd : MessageReader) (reads : Nat) : Counted MessageReader :=
  if hasCap caps CLIENT_DEPRECATE_EOF then .ok (some rd, reads)
  else
    match next rd with
    | .error t => .error t
    | .ok none => .ok (none, reads)
    | .ok (some (_, rd)) => .ok (some rd, reads + 1)

def parseBody (caps : UInt32) (rounds ncols : Nat) (rd : MessageReader) (reads : Nat) : Counted ResultSet :=
  match parseColumns ncols rounds 0 rd [] reads with
  | .error t => .error t
  | .ok (none, reads) => .ok (none, reads)
  | .ok (some (cols, rd), reads) =>
    match separator caps rd reads with
    | .error t => .error t
    | .ok (none, reads) => .ok (none, reads)
    | .ok (some rd, reads) =>
      match parseRows caps cols.length rounds rd [] reads with
      | .error t => .error t
      | .ok (none, reads) => .ok (none, reads)
      | .ok (some (rows, status, warnings), reads) => .ok (some { cols, rows, status, warnings }, reads)

def parseResultSet (d : Bytes) (caps : UInt32) : Counted ResultSet :=
  match next (({} : MessageReader).append d) with
  | .error t => .error t
  | .ok none => .ok (none, 0)
  | .ok (some (m, rd)) =>
    if m.payload.length = 0 then .ok (none, 1)
    else
      match classifyResponse m.payload caps with
      | .error t => .error t
      | .ok none => .ok (none, 1)
      | .ok (some kind) =>
        if kind ≠ .ResultSet then .ok (none, 1)
        else
          match readLenEnc m.payload 0 with
          | .error t => .error t
          | .ok none => .ok (none, 1)
          | .ok (some (ncols, _)) =>
            if ncols = 0 then .ok (none, 1) else parseBody caps (d.length / kHeaderLen + 1) ncols rd 1

/-- A reader as its operations keep it. -/
structure Sound (r : MessageReader) : Prop where
  fits : r.buf.length < 2 ^ 63
  within : r.consumed ≤ r.buf.length

theorem nextLoop_header {b : Bytes} {start fuel pos : Nat} {acc : Bytes} {first : Option UInt8}
    {mp : Message × Nat} (h : MessageReader.nextLoop b start fuel pos acc first = some mp) :
    pos + 4 ≤ mp.2 ∧ mp.1.payload.length + pos ≤ acc.length + mp.2 := by
  induction fuel generalizing pos acc first with
  | zero => simp [MessageReader.nextLoop] at h
  | succ fuel ih =>
    have hk : kHeaderLen = 4 := rfl
    rw [MessageReader.nextLoop] at h
    dsimp only at h
    split_ifs at h with h1 h2 h3
    · obtain ⟨hlt, hp⟩ := ih h
      rw [List.length_append, List.length_take] at hp
      exact ⟨by omega, by omega⟩
    · rw [Option.some.injEq] at h
      subst h
      dsimp only
      rw [List.length_append, List.length_take]
      exact ⟨by omega, by omega⟩

/-- A message taken is a header further, and no longer than what was held. -/
theorem Sound.next {r r' : MessageReader} {m : Message} (h : Sound r) (hn : r.next = some (m, r')) :
    Sound r' ∧ r'.buffered + 4 ≤ r.buffered ∧ m.payload.length < 2 ^ 63 := by
  rw [MessageReader.next, Option.map_eq_some_iff] at hn
  obtain ⟨⟨m', pos⟩, hl, e⟩ := hn
  simp only [Prod.mk.injEq] at e
  obtain ⟨rfl, rfl⟩ := e
  obtain ⟨-, -, hle⟩ := MessageReader.nextLoop_append [] hl
  obtain ⟨hhdr, hp⟩ := nextLoop_header hl
  have hfits := h.fits
  have hwithin := h.within
  dsimp only at hle hhdr hp
  rw [List.length_nil] at hp
  refine ⟨⟨hfits, hle⟩, ?_, by omega⟩
  rw [MessageReader.buffered, MessageReader.buffered]
  dsimp only
  omega

theorem parseColumns_eq (ncols fuel : Nat) : ∀ {i : Nat} {rd : MessageReader} (cols : List Column) (reads : Nat),
    i ≤ ncols → Sound rd → rd.buffered < 4 * fuel →
    ∃ k, parseColumns ncols fuel i rd cols reads = .ok (Mysql.parseColumns (ncols - i) rd cols, reads + k) ∧
      4 * k ≤ rd.buffered ∧ ∀ x, Mysql.parseColumns (ncols - i) rd cols = some x →
        Sound x.2 ∧ 4 * k + x.2.buffered ≤ rd.buffered := by
  induction fuel with
  | zero =>
    intro i rd cols reads _ _ hf
    omega
  | succ fuel ih =>
    intro i rd cols reads hi hs hf
    rw [parseColumns]
    by_cases hlt : i < ncols
    · obtain ⟨n, hn⟩ : ∃ n, ncols - i = n + 1 := ⟨ncols - i - 1, by omega⟩
      have hn' : ncols - (i + 1) = n := by omega
      rw [if_pos hlt, hn, Mysql.parseColumns, next_eq hs.fits hs.within]
      cases hm : rd.next with
      | none => exact ⟨0, rfl, by omega, fun x hx => by cases hx⟩
      | some mr =>
        obtain ⟨m, rd'⟩ := mr
        obtain ⟨hs', hb, hp⟩ := hs.next hm
        dsimp only [give]
        rw [parseColumn_eq hp]
        cases Mysql.parseColumn m with
        | none => exact ⟨1, rfl, by omega, fun x hx => by cases hx⟩
        | some c =>
          obtain ⟨k, e, hk, hx⟩ := ih (cols ++ [c]) (reads + 1) hlt hs' (by omega)
          rw [hn'] at e hx
          refine ⟨k + 1, ?_, by omega, ?_⟩
          · rw [Nat.add_comm k, ← Nat.add_assoc]
            exact e
          · intro x h
            obtain ⟨hsx, hbx⟩ := hx x h
            exact ⟨hsx, by omega⟩
    · obtain rfl : i = ncols := by omega
      rw [if_neg hlt, Nat.sub_self, Mysql.parseColumns]
      refine ⟨0, rfl, by omega, ?_⟩
      rintro x ⟨⟩
      exact ⟨hs, (by omega : 4 * 0 + rd.buffered ≤ rd.buffered)⟩

theorem parseRows_eq (caps : UInt32) (ncols fuel : Nat) : ∀ {rd : MessageReader} {g : Nat} (rows : List Row)
    (reads : Nat), Sound rd → rd.buffered < 4 * fuel → rd.buffered < g →
    ∃ k, parseRows caps ncols fuel rd rows reads = .ok (Mysql.parseRows caps ncols g rd rows, reads + k) ∧
      4 * k ≤ rd.buffered := by
  induction fuel with
  | zero =>
    intro rd g rows reads _ hf
    omega
  | succ fuel ih =>
    intro rd g rows reads hs hf hg
    obtain ⟨g, rfl⟩ : ∃ g', g = g' + 1 := ⟨g - 1, by omega⟩
    rw [parseRows, Mysql.parseRows, next_eq hs.fits hs.within]
    cases hm : rd.next with
    | none => exact ⟨0, rfl, by omega⟩
    | some mr =>
      obtain ⟨m, rd'⟩ := mr
      obtain ⟨hs', hb, hp⟩ := hs.next hm
      dsimp only [give]
      cases h0 : m.payload[0]? with
      | none =>
        rw [if_pos (by rw [List.getElem?_eq_none_iff] at h0; omega)]
        exact ⟨1, rfl, by omega⟩
      | some h =>
        obtain ⟨hlt, -⟩ := List.getElem?_eq_some_iff.mp h0
        rw [if_neg (by omega), byteAt_of_getElem? h0, terminatorStatus_eq hp, parseRow_eq hp]
        dsimp only [give]
        by_cases herr : h = 0xFF
        · rw [if_pos herr, if_pos herr]
          exact ⟨1, rfl, by omega⟩
        rw [if_neg herr, if_neg herr]
        by_cases hend : h = 0xFE ∧ m.payload.length < 9
        · rw [if_pos hend, if_pos hend]
          exact ⟨1, rfl, by omega⟩
        rw [if_neg hend, if_neg hend]
        cases Mysql.parseRow m ncols with
        | none => exact ⟨1, rfl, by omega⟩
        | some r =>
          obtain ⟨k, e, hk⟩ := ih (rows ++ [r]) (reads + 1) hs' (by omega) (by omega : rd'.buffered < g)
          refine ⟨k + 1, ?_, by omega⟩
          rw [Nat.add_comm k, ← Nat.add_assoc]
          exact e

theorem separator_eq (caps : UInt32) {rd : MessageReader} (hs : Sound rd) (reads : Nat) :
    ∃ k, separator caps rd reads =
        .ok (if hasCap caps CLIENT_DEPRECATE_EOF then some rd else rd.next.map Prod.snd, reads + k) ∧
      4 * k ≤ rd.buffered ∧
      ∀ rd' ∈ (if hasCap caps CLIENT_DEPRECATE_EOF then some rd else rd.next.map Prod.snd),
        Sound rd' ∧ 4 * k + rd'.buffered ≤ rd.buffered := by
  rw [separator]
  by_cases hc : hasCap caps CLIENT_DEPRECATE_EOF = true
  · rw [if_pos hc, if_pos hc]
    refine ⟨0, rfl, by omega, ?_⟩
    rintro rd' ⟨⟩
    exact ⟨hs, by omega⟩
  · rw [if_neg hc, if_neg hc, next_eq hs.fits hs.within]
    cases hm : rd.next with
    | none => exact ⟨0, rfl, by omega, fun rd' h => by cases h⟩
    | some mr =>
      obtain ⟨hs', hb, -⟩ := hs.next hm
      refine ⟨1, rfl, by omega, ?_⟩
      rintro rd' ⟨⟩
      exact ⟨hs', by omega⟩

theorem parseBody_eq (caps : UInt32) {rounds : Nat} (ncols : Nat) {rd : MessageReader} (hs : Sound rd)
    (hr : rd.buffered < 4 * rounds) (reads : Nat) :
    ∃ k, parseBody caps rounds ncols rd reads = .ok (Mysql.parseBody caps ncols rd, reads + k) ∧
      4 * k ≤ rd.buffered := by
  obtain ⟨k₁, e₁, hk₁, hx₁⟩ := parseColumns_eq ncols rounds [] reads (Nat.zero_le _) hs hr
  rw [Nat.sub_zero] at e₁ hx₁
  rw [parseBody, Mysql.parseBody, e₁]
  cases hcols : Mysql.parseColumns ncols rd [] with
  | none => exact ⟨k₁, rfl, hk₁⟩
  | some cr =>
    obtain ⟨cols, rd₁⟩ := cr
    obtain ⟨hs₁, hb₁⟩ := hx₁ _ hcols
    dsimp only at hs₁ hb₁ ⊢
    obtain ⟨k₂, e₂, hk₂, hx₂⟩ := separator_eq caps hs₁ (reads + k₁)
    rw [e₂]
    cases hsep : (if hasCap caps CLIENT_DEPRECATE_EOF then some rd₁ else rd₁.next.map Prod.snd) with
    | none => exact ⟨k₁ + k₂, by rw [Nat.add_assoc], by omega⟩
    | some rd₂ =>
      obtain ⟨hs₂, hb₂⟩ := hx₂ rd₂ hsep
      obtain ⟨k₃, e₃, hk₃⟩ := parseRows_eq caps cols.length rounds [] (reads + k₁ + k₂) hs₂ (by omega)
        (Nat.lt_succ_self _)
      dsimp only
      rw [e₃]
      refine ⟨k₁ + k₂ + k₃, ?_, by omega⟩
      cases Mysql.parseRows caps cols.length (rd₂.buffered + 1) rd₂ [] with
      | none => simp only [Nat.add_assoc]
      | some rows => simp only [Nat.add_assoc]

/-- What the response is, and at most as many messages as it has room for headers. -/
theorem parseResultSet_eq {d : Bytes} (hd : d.length < 2 ^ 63) (caps : UInt32) :
    ∃ k, parseResultSet d caps = .ok (Mysql.parseResultSet d caps, k) ∧ 4 * k ≤ d.length := by
  have hs : Sound (({} : MessageReader).append d) ∧ (({} : MessageReader).append d).buffered = d.length := by
    rw [← MessageReader.length_view, MessageReader.view_append, MessageReader.view_empty, List.nil_append,
      MessageReader.append]
    refine ⟨?_, rfl⟩
    split_ifs
    · exact ⟨by simp, by simp⟩
    · exact ⟨by simpa [MessageReader.compact] using hd, by simp [MessageReader.compact]⟩
  rw [parseResultSet, Mysql.parseResultSet, next_eq hs.1.fits hs.1.within]
  cases hm : (({} : MessageReader).append d).next with
  | none => exact ⟨0, rfl, by omega⟩
  | some mr =>
    obtain ⟨m, rd⟩ := mr
    obtain ⟨hs', hb, hp⟩ := hs.1.next hm
    rw [hs.2] at hb
    have hempty : m.payload.length = 0 ↔ m.payload = [] := List.length_eq_zero_iff
    dsimp only [give]
    rw [classifyResponse_eq, readLenEnc_eq hp]
    dsimp only [give]
    by_cases h0 : m.payload = []
    · rw [if_pos (hempty.mpr h0), if_pos h0]
      exact ⟨1, rfl, by omega⟩
    rw [if_neg (fun h => h0 (hempty.mp h)), if_neg h0]
    by_cases hkind : Mysql.classifyResponse m.payload caps ≠ .ResultSet
    · rw [if_pos hkind, if_pos hkind]
      exact ⟨1, rfl, by omega⟩
    rw [if_neg hkind, if_neg hkind]
    cases Mysql.readLenEnc m.payload 0 with
    | none => exact ⟨1, rfl, by omega⟩
    | some np =>
      obtain ⟨ncols, p⟩ := np
      dsimp only
      by_cases hz : ncols = 0
      · rw [if_pos hz, if_pos hz]
        exact ⟨1, rfl, by omega⟩
      rw [if_neg hz, if_neg hz]
      have hrounds := lt_rounds d.length
      obtain ⟨k, e, hk⟩ := parseBody_eq caps ncols hs' (by omega : rd.buffered < 4 * (d.length / kHeaderLen + 1)) 1
      exact ⟨1 + k, e, by omega⟩

end Barnacle.Mysql.Bounds
