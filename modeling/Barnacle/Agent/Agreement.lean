import Barnacle.Agent.Tracking

/-! The two walkers of a response side by side: the tracker the agent gates on, and the parser the
    stored response goes through. `parseResultSetTo` is the parser with the reader it leaves, so it says
    at which message the parser stopped; `stop_shape` takes a response it accepts apart.

    On such a response the tracker goes through the same packets. Two shapes set them apart. Where the
    separator is an empty packet the tracker passes over it, the parser does not, and with no row in
    between the tracker takes the terminator for the separator. And where a counter of the terminator
    cannot be read the tracker learns nothing, while the parser reads the status in its place. -/

namespace Barnacle.Agent
open Barnacle.Lib Barnacle.Mysql
open MessageReader (messagesOf messagesOf_payloads)

/-! ### Where the parser stops -/

/-- `parseRows`, with the reader behind the terminator. -/
def parseRowsTo (caps : UInt32) (ncols : Nat) :
    Nat → MessageReader → List Row → Option ((List Row × UInt16 × UInt16) × MessageReader)
  | 0, _, _ => none
  | fuel + 1, rd, rows =>
    match rd.next with
    | none => none
    | some (m, rd) =>
      match m.payload[0]? with
      | none => none
      | some h =>
        if h = 0xFF then none
        else if h = 0xFE ∧ m.payload.length < 9 then some ((rows, terminatorStatus m.payload caps), rd)
        else
          match parseRow m ncols with
          | none => none
          | some r => parseRowsTo caps ncols fuel rd (rows ++ [r])

/-- `parseBody`, with the reader behind the terminator. -/
def parseBodyTo (caps : UInt32) (ncols : Nat) (rd : MessageReader) : Option (ResultSet × MessageReader) :=
  match parseColumns ncols rd [] with
  | none => none
  | some (cols, rd) =>
    match (if hasCap caps CLIENT_DEPRECATE_EOF then some rd else rd.next.map Prod.snd) with
    | none => none
    | some rd =>
      match parseRowsTo caps cols.length (rd.buffered + 1) rd [] with
      | none => none
      | some ((rows, status, warnings), rd) => some ({ cols, rows, status, warnings }, rd)

/-- `parseResultSet`, with the reader behind the message it stopped at. -/
def parseResultSetTo (data : Bytes) (caps : UInt32) : Option (ResultSet × MessageReader) :=
  match (({} : MessageReader).append data).next with
  | none => none
  | some (m, rd) =>
    if m.payload = [] then none
    else if classifyResponse m.payload caps ≠ .ResultSet then none
    else
      match readLenEnc m.payload 0 with
      | none => none
      | some (ncols, _) => if ncols = 0 then none else parseBodyTo caps ncols rd

theorem parseRowsTo_fst (caps : UInt32) (ncols fuel : Nat) : ∀ (rd : MessageReader) (rows : List Row),
    (parseRowsTo caps ncols fuel rd rows).map Prod.fst = parseRows caps ncols fuel rd rows := by
  induction fuel with
  | zero =>
    intro rd rows
    rfl
  | succ fuel ih =>
    intro rd rows
    rw [parseRowsTo, parseRows]
    rcases rd.next with _ | ⟨m, rd⟩
    · rfl
    · dsimp only
      rcases m.payload[0]? with _ | h
      · rfl
      · dsimp only
        split_ifs
        · rfl
        · rfl
        · rcases parseRow m ncols with _ | r
          · rfl
          · exact ih rd (rows ++ [r])

/-- The parser with its reader finds what the parser finds. -/
theorem parseResultSetTo_fst (data : Bytes) (caps : UInt32) :
    (parseResultSetTo data caps).map Prod.fst = parseResultSet data caps := by
  have hbody : ∀ (ncols : Nat) (rd : MessageReader),
      (parseBodyTo caps ncols rd).map Prod.fst = parseBody caps ncols rd := by
    intro ncols rd
    rw [parseBodyTo, parseBody]
    rcases parseColumns ncols rd [] with _ | ⟨cols, rd⟩
    · rfl
    · dsimp only
      rcases (if hasCap caps CLIENT_DEPRECATE_EOF then some rd else rd.next.map Prod.snd) with _ | rd
      · rfl
      · dsimp only
        rw [← parseRowsTo_fst]
        rcases parseRowsTo caps cols.length (rd.buffered + 1) rd [] with _ | ⟨⟨rows, status, warnings⟩, rd⟩ <;>
          rfl
  rw [parseResultSetTo, parseResultSet]
  rcases (({} : MessageReader).append data).next with _ | ⟨m, rd⟩
  · rfl
  · dsimp only
    split_ifs
    · rfl
    · rfl
    · rcases readLenEnc m.payload 0 with _ | ⟨ncols, n⟩
      · rfl
      · dsimp only
        split_ifs
        · rfl
        · exact hbody ncols rd

/-! ### What the parser accepts -/

/-- A packet that ends the rows. -/
def endsRows (p : Bytes) : Bool := p.head? = some 0xFE ∧ p.length < 9

theorem parseColumns_shape (n : Nat) : ∀ {rd rd' : MessageReader} {acc cols : List Column},
    parseColumns n rd acc = some (cols, rd') →
    ∃ ps, payloads rd.view = ps ++ payloads rd'.view ∧ ps.length = n ∧ ∀ p ∈ ps, p ≠ [] := by
  induction n with
  | zero =>
    intro rd rd' acc cols h
    cases h
    exact ⟨[], rfl, rfl, by simp⟩
  | succ n ih =>
    intro rd rd' acc cols h
    rw [parseColumns] at h
    rcases next_of_payloads rd with ⟨hn, -⟩ | ⟨m, rd1, hn, hp⟩
    · rw [hn] at h
      cases h
    · rw [hn] at h
      dsimp only at h
      rcases hc : parseColumn m with _ | c
      · rw [hc] at h
        cases h
      · rw [hc] at h
        obtain ⟨ps, hps, hlen, hne⟩ := ih h
        refine ⟨m.payload :: ps, by rw [hp, hps]; rfl, by rw [List.length_cons, hlen], ?_⟩
        rintro p (_ | ⟨_, hp⟩)
        · -- a column definition begins with a string
          intro hnil
          simp [parseColumn, hnil, readLenEncString, readLenEnc] at hc
        · exact hne p hp

theorem parseRowsTo_shape (caps : UInt32) (ncols fuel : Nat) : ∀ {rd rd' : MessageReader}
    {acc rows : List Row} {st : UInt16 × UInt16},
    parseRowsTo caps ncols fuel rd acc = some ((rows, st), rd') →
    ∃ ps d, payloads rd.view = ps ++ d :: payloads rd'.view ∧ (∀ p ∈ ps, IsRow p) ∧
      endsRows d = true ∧ st = terminatorStatus d caps := by
  induction fuel with
  | zero =>
    intro rd rd' acc rows st h
    cases h
  | succ fuel ih =>
    intro rd rd' acc rows st h
    rw [parseRowsTo] at h
    rcases next_of_payloads rd with ⟨hn, -⟩ | ⟨m, rd1, hn, hp⟩
    · rw [hn] at h
      cases h
    · rw [hn] at h
      dsimp only at h
      rcases hm : m.payload with _ | ⟨x, tl⟩
      · rw [hm] at h
        cases h
      · rw [hm, List.getElem?_cons_zero] at h
        dsimp only at h
        split_ifs at h with hff hend
        · cases h
          refine ⟨[], x :: tl, by rw [hp, hm]; rfl, by simp, ?_, rfl⟩
          simp only [endsRows, List.head?_cons, Option.some.injEq, decide_eq_true_eq]
          exact hend
        · rcases hr : parseRow m ncols with _ | r
          · rw [hr] at h
            cases h
          · rw [hr] at h
            obtain ⟨ps, d, hps, hrows, hd, hst⟩ := ih h
            refine ⟨(x :: tl) :: ps, d, by rw [hp, hps, hm]; rfl, ?_, hd, hst⟩
            rintro p (_ | ⟨_, hp⟩)
            · refine ⟨by simp, by simpa using hff, fun hfe => ?_⟩
              rw [List.head?_cons, Option.some.injEq] at hfe
              exact Nat.le_of_not_lt fun hlt => hend ⟨hfe, hlt⟩
            · exact hrows p hp

/-- The packets of a response the parser accepts, up to the one it stops at. -/
structure Shape (caps : UInt32) where
  count : Bytes
  cols : List Bytes
  sep : List Bytes
  rows : List Bytes
  last : Bytes
  counted : classifyResponse count caps = .ResultSet
  width : (readLenEnc count 0).map Prod.fst = some cols.length
  some_col : cols ≠ []
  cols_ne : ∀ c ∈ cols, c ≠ []
  sep_length : sep.length = if hasCap caps CLIENT_DEPRECATE_EOF then 0 else 1
  are_rows : ∀ r ∈ rows, IsRow r
  ends : endsRows last = true

def Shape.packets {caps : UInt32} (s : Shape caps) : List Bytes :=
  s.count :: (s.cols ++ (s.sep ++ (s.rows ++ [s.last])))

/-- The separator, if there is one. -/
theorem separator_shape {caps : UInt32} {rd rd' : MessageReader}
    (h : (if hasCap caps CLIENT_DEPRECATE_EOF then some rd else rd.next.map Prod.snd) = some rd') :
    ∃ sep : List Bytes, payloads rd.view = sep ++ payloads rd'.view ∧
      sep.length = if hasCap caps CLIENT_DEPRECATE_EOF then 0 else 1 := by
  split_ifs at h ⊢ with hdep
  · cases h
    exact ⟨[], rfl, rfl⟩
  · rcases next_of_payloads rd with ⟨hn, -⟩ | ⟨m, rd₁, hn, hp⟩
    · rw [hn] at h
      cases h
    · rw [hn] at h
      cases h
      exact ⟨[m.payload], hp, rfl⟩

/-- What follows the column count. -/
theorem parseBodyTo_shape {caps : UInt32} {ncols : Nat} {rd rd' : MessageReader} {rs : ResultSet}
    (h : parseBodyTo caps ncols rd = some (rs, rd')) :
    ∃ (cols sep rows : List Bytes) (last : Bytes),
      payloads rd.view = cols ++ (sep ++ (rows ++ last :: payloads rd'.view)) ∧
      (cols.length = ncols ∧ ∀ c ∈ cols, c ≠ []) ∧
      (sep.length = if hasCap caps CLIENT_DEPRECATE_EOF then 0 else 1) ∧
      (∀ r ∈ rows, IsRow r) ∧ endsRows last = true ∧ rs.status = (terminatorStatus last caps).1 := by
  rw [parseBodyTo] at h
  rcases hcols : parseColumns ncols rd [] with _ | ⟨cols, rd₁⟩
  · rw [hcols] at h
    cases h
  rw [hcols] at h
  dsimp only at h
  rcases hsep : (if hasCap caps CLIENT_DEPRECATE_EOF then some rd₁ else rd₁.next.map Prod.snd) with _ | rd₂
  · rw [hsep] at h
    cases h
  rw [hsep] at h
  dsimp only at h
  rcases hrows : parseRowsTo caps cols.length (rd₂.buffered + 1) rd₂ [] with _ | ⟨⟨rows, st⟩, rd₃⟩
  · rw [hrows] at h
    cases h
  rw [hrows] at h
  cases h
  obtain ⟨cps, hcps, hcols⟩ := parseColumns_shape ncols hcols
  obtain ⟨sep, hsep, hslen⟩ := separator_shape hsep
  obtain ⟨rps, last, hrps, hrow, hlast, hst⟩ := parseRowsTo_shape caps _ _ hrows
  exact ⟨cps, sep, rps, last, by rw [hcps, hsep, hrps], hcols, hslen, hrow, hlast, by rw [← hst]⟩

/-- A response the parser accepts has this shape, and the status found is the last packet's. -/
theorem stop_shape {b : Bytes} {caps : UInt32} {rs : ResultSet} {rd : MessageReader}
    (h : parseResultSetTo b caps = some (rs, rd)) :
    ∃ s : Shape caps, payloads b = s.packets ++ payloads rd.view ∧
      rs.status = (terminatorStatus s.last caps).1 := by
  have hview : (({} : MessageReader).append b).view = b := MessageReader.view_append _ _
  rw [parseResultSetTo] at h
  rcases next_of_payloads (({} : MessageReader).append b) with ⟨hn, -⟩ | ⟨m, rd1, hn, hp⟩
  · rw [hn] at h
    cases h
  rw [hn] at h
  rw [hview] at hp
  dsimp only at h
  split_ifs at h with hne hkind
  rcases hc : readLenEnc m.payload 0 with _ | ⟨ncols, pos⟩
  · rw [hc] at h
    cases h
  rw [hc] at h
  dsimp only at h
  split_ifs at h with h0
  obtain ⟨cols, sep, rows, last, hbody, ⟨hclen, hcne⟩, hslen, hrow, hlast, hst⟩ := parseBodyTo_shape h
  have hsome : cols ≠ [] := fun hnil => h0 (by rw [← hclen, hnil]; rfl)
  refine ⟨⟨m.payload, cols, sep, rows, last, not_not.mp hkind, by rw [hc, Option.map_some, hclen], hsome,
    hcne, hslen, hrow, hlast⟩, ?_, hst⟩
  simp [Shape.packets, hp, hbody]

/-! ### The tracker on what the parser accepts -/

section Walk
variable {caps : UInt32}

/-- An empty packet in front of the rows is passed over. -/
theorem passes_empty {t : ResponseTracker} (h : t.state ≠ .Done) : Passes t [[]] t := by
  have hstep : feedPayload t [] = (false, t) := by
    simp only [feedPayload, ResponseTracker.feed, if_neg h]
  exact Passes.cons hstep (Passes.nil t)

/-- The packets up to the last column definition. -/
theorem Shape.passes_columns (s : Shape caps) :
    Passes (ResponseTracker.begin caps) ([s.count] ++ s.cols)
      { ResponseTracker.begin caps with state := afterColumns caps } := by
  obtain ⟨⟨n, pos⟩, hread, hn⟩ := Option.map_eq_some_iff.mp s.width
  have hlen : s.cols.length ≠ 0 := fun h => s.some_col (List.eq_nil_of_length_eq_zero h)
  dsimp only at hn
  subst hn
  exact (seen_first s.counted hread hlen).trans (seen_columns s.cols s.some_col s.cols_ne rfl rfl)

/-- The separator is empty and there is no row behind it. -/
def Shape.Empty (s : Shape caps) : Prop := s.sep = [[]] ∧ s.rows = []

/-- Unless there is nothing between the columns and the end, the tracker is at the rows there. -/
theorem Shape.passes (s : Shape caps) (h : ¬ s.Empty) :
    Passes (ResponseTracker.begin caps) ([s.count] ++ s.cols ++ (s.sep ++ s.rows))
      { ResponseTracker.begin caps with state := .Rows } := by
  refine s.passes_columns.trans ?_
  have hsep := s.sep_length
  have hrows := s.are_rows
  rcases hdep : hasCap caps CLIENT_DEPRECATE_EOF with _ | _
  · have hstate : afterColumns caps = .ColumnEof := by simp [afterColumns, hdep]
    rw [hdep, if_neg (by decide)] at hsep
    obtain ⟨x, hx⟩ := List.length_eq_one_iff.mp hsep
    rw [hstate, hx]
    rcases x with _ | ⟨y, x⟩
    · -- the first row goes where the separator is expected
      obtain ⟨r, rows, hr⟩ := List.exists_cons_of_ne_nil (fun hnil => h ⟨hx, hnil⟩)
      rw [hr] at hrows ⊢
      have hne := (hrows r List.mem_cons_self).1
      have hrest := fun r' hr' => hrows r' (List.mem_cons_of_mem r hr')
      exact (passes_empty (by simp)).trans ((seen_columnEof hne rfl).trans (seen_rows rows rfl hrest))
    · exact (seen_columnEof (by simp) rfl).trans (seen_rows s.rows rfl hrows)
  · have hstate : afterColumns caps = .Rows := by simp [afterColumns, hdep]
    rw [hdep, if_pos rfl] at hsep
    rw [hstate, List.eq_nil_of_length_eq_zero hsep]
    exact seen_rows s.rows rfl hrows

/-- If there is nothing between, the end goes where the separator is expected. -/
theorem Shape.unseen (s : Shape caps) (h : s.Empty) : seen (ResponseTracker.begin caps) s.packets = none := by
  obtain ⟨hsep, hrows⟩ := h
  have hlen := s.sep_length
  have hdep : hasCap caps CLIENT_DEPRECATE_EOF = false := by
    rw [hsep] at hlen
    split_ifs at hlen with hd
    exact eq_false_of_ne_true hd
  have hstate : afterColumns caps = .ColumnEof := by simp [afterColumns, hdep]
  have hne : s.last ≠ [] := by
    intro hnil
    have := s.ends
    rw [hnil] at this
    cases this
  have hcols := s.passes_columns
  rw [hstate] at hcols
  have hpass := hcols.trans ((passes_empty (by simp)).trans (seen_columnEof hne rfl))
  rw [Shape.packets, hsep, hrows]
  simpa using hpass.1

/-- The flag the tracker takes from a packet that ends the rows. -/
def trackedFlag (d : Bytes) (caps : UInt32) : Bool :=
  ((ResponseTracker.statusOf d caps).map fun st => hasStatus st SERVER_STATUS_IN_TRANS).getD false

/-- Otherwise the end is seen where it is. -/
theorem Shape.endsWith (s : Shape caps) (h : ¬ s.Empty) :
    ∃ t, EndsWith (ResponseTracker.begin caps) s.packets t ∧ t.state = .Done ∧
      t.in_transaction = trackedFlag s.last caps := by
  have hends := s.ends
  rw [endsRows, decide_eq_true_eq] at hends
  have hp : s.packets = [s.count] ++ s.cols ++ (s.sep ++ s.rows) ++ [s.last] := by simp [Shape.packets]
  rw [hp]
  refine ⟨_, (s.passes h).endsWith (seen_end rfl hends.1 hends.2), ?_, ?_⟩
  · rw [ResponseTracker.finish]
    rcases ResponseTracker.statusOf s.last _ with _ | st <;> rfl
  · rw [ResponseTracker.finish, trackedFlag]
    have hcaps : (ResponseTracker.begin caps).caps = caps := rfl
    simp only [hcaps]
    rcases ResponseTracker.statusOf s.last caps with _ | st <;> rfl

end Walk

/-! ### The flag -/

/-- The transaction flag is the lowest bit. -/
theorem hasStatus_ofNat (n : Nat) :
    hasStatus (UInt16.ofNat n) SERVER_STATUS_IN_TRANS = decide (n % 2 = 1) := by
  have hbit : (UInt16.ofNat n &&& SERVER_STATUS_IN_TRANS).toNat = n % 2 := by
    have h1 : SERVER_STATUS_IN_TRANS.toNat = 1 := rfl
    rw [UInt16.toNat_and, UInt16.toNat_ofNat', h1, Nat.and_one_is_mod]
    omega
  rw [hasStatus, Bool.eq_iff_iff, bne_iff_ne, decide_eq_true_iff, ne_eq, ← UInt16.toNat_inj, hbit]
  have h0 : (0 : UInt16).toNat = 0 := rfl
  rw [h0]
  omega

/-- A byte at `pos` that no length-encoded integer starts with, and four bytes from there on. -/
def unreadable (d : Bytes) (pos : Nat) : Bool :=
  pos + 4 ≤ d.length ∧ (d[pos]? = some 0xFB ∨ d[pos]? = some 0xFF)

/-- One of the two counters of an OK packet cannot be read. -/
def misread (d : Bytes) : Bool := unreadable d 1 || (readLenEnc d 1).any fun r => unreadable d r.2

theorem readLenEnc_some {d : Bytes} {pos : Nat} {r : Nat × Nat} (h : readLenEnc d pos = some r) :
    unreadable d pos = false ∧ pos < r.2 := by
  obtain ⟨first, hfirst, hcase⟩ := readLenEnc_cases h
  have hne : first ≠ 0xFB ∧ first ≠ 0xFF ∧ pos < r.2 := by
    rcases hcase with ⟨hlt, -, hp⟩ | ⟨w, hl, -, -, hp⟩
    · refine ⟨?_, ?_, by omega⟩
      all_goals
        rintro rfl
        exact absurd hlt (by decide)
    · refine ⟨?_, ?_, by omega⟩
      all_goals
        rintro rfl
        simp [LeadByte] at hl
  rw [unreadable, decide_eq_false_iff_not, hfirst]
  simp only [Option.some.injEq]
  exact ⟨fun h => h.2.elim hne.1 hne.2.1, hne.2.2⟩

/-- Where a counter cannot be read but four bytes are there, the word the parser reads in its place
    has the flag of a transaction exactly if it starts with one of the two bytes. -/
theorem unreadable_flag {d : Bytes} {pos : Nat} (h : readLenEnc d pos = none) (hroom : pos + 4 ≤ d.length)
    (hshort : d.length < pos + 9) :
    hasStatus (UInt16.ofNat (leAt d pos 2)) SERVER_STATUS_IN_TRANS = unreadable d pos := by
  have hlt : pos < d.length := by omega
  have hdrop : d.drop pos = d[pos] :: d.drop (pos + 1) := List.drop_eq_getElem_cons hlt
  have hx : d[pos]? = some d[pos] := List.getElem?_eq_getElem hlt
  have hword : leAt d pos 2 % 2 = d[pos].toNat % 2 := by
    rw [leAt, hdrop, List.take_succ_cons, leVal]
    omega
  rw [readLenEnc, hx] at h
  dsimp only at h
  split_ifs at h with h1 h2 h3 h4 h5 h6
  -- the wider lengths have room, so the byte is 0xFE, 0xFB or 0xFF
  all_goals try omega
  · rw [hasStatus_ofNat, hword, h6, unreadable, hx, h6]
    simp [hroom]
  · have hcase : d[pos] = 0xFB ∨ d[pos] = 0xFF := by
      rw [UInt8.lt_iff_toNat_lt] at h1
      rw [← UInt8.toNat_inj] at h2 h4 h6 ⊢
      rw [← UInt8.toNat_inj]
      have hbyte := d[pos].toNat_lt
      simp only [UInt8.reduceToNat] at h1 h2 h4 h6 ⊢
      omega
    rw [hasStatus_ofNat, hword, unreadable, hx]
    rcases hcase with h | h <;> simp [h, hroom]

/-- Where the parser reads the status of an OK packet: behind the counters it could read. -/
def statusAt (d : Bytes) : Nat :=
  let p := ((readLenEnc d 1).map Prod.snd).getD 1
  ((readLenEnc d p).map Prod.snd).getD p

/-- The flag of a transaction at `pos`, if a status and a warning count fit in there. -/
def flagAt (d : Bytes) (pos : Nat) : Bool :=
  pos + 4 ≤ d.length ∧ hasStatus (UInt16.ofNat (leAt d pos 2)) SERVER_STATUS_IN_TRANS = true

theorem hasStatus_terminatorStatus {d : Bytes} {caps : UInt32}
    (hdep : hasCap caps CLIENT_DEPRECATE_EOF = true) :
    hasStatus (terminatorStatus d caps).1 SERVER_STATUS_IN_TRANS = flagAt d (statusAt d) := by
  rw [terminatorStatus, if_pos hdep, flagAt, statusAt]
  dsimp only
  split_ifs with h
  · simp [h]
  · simp [h]
    rfl

/-- The tracker reads the flag behind both counters or not at all. -/
theorem trackedFlag_ok {d : Bytes} {caps : UInt32} (h41 : hasCap caps CLIENT_PROTOCOL_41 = true)
    (hdep : hasCap caps CLIENT_DEPRECATE_EOF = true) (h0 : d[0]? = some 0xFE) :
    trackedFlag d caps =
      ((readLenEnc d 1).any fun r => (readLenEnc d r.2).any fun r' => flagAt d r'.2) := by
  have hstatus := hasCap_status h41
  rw [trackedFlag, ResponseTracker.statusOf, if_neg (by rw [hdep]; simp), parseOk, h0]
  dsimp only
  rw [if_neg (by simp)]
  rcases readLenEnc d 1 with _ | ⟨n, p⟩
  · rfl
  · dsimp only [Option.any_some]
    rcases readLenEnc d p with _ | ⟨n', q⟩
    · rfl
    · dsimp only [Option.any_some]
      simp only [hstatus, h41, if_true, true_and, flagAt]
      split_ifs with h1 h2
      · exact (decide_eq_false fun h => absurd h.1 (by omega)).symm
      · exact (decide_eq_false fun h => absurd h.1 (by omega)).symm
      · have hroom : q + 4 ≤ d.length := by omega
        simp [hroom]

/-- Both walkers take the same flag from a packet that ends the rows, unless one of its counters
    cannot be read. -/
theorem flags_agree_iff {d : Bytes} {caps : UInt32} (h41 : hasCap caps CLIENT_PROTOCOL_41 = true)
    (hd : endsRows d = true) :
    trackedFlag d caps = hasStatus (terminatorStatus d caps).1 SERVER_STATUS_IN_TRANS ↔
      (hasCap caps CLIENT_DEPRECATE_EOF && misread d) = false := by
  rw [endsRows, decide_eq_true_eq] at hd
  obtain ⟨hhead, hshort⟩ := hd
  have h0 : d[0]? = some 0xFE := by rw [← List.head?_eq_getElem?]; exact hhead
  -- a counter that cannot be read, and the word in its place
  have hfail : ∀ pos, 1 ≤ pos → readLenEnc d pos = none → flagAt d pos = unreadable d pos := by
    intro pos hpos hnone
    rcases Nat.lt_or_ge d.length (pos + 4) with hlt | hroom
    · rw [flagAt, unreadable, decide_eq_false fun h => absurd h.1 (by omega),
        decide_eq_false fun h => absurd h.1 (by omega)]
    · rw [flagAt, ← unreadable_flag hnone hroom (by omega)]
      simp [hroom]
  rcases hdep : hasCap caps CLIENT_DEPRECATE_EOF with _ | _
  · -- a plain EOF packet
    have hnot : ¬ hasCap caps CLIENT_DEPRECATE_EOF = true := by rw [hdep]; decide
    rw [trackedFlag, ResponseTracker.statusOf, if_pos ⟨h0, hshort, hnot⟩, terminatorStatus, if_neg hnot]
    refine iff_of_true ?_ rfl
    rcases Nat.lt_or_ge d.length 5 with hlen | hlen
    · rw [parseEof, if_pos (.inl hlen), if_neg (by omega)]
      rfl
    · rw [parseEof, if_neg (not_or.mpr ⟨by omega, not_not_intro h0⟩), if_pos hlen]
      rfl
  · rw [trackedFlag_ok h41 hdep h0, hasStatus_terminatorStatus hdep, misread, statusAt, Bool.true_and]
    rcases h1 : readLenEnc d 1 with _ | ⟨n, p⟩
    · simp only [h1, Option.map_none, Option.getD_none, Option.any_none, hfail 1 (Nat.le_refl 1) h1,
        Bool.or_false]
      exact eq_comm
    · obtain ⟨hr1, hp⟩ := readLenEnc_some h1
      rcases h2 : readLenEnc d p with _ | ⟨n', q⟩
      · simp only [Option.map_some, Option.getD_some, Option.any_some, h2, Option.map_none, Option.getD_none,
          Option.any_none, hfail p (by omega) h2, hr1, Bool.false_or]
        exact eq_comm
      · simp [h2, hr1, (readLenEnc_some h2).1]

/-! ### Agreement -/

/-- The packets of a response behind its column definitions. -/
def behindColumns (ps : List Bytes) : List Bytes :=
  ps.drop (((readLenEnc (ps.headD []) 0).map Prod.fst).getD 0 + 1)

/-- The shapes that set the walkers apart: in the deprecated framing a terminator with a counter that
    cannot be read, in the plain one an empty separator with the terminator right behind it. -/
def diverges (caps : UInt32) (ps : List Bytes) : Bool :=
  if hasCap caps CLIENT_DEPRECATE_EOF then ((behindColumns ps).find? endsRows).any misread
  else (behindColumns ps).head? = some [] ∧ (behindColumns ps).tail.head?.any endsRows = true

theorem IsRow.not_endsRows {p : Bytes} (h : IsRow p) : endsRows p = false := by
  rw [endsRows, decide_eq_false_iff_not]
  rintro ⟨hfe, hlt⟩
  have := h.2.2 hfe
  omega

theorem Shape.diverges_iff {caps : UInt32} (s : Shape caps) (rest : List Bytes) :
    diverges caps (s.packets ++ rest) = false ↔
      ¬ s.Empty ∧ (hasCap caps CLIENT_DEPRECATE_EOF && misread s.last) = false := by
  have hbehind : behindColumns (s.packets ++ rest) = s.sep ++ (s.rows ++ s.last :: rest) := by
    rw [behindColumns, Shape.packets, List.cons_append, List.headD_cons, s.width, Option.getD_some,
      List.drop_succ_cons]
    simp
  have hsep := s.sep_length
  rw [diverges, hbehind]
  rcases hdep : hasCap caps CLIENT_DEPRECATE_EOF with _ | _
  · rw [hdep, if_neg (by decide)] at hsep
    obtain ⟨x, hx⟩ := List.length_eq_one_iff.mp hsep
    have hnext : (s.rows ++ s.last :: rest).head?.any endsRows = true ↔ s.rows = [] := by
      rcases hrows : s.rows with _ | ⟨r, rows⟩
      · simp [s.ends]
      · simp [(s.are_rows r (by rw [hrows]; exact List.mem_cons_self)).not_endsRows]
    rw [if_neg (by decide), Shape.Empty, hx, List.singleton_append, List.head?_cons, List.tail_cons,
      decide_eq_false_iff_not, hnext]
    simp
  · rw [hdep, if_pos rfl] at hsep
    have hfind : (s.rows ++ s.last :: rest).find? endsRows = some s.last := by
      have hnone : s.rows.find? endsRows = none := by
        rw [List.find?_eq_none]
        intro r hr
        simp [(s.are_rows r hr).not_endsRows]
      rw [List.find?_append, hnone, List.find?_cons_of_pos s.ends]
      rfl
    rw [if_pos rfl, Shape.Empty, List.eq_nil_of_length_eq_zero hsep, List.nil_append, hfind, Option.any_some,
      Bool.true_and]
    simp

/-- On a response the parser accepts, the tracker completes at the message the parser stopped at, and
    ends with the transaction flag of the status the parser found, exactly if the response has neither
    of the shapes that set the two apart. -/
theorem walkers_agree_iff {b : Bytes} {caps : UInt32} {rs : ResultSet}
    (h41 : hasCap caps CLIENT_PROTOCOL_41 = true) (h : parseResultSet b caps = some rs) :
    ∃ rd, parseResultSetTo b caps = some (rs, rd) ∧
      ((CompletesAtLast (ResponseTracker.begin caps)
          ((messagesOf b).take ((messagesOf b).length - rd.drain.1.length)) ∧
        (feedAll (ResponseTracker.begin caps) (messagesOf b)).2.in_transaction =
          hasStatus rs.status SERVER_STATUS_IN_TRANS) ↔
      diverges caps (payloads b) = false) := by
  rw [← parseResultSetTo_fst, Option.map_eq_some_iff] at h
  obtain ⟨⟨rs', rd⟩, hto, rfl⟩ := h
  refine ⟨rd, hto, ?_⟩
  obtain ⟨s, hps, hst⟩ := stop_shape hto
  -- the messages are those read, whose payloads are the shape's packets, and those left
  have hleft : rd.drain.1.length = (payloads rd.view).length := by
    rw [(MessageReader.drain_split rd).1, payloads, List.length_map, List.length_map]
  have hlen : (messagesOf b).length - rd.drain.1.length = s.packets.length := by
    have := congrArg List.length (messagesOf_payloads b)
    rw [List.length_map, hps, List.length_append] at this
    omega
  have hread : ((messagesOf b).take s.packets.length).map Message.payload = s.packets := by
    rw [List.map_take, messagesOf_payloads, hps, List.take_left]
  have hms : (messagesOf b).take s.packets.length ++ (messagesOf b).drop s.packets.length = messagesOf b :=
    List.take_append_drop _ _
  rw [hlen, hps, s.diverges_iff, ← flags_agree_iff h41 s.ends, ← hst]
  generalize (messagesOf b).take s.packets.length = read at hread hms ⊢
  refine ⟨?_, ?_⟩
  · rintro ⟨hcomp, hflag⟩
    have hne : ¬ s.Empty := fun hempty =>
      not_completes (by rw [hread]; exact s.unseen hempty) hcomp
    obtain ⟨t, ht, hdone, htxn⟩ := s.endsWith hne
    rw [← hread] at ht
    rw [← hms, feedAll_append, ht.completes.2, feedAll_done _ hdone] at hflag
    exact ⟨hne, by rw [← htxn]; exact hflag⟩
  · rintro ⟨hne, hflag⟩
    obtain ⟨t, ht, hdone, htxn⟩ := s.endsWith hne
    rw [← hread] at ht
    refine ⟨ht.completes.1, ?_⟩
    rw [← hms, feedAll_append, ht.completes.2, feedAll_done _ hdone]
    exact htxn.trans hflag

theorem walkers_agree_oneRow :
    let rs : ResultSet := ⟨[⟨[], [], [], [], [110], [], 0, 0, 3, 0, 0⟩], [[some [49]]], 0, 0⟩
    ∃ rd, parseResultSetTo oneRow BNCL_CANONICAL_CAPS = some (rs, rd) ∧
      CompletesAtLast (ResponseTracker.begin BNCL_CANONICAL_CAPS)
        ((messagesOf oneRow).take ((messagesOf oneRow).length - rd.drain.1.length)) := by
  intro rs
  have hparse : parseResultSet oneRow BNCL_CANONICAL_CAPS = some rs := by decide
  obtain ⟨rd, hto, hiff⟩ := walkers_agree_iff (by decide) hparse
  exact ⟨rd, hto, (hiff.mpr (by decide)).1⟩

/-- One column, an empty separator and no row: the parser stops at the fourth message, the tracker at
    none. And a terminator with 0xFB for its first counter: the parser finds a transaction. -/
theorem walkers_disagree :
    let col := columnPayload ⟨[], [], [], [], [110], [], 0, 0, 3, 0, 0⟩
    let plain := framed 1 [[1], col, [], [0xFE, 0, 0, 3, 0]]
    let dep := framed 1 [[1], col, [0xFE, 0xFB, 0, 0, 0, 0, 0]]
    (parseResultSet plain baseCaps).isSome = true ∧
      (feedAll (ResponseTracker.begin baseCaps) (messagesOf plain)).1 = [false, false, false, false] ∧
      (parseResultSet dep BNCL_CANONICAL_CAPS).any
        (fun rs => hasStatus rs.status SERVER_STATUS_IN_TRANS) = true ∧
      (feedAll (ResponseTracker.begin BNCL_CANONICAL_CAPS) (messagesOf dep)).2.in_transaction = false := by
  decide

end Barnacle.Agent
