import Barnacle.Mysql.Packets
import Barnacle.Agent.Responses

/-! What the parser makes of a server's response, in the framing the server used and in the other one,
    and so what `inferCaps` learns from it. Read in its own framing, a result set is what its packets
    say. Read in the other, either the separator is taken for the terminator and no row is found, or
    the first row is taken for the separator and one row is missing; so the reading with more rows is
    the right one, and a tie can only be the plain framing's. -/

namespace Barnacle.Agent
open Barnacle.Lib Barnacle.Mysql

/-- The result set a part is, if its packets can be read. -/
def Part.result : Part → Option ResultSet
  | .set cols _ rows (.done o) => do
    let cols ← cols.mapM columnOf
    let rows ← rows.mapM (rowOf cols.length)
    return ⟨cols, rows, o.status, o.warnings⟩
  | _ => none

/-- The capabilities of a connection, by its framing. -/
def capsOf (dep : Bool) : UInt32 := if dep then baseCaps ||| CLIENT_DEPRECATE_EOF else baseCaps

theorem hasCap_capsOf (dep : Bool) : hasCap (capsOf dep) CLIENT_DEPRECATE_EOF = dep := by
  cases dep <;> decide

theorem mapM_cons_some {α β : Type} {f : α → Option β} {x : α} {xs : List α} {ys : List β}
    (h : (x :: xs).mapM f = some ys) : ∃ y ys', f x = some y ∧ xs.mapM f = some ys' ∧ ys = y :: ys' := by
  simp only [List.mapM_cons, Option.bind_eq_bind, Option.bind_eq_some_iff, Option.pure_def,
    Option.some.injEq] at h
  obtain ⟨y, hy, ys', hys, rfl⟩ := h
  exact ⟨y, ys', hy, hys, rfl⟩

/-! ### Columns, rows and the end -/

/-- Where the columns end the rest begins, whatever it is. -/
theorem takeColumns_append (cols ps : List Bytes) (acc : List Column) :
    takeColumns cols.length (cols ++ ps) acc = (cols.mapM columnOf).map fun cs => (acc ++ cs, ps) := by
  induction cols generalizing acc with
  | nil => simp [takeColumns]
  | cons p cols ih =>
    rw [List.length_cons, List.cons_append, takeColumns, List.mapM_cons]
    rcases columnOf p with _ | c
    · rfl
    · simp only [ih]
      rcases cols.mapM columnOf with _ | cs
      · rfl
      · simp

theorem takeRows_cons_row {caps : UInt32} {n : Nat} {p : Bytes} (hp : IsRow p) (ps : List Bytes)
    (acc : List Row) : takeRows caps n (p :: ps) acc =
      (rowOf n p).bind fun r => takeRows caps n ps (acc ++ [r]) := by
  obtain ⟨hne, hff, hfe⟩ := hp
  obtain ⟨x, tl, rfl⟩ := List.exists_cons_of_ne_nil hne
  rw [List.head?_cons, ne_eq, Option.some.injEq] at hff
  have hend : ¬(x = 0xFE ∧ (x :: tl).length < 9) := by
    intro h
    have := hfe (by rw [h.1]; rfl)
    omega
  rw [takeRows]
  simp only [List.getElem?_cons_zero, if_neg hff, if_neg hend]
  rcases rowOf n (x :: tl) with _ | r <;> rfl

/-- Rows that can be read are read, and the rest follows. -/
theorem takeRows_append {caps : UInt32} {n : Nat} {rows : List Bytes} (hrows : ∀ r ∈ rows, IsRow r)
    (ps : List Bytes) (acc : List Row) : takeRows caps n (rows ++ ps) acc =
      (rows.mapM (rowOf n)).bind fun rs => takeRows caps n ps (acc ++ rs) := by
  induction rows generalizing acc with
  | nil => simp
  | cons p rows ih =>
    rw [List.cons_append, takeRows_cons_row (hrows p List.mem_cons_self), List.mapM_cons]
    rcases rowOf n p with _ | r
    · rfl
    · simp only [Option.bind_some, ih fun r hr => hrows r (List.mem_cons_of_mem _ hr)]
      rcases rows.mapM (rowOf n) with _ | rs
      · rfl
      · simp

theorem takeRows_end {caps : UInt32} {n : Nat} {p : Bytes} (hp : p.head? = some 0xFE)
    (hlen : p.length < 9) (ps : List Bytes) (acc : List Row) :
    takeRows caps n (p :: ps) acc = some (acc, terminatorStatus p caps) := by
  obtain ⟨x, tl, rfl⟩ := List.exists_cons_of_ne_nil (fun h => by simp [h] at hp : p ≠ [])
  rw [List.head?_cons, Option.some.injEq] at hp
  subst hp
  rw [takeRows]
  simp only [List.getElem?_cons_zero, if_neg (show (0xFE : UInt8) ≠ 0xFF by decide), true_and, if_pos hlen]

theorem takeRows_err {caps : UInt32} {n : Nat} (body : Bytes) (ps : List Bytes) (acc : List Row) :
    takeRows caps n ((0xFF :: body) :: ps) acc = none := by
  rw [takeRows]
  rfl

theorem terminatorStatus_ok {o : OkBody} {caps : UInt32} (hf : o.Fits)
    (hc : hasCap caps CLIENT_DEPRECATE_EOF = true) :
    terminatorStatus (o.payload 0xFE) caps = (o.status, o.warnings) := by
  generalize hd : o.payload 0xFE = d
  have h1 : d.drop 1 = putLenEnc o.affected ++ (putLenEnc o.insert_id ++ (putU16 o.status ++
      (putU16 o.warnings ++ o.info))) := by rw [← hd]; rfl
  have h2 := drop_of_drop_append h1
  have h3 := drop_of_drop_append h2
  have h4 := drop_of_drop_append h3
  have hlen : ∀ x : UInt16, (putU16 x).length = 2 := fun x => by simp [putU16]
  have hle := le_length_of_drop_append h4 (by simp [putU16, leBytes])
  rw [hlen] at h4 hle
  rw [hlen] at hle
  rw [terminatorStatus, if_pos hc, readLenEnc_of_drop hf.1 h1]
  simp only [Option.map_some, Option.getD_some]
  rw [readLenEnc_of_drop hf.2 h2]
  simp only [Option.map_some, Option.getD_some]
  rw [if_pos (by omega), leAt_putU16 h3, leAt_putU16 h4]

theorem terminatorStatus_eof (status warnings : UInt16) {caps : UInt32}
    (hc : hasCap caps CLIENT_DEPRECATE_EOF = false) :
    terminatorStatus (eofPayload status warnings) caps = (status, warnings) := by
  generalize hd : eofPayload status warnings = d
  have h1 : d.drop 1 = putU16 warnings ++ (putU16 status ++ []) := by rw [← hd]; simp [eofPayload]
  have h3 := drop_of_drop_append h1
  have hlen : d.length = 5 := by rw [← hd]; simp [eofPayload, putU16]
  rw [terminatorStatus, if_neg (by rw [hc]; decide), if_pos (by omega), leAt_putU16 h1]
  exact congrArg (·, warnings) (leAt_putU16 h3)

/-! ### A result set in either reading -/

/-- The packets of a result set behind its columns: the separator if there is one, and the rest. -/
theorem takeResultSet_set (caps : UInt32) {cols : List Bytes} (hne : cols ≠ [])
    (hlt : cols.length < 2 ^ 64) (ps : List Bytes) :
    takeResultSet caps (putLenEnc cols.length :: (cols ++ ps)) =
      (cols.mapM columnOf).bind fun cs =>
        (if hasCap caps CLIENT_DEPRECATE_EOF then some ps else ps.tail?).bind fun ps =>
          (takeRows caps cs.length ps []).map fun x => ⟨cs, x.1, x.2.1, x.2.2⟩ := by
  have hlen : cols.length ≠ 0 := fun h => hne (List.eq_nil_of_length_eq_zero h)
  rw [takeResultSet, if_neg (putLenEnc_ne_nil _), if_neg (not_not_intro (classify_count hlen caps)),
    readLenEnc_of_drop hlt (show (putLenEnc cols.length).drop 0 = putLenEnc cols.length ++ [] by simp)]
  simp only [if_neg hlen]
  rw [takeBody, takeColumns_append]
  rcases cols.mapM columnOf with _ | cs
  · rfl
  · simp only [Option.map_some, List.nil_append, Option.bind_some]
    rcases (if hasCap caps CLIENT_DEPRECATE_EOF then some ps else ps.tail?) with _ | ps'
    · rfl
    · simp only [Option.bind_some]
      rcases takeRows caps cs.length ps' [] with _ | ⟨rows, status, warnings⟩ <;> rfl

/-- The rows of a set up to its end, in the framing of the capabilities. -/
theorem takeRows_set {dep : Bool} {caps : UInt32} {n : Nat} {rows : List Bytes} {o : OkBody}
    (hc : hasCap caps CLIENT_DEPRECATE_EOF = dep) (hrows : ∀ r ∈ rows, IsRow r) (hf : o.Fits)
    (hshort : dep = true → (o.payload 0xFE).length < 9) (ps : List Bytes) :
    takeRows caps n (rows ++ ((Ending.done o).payload dep :: ps)) [] =
      (rows.mapM (rowOf n)).map fun rs => (rs, o.status, o.warnings) := by
  have hend : ((Ending.done o).payload dep).head? = some 0xFE ∧ ((Ending.done o).payload dep).length < 9 ∧
      terminatorStatus ((Ending.done o).payload dep) caps = (o.status, o.warnings) := by
    cases dep with
    | true => exact ⟨rfl, hshort rfl, terminatorStatus_ok hf hc⟩
    | false => exact ⟨rfl, by simp [Ending.payload, eofPayload, putU16], terminatorStatus_eof _ _ hc⟩
  rw [takeRows_append hrows]
  rcases rows.mapM (rowOf n) with _ | rs
  · rfl
  · simp only [Option.bind_some, List.nil_append, Option.map_some, takeRows_end hend.1 hend.2.1, hend.2.2]

section Sets
variable {dep : Bool} {cols rows : List Bytes} {mid : UInt16 × UInt16} {o : OkBody}

/-- A set read in its own framing, with anything behind it. -/
theorem takeResultSet_own (hwf : (Part.set cols mid rows (.done o)).WellFormed)
    (hshort : dep = true → (o.payload 0xFE).length < 9) {caps : UInt32}
    (hc : hasCap caps CLIENT_DEPRECATE_EOF = dep) (ps : List Bytes) :
    takeResultSet caps ((Part.set cols mid rows (.done o)).payloads dep ++ ps) =
      (Part.set cols mid rows (.done o)).result := by
  obtain ⟨hne, hlt, -, hrows, hf⟩ := hwf
  have hbody : (if hasCap caps CLIENT_DEPRECATE_EOF then some
        ((if dep then [] else [eofPayload mid.1 mid.2]) ++ (rows ++ ((Ending.done o).payload dep :: ps)))
      else ((if dep then [] else [eofPayload mid.1 mid.2]) ++
        (rows ++ ((Ending.done o).payload dep :: ps))).tail?) =
      some (rows ++ ((Ending.done o).payload dep :: ps)) := by
    rw [hc]
    cases dep <;> rfl
  rw [Part.payloads, List.cons_append, List.append_assoc]
  simp only [List.append_assoc, List.cons_append, List.nil_append]
  rw [takeResultSet_set caps hne hlt, hbody, Part.result]
  rcases cols.mapM columnOf with _ | cs
  · rfl
  · simp only [Option.bind_some, Option.bind_eq_bind, takeRows_set hc hrows hf hshort]
    rcases rows.mapM (rowOf cs.length) with _ | rs <;> rfl

/-- A response written for a result set is read as that result set. -/
theorem result_ofResultSet {rs : ResultSet} (h : rs.WellFormed) :
    (Part.ofResultSet rs).result = some rs := by
  have hc : hasCap (capsOf true) CLIENT_DEPRECATE_EOF = true := by decide
  have hown := takeResultSet_own (wellFormed_ofResultSet h)
    (fun _ => by simp [OkBody.payload, putLenEnc, putU16]) hc []
  have hp := payloads_ofResultSet rs (capsOf true)
  rw [hc] at hp
  have hparse := parseResultSet_framed (s := 1) h (rfl : framed 1 (responsePayloads rs (capsOf true)) = _)
  rw [parseResultSet_eq, payloads_framed, ← hp] at hparse
  rw [List.append_nil] at hown
  exact hown.symm.trans hparse

theorem result_cases {rs : ResultSet} (h : (Part.set cols mid rows (.done o)).result = some rs) :
    ∃ cs rws, cols.mapM columnOf = some cs ∧ rows.mapM (rowOf cs.length) = some rws ∧
      rs = ⟨cs, rws, o.status, o.warnings⟩ := by
  simp only [Part.result, Option.bind_eq_bind, Option.bind_eq_some_iff, Option.pure_def,
    Option.some.injEq] at h
  obtain ⟨cs, hcs, rws, hrws, rfl⟩ := h
  exact ⟨cs, rws, hcs, hrws, rfl⟩

/-- In the deprecated reading, the separator of a plain set ends it. -/
theorem takeResultSet_separator {caps : UInt32} {ending : Ending} {cs : List Column}
    (hwf : (Part.set cols mid rows ending).WellFormed) (hcs : cols.mapM columnOf = some cs)
    (hc : hasCap caps CLIENT_DEPRECATE_EOF = true) (ps : List Bytes) :
    ∃ st : UInt16 × UInt16, takeResultSet caps ((Part.set cols mid rows ending).payloads false ++ ps) =
      some ⟨cs, [], st.1, st.2⟩ := by
  obtain ⟨hne, hlt, -⟩ := hwf
  refine ⟨terminatorStatus (eofPayload mid.1 mid.2) caps, ?_⟩
  rw [Part.payloads, List.cons_append, List.append_assoc]
  simp only [List.append_assoc, List.cons_append, List.nil_append, Bool.false_eq_true, if_false]
  rw [takeResultSet_set caps hne hlt, hcs, hc]
  simp only [if_true, Option.bind_some]
  rw [takeRows_end rfl (by simp [eofPayload, putU16])]
  rfl

/-- In the plain reading, the first row of a deprecated set stands for the separator. -/
theorem takeResultSet_eaten {caps : UInt32} {ending : Ending} {row : Bytes} {cs : List Column}
    (hwf : (Part.set cols mid (row :: rows) ending).WellFormed) (hcs : cols.mapM columnOf = some cs)
    (hc : hasCap caps CLIENT_DEPRECATE_EOF = false) (ps : List Bytes) :
    takeResultSet caps ((Part.set cols mid (row :: rows) ending).payloads true ++ ps) =
      (takeRows caps cs.length (rows ++ (ending.payload true :: ps)) []).map
        fun x => ⟨cs, x.1, x.2.1, x.2.2⟩ := by
  obtain ⟨hne, hlt, -⟩ := hwf
  rw [Part.payloads, List.cons_append, List.append_assoc]
  simp only [List.append_assoc, List.cons_append, List.nil_append, if_true]
  rw [takeResultSet_set caps hne hlt, hcs, hc]
  simp only [Bool.false_eq_true, if_false, List.tail?_cons, Option.bind_some]

/-- `inferCaps` finds the framing of a set that can be read, unless the deprecated framing has left it
    without a row. -/
theorem inferCaps_set {whole : Bytes} {ps : List Bytes} {rs : ResultSet}
    (hwf : (Part.set cols mid rows (.done o)).WellFormed)
    (hres : (Part.set cols mid rows (.done o)).result = some rs)
    (hrows : dep = true → rows ≠ [] ∧ (o.payload 0xFE).length < 9)
    (hw : payloads whole = (Part.set cols mid rows (.done o)).payloads dep ++ ps) :
    Conn.inferCaps whole = some (capsOf dep) := by
  have hown := takeResultSet_own hwf (fun h => (hrows h).2) (hasCap_capsOf dep) ps
  rw [hres] at hown
  obtain ⟨cs, rws, hcs, hrws, rfl⟩ := result_cases hres
  rw [Conn.inferCaps, parseResultSet_eq, parseResultSet_eq, hw]
  cases dep with
  | false =>
    have hown' : takeResultSet baseCaps _ = _ := hown
    obtain ⟨st, hother⟩ := takeResultSet_separator hwf hcs
      (show hasCap (baseCaps ||| CLIENT_DEPRECATE_EOF) CLIENT_DEPRECATE_EOF = true by decide) ps
    rw [hown', hother]
    simp [capsOf]
  | true =>
    have hown' : takeResultSet (baseCaps ||| CLIENT_DEPRECATE_EOF) _ = _ := hown
    obtain ⟨hne, hshort⟩ := hrows rfl
    obtain ⟨row, rows, rfl⟩ := List.exists_cons_of_ne_nil hne
    obtain ⟨r, rws', -, hrws', rfl⟩ := mapM_cons_some hrws
    have hrow : ∀ p ∈ rows, IsRow p := fun p hp => hwf.2.2.2.1 p (List.mem_cons_of_mem _ hp)
    -- one row is missing
    have hother : takeResultSet baseCaps
        ((Part.set cols mid (row :: rows) (.done o)).payloads true ++ ps) =
          some ⟨cs, rws', (terminatorStatus (o.payload 0xFE) baseCaps).1,
            (terminatorStatus (o.payload 0xFE) baseCaps).2⟩ := by
      rw [takeResultSet_eaten hwf hcs (by decide), takeRows_append hrow, hrws', Option.bind_some,
        takeRows_end (p := (Ending.done o).payload true) rfl hshort]
      rfl
    rw [hown', hother]
    simp [capsOf]

/-- Without a row, the plain reading of a deprecated set takes its terminator for the separator and
    runs out of packets. -/
theorem inferCaps_noRow {whole : Bytes} {rs : ResultSet}
    (hwf : (Part.set cols mid [] (.done o)).WellFormed)
    (hres : (Part.set cols mid [] (.done o)).result = some rs) (hshort : (o.payload 0xFE).length < 9)
    (hw : payloads whole = (Part.set cols mid [] (.done o)).payloads true) :
    Conn.inferCaps whole = some (capsOf true) := by
  have hown := takeResultSet_own hwf (fun _ => hshort) (hasCap_capsOf true) []
  obtain ⟨cs, rws, hcs, -, -⟩ := result_cases hres
  have hother : takeResultSet baseCaps ((Part.set cols mid [] (.done o)).payloads true) = none := by
    rw [Part.payloads]
    simp only [if_true, List.nil_append]
    rw [takeResultSet_set baseCaps hwf.1 hwf.2.1, hcs, Option.bind_some, if_neg (by decide), List.tail?_cons,
      Option.bind_some]
    rfl
  rw [List.append_nil, hres] at hown
  have hown' : takeResultSet (baseCaps ||| CLIENT_DEPRECATE_EOF) _ = _ := hown
  rw [Conn.inferCaps, parseResultSet_eq, parseResultSet_eq, hw, hother, hown']
  rfl

/-- A set that an error has cut short tells nothing, if the deprecated framing has given it a row. -/
theorem inferCaps_err {whole : Bytes} {body : Bytes} {ps : List Bytes}
    (hwf : (Part.set cols mid rows (.err body)).WellFormed) (hrows : rows ≠ [])
    (hw : payloads whole = (Part.set cols mid rows (.err body)).payloads true ++ ps) :
    Conn.inferCaps whole = none := by
  obtain ⟨row, rows, rfl⟩ := List.exists_cons_of_ne_nil hrows
  have hrow := hwf.2.2.2.1
  -- whichever rows can be read, the error is met
  have hnone : ∀ {caps : UInt32} {n : Nat} {rows : List Bytes} (ps : List Bytes),
      (∀ p ∈ rows, IsRow p) → takeRows caps n (rows ++ ((0xFF :: body) :: ps)) [] = none := by
    intro caps n rows ps hr
    rw [takeRows_append hr]
    rcases rows.mapM (rowOf n) with _ | rs
    · rfl
    · rw [Option.bind_some, takeRows_err]
  have hplain : takeResultSet baseCaps
      ((Part.set cols mid (row :: rows) (.err body)).payloads true ++ ps) = none := by
    rcases hcs : cols.mapM columnOf with _ | cs
    · rw [Part.payloads, List.cons_append, List.append_assoc,
        takeResultSet_set baseCaps hwf.1 hwf.2.1, hcs]
      rfl
    · rw [takeResultSet_eaten hwf hcs (by decide), Ending.payload,
        hnone ps fun p hp => hrow p (List.mem_cons_of_mem _ hp)]
      rfl
  have hdep : takeResultSet (baseCaps ||| CLIENT_DEPRECATE_EOF)
      ((Part.set cols mid (row :: rows) (.err body)).payloads true ++ ps) = none := by
    rw [Part.payloads, List.cons_append, List.append_assoc]
    simp only [List.append_assoc, List.nil_append, if_true]
    rw [takeResultSet_set _ hwf.1 hwf.2.1]
    rcases cols.mapM columnOf with _ | cs
    · rfl
    · rw [Option.bind_some, if_pos (by decide), Option.bind_some, Ending.payload,
        List.singleton_append, hnone ps hrow]
      rfl
  rw [Conn.inferCaps, parseResultSet_eq, parseResultSet_eq, hw, hplain, hdep]

end Sets

/-- The framing is recovered from every response the encoder writes in it. -/
theorem inferCaps_encodeResultSet (rs : ResultSet) (dep : Bool) (s : UInt8) (hrs : rs.WellFormed) :
    Conn.inferCaps (encodeResultSet rs (capsOf dep) s) = some (capsOf dep) := by
  have hw : payloads (encodeResultSet rs (capsOf dep) s) = (Part.ofResultSet rs).payloads dep := by
    rw [encodeResultSet_eq, payloads_framed, ← payloads_ofResultSet, hasCap_capsOf]
  have hwf := wellFormed_ofResultSet hrs
  have hres := result_ofResultSet hrs
  have hshort : (OkBody.payload { status := rs.status, warnings := rs.warnings } 0xFE).length < 9 := by
    simp [OkBody.payload, putLenEnc, putU16]
  rw [Part.ofResultSet] at hw hwf hres
  have hall := hw.trans (List.append_nil _).symm
  rcases hrows : rs.rows.map rowPayload with _ | ⟨row, rows⟩
  · cases dep with
    | false => exact inferCaps_set hwf hres (by simp) hall
    | true =>
      rw [hrows] at hw hwf hres
      exact inferCaps_noRow hwf hres hshort hw
  · refine inferCaps_set hwf hres ?_ hall
    intro _
    exact ⟨by rw [hrows]; simp, hshort⟩

theorem inferCaps_encodeResultSet_oneRow :
    let rs : ResultSet := ⟨[⟨[], [], [], [], [110], [], 0, 0, 3, 0, 0⟩], [[some [49]]], 2, 0⟩
    rs.WellFormed ∧ Conn.inferCaps (encodeResultSet rs (capsOf true) 1) = some (capsOf true) := by
  intro rs
  have hrs : rs.WellFormed := by
    refine ⟨by simp [rs], by simp [rs], ?_, by simp [rs], by simp [rs, Value.Fits]⟩
    simp only [rs, List.mem_singleton, forall_eq]
    exact ⟨by decide, by decide, by decide, by decide, by decide, by decide⟩
  exact ⟨hrs, inferCaps_encodeResultSet rs true 1 hrs⟩

/-- A response that does not begin with a column count is no result set. -/
theorem parseResultSet_other {whole p : Bytes} {ps : List Bytes} (hw : payloads whole = p :: ps)
    (hp : ∀ caps, classifyResponse p caps ≠ .ResultSet) (caps : UInt32) :
    parseResultSet whole caps = none := by
  rw [parseResultSet_eq, hw, takeResultSet]
  split_ifs with h h'
  · rfl
  · rfl
  · exact absurd (not_not.mp h') (hp caps)

/-- Nothing is learned from it. -/
theorem inferCaps_other {whole p : Bytes} {ps : List Bytes} (hw : payloads whole = p :: ps)
    (hp : ∀ caps, classifyResponse p caps ≠ .ResultSet) : Conn.inferCaps whole = none := by
  rw [Conn.inferCaps, parseResultSet_other hw hp, parseResultSet_other hw hp]

end Barnacle.Agent
