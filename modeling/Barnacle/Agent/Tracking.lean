import Barnacle.Mysql.Chunks
import Barnacle.Agent.Ends
import Barnacle.Agent.Inference

/-! The response tracker over whole responses, as `feed` returns: false at every message but the last,
    and true there.

        count ──▶ column × n ──▶ separator ──▶ row × m ──▶ terminator
                                 (the plain framing's)

    So it is for what the encoder writes, in either framing, if the tracker knows which (`CompletesAtLast`).
    With the wrong guess one packet goes in the wrong role, the first row in the separator's; where there
    is no row it is the terminator, and the end is missed. An OK packet that ends the rows is missed as
    well if it is as long as nine bytes: it is taken for a row. -/

namespace Barnacle.Agent
open Barnacle.Lib Barnacle.Mysql
open MessageReader (messagesOf messagesOf_payloads)

/-- Feed messages in order: what the calls return, and the tracker after them. -/
def feedAll : ResponseTracker → List Message → List Bool × ResponseTracker
  | t, [] => ([], t)
  | t, m :: ms => ((t.feed m).1 :: (feedAll (t.feed m).2 ms).1, (feedAll (t.feed m).2 ms).2)

/-- The tracker completes at the last of the messages: it returns true there and nowhere before. -/
def CompletesAtLast (t : ResponseTracker) (ms : List Message) : Prop :=
  ∃ init last, ms = init ++ [last] ∧ (feedAll t ms).1 = List.replicate init.length false ++ [true]

/-! ### What `feed` returns, and where the end is seen -/

theorem feedAll_append (ms ns : List Message) : ∀ t : ResponseTracker,
    feedAll t (ms ++ ns) =
      ((feedAll t ms).1 ++ (feedAll (feedAll t ms).2 ns).1, (feedAll (feedAll t ms).2 ns).2) := by
  induction ms with
  | nil =>
    intro t
    rfl
  | cons m ms ih =>
    intro t
    rw [List.cons_append, feedAll, feedAll, ih]
    rfl

theorem feedAll_unseen (ms : List Message) : ∀ {t : ResponseTracker},
    seen t (ms.map Message.payload) = none →
    feedAll t ms = (List.replicate ms.length false, after t (ms.map Message.payload)) := by
  induction ms with
  | nil =>
    intro t _
    rfl
  | cons m ms ih =>
    intro t h
    rw [List.map_cons, seen] at h
    split_ifs at h with hm
    rw [feedAll, feed_eq, eq_false_of_ne_true hm, ih h]
    rfl

/-- Where no end is seen the tracker does not complete. -/
theorem not_completes {t : ResponseTracker} {ms : List Message}
    (h : seen t (ms.map Message.payload) = none) : ¬ CompletesAtLast t ms := by
  rintro ⟨init, last, -, hret⟩
  rw [feedAll_unseen ms h] at hret
  have hmem : true ∈ List.replicate ms.length false := by
    rw [show List.replicate ms.length false = _ from hret]
    simp
  exact absurd (List.eq_of_mem_replicate hmem) (by decide)

/-- Where the end is seen at the last packet the tracker completes, in the state it was seen in. -/
theorem EndsWith.completes {t t' : ResponseTracker} {ms : List Message}
    (h : EndsWith t (ms.map Message.payload) t') : CompletesAtLast t ms ∧ (feedAll t ms).2 = t' := by
  obtain ⟨init, last, hms, hinit, hseen⟩ := h
  obtain ⟨ns, ls, rfl, rfl, hls⟩ := List.map_eq_append_iff.mp hms
  obtain ⟨m, ls', rfl, rfl, hnil⟩ := List.map_eq_cons_iff.mp hls
  obtain rfl := List.map_eq_nil_iff.mp hnil
  rw [List.map_append, seen_append, hinit, Option.none_or, List.map_singleton, seen] at hseen
  have hlast : feedAll (after t (ns.map Message.payload)) [m] = ([true], t') := by
    rw [feedAll, feed_eq]
    split_ifs at hseen with hm
    · rw [hm, Option.some.inj hseen]
      rfl
    · cases hseen
  have hall := feedAll_append ns [m] t
  rw [feedAll_unseen ns hinit, hlast] at hall
  exact ⟨⟨ns, m, rfl, by rw [hall]⟩, by rw [hall]⟩

/-- Nothing changes a tracker that has completed. -/
theorem feedAll_done (ms : List Message) : ∀ {t : ResponseTracker}, t.state = .Done →
    feedAll t ms = (List.replicate ms.length true, t) := by
  induction ms with
  | nil =>
    intro t _
    rfl
  | cons m ms ih =>
    intro t h
    have hm : t.feed m = (true, t) := by rw [ResponseTracker.feed, if_pos h]
    rw [feedAll, hm, ih h]
    rfl

/-! ### What the encoder writes -/

theorem messagesOf_encodeResultSet (rs : ResultSet) (caps : UInt32) (s : UInt8) :
    (messagesOf (encodeResultSet rs caps s)).map Message.payload =
      (Part.ofResultSet rs).payloads (hasCap caps CLIENT_DEPRECATE_EOF) := by
  rw [messagesOf_payloads, encodeResultSet_eq, payloads_framed, payloads_ofResultSet]

/-- The terminator the encoder writes is short, and its counters are zero. -/
theorem legible_ofResultSet (rs : ResultSet) {dep : Bool} {caps : UInt32} {rows : List Bytes}
    (h : hasCap caps CLIENT_DEPRECATE_EOF = dep ∨
      dep = true ∧ hasCap caps CLIENT_DEPRECATE_EOF = false ∧ rows ≠ []) :
    Legible dep caps rows { status := rs.status, warnings := rs.warnings } := by
  have hlen : (OkBody.payload { status := rs.status, warnings := rs.warnings } 0xFE).length < 9 := by
    simp [OkBody.payload, putLenEnc, putU16]
  rcases h with rfl | ⟨rfl, -, hne⟩
  · rcases hc : hasCap caps CLIENT_DEPRECATE_EOF with _ | _
    · exact hc
    · exact ⟨hlen, .inl hc⟩
  · exact ⟨hlen, .inr ⟨hne, by simp, by simp⟩⟩

/-- A response tracked with the right framing, or with a row to stand for the separator. -/
theorem completes_encoded {rs : ResultSet} {caps c : UInt32} (s : UInt8) (hrs : rs.WellFormed)
    (h41 : hasCap caps CLIENT_PROTOCOL_41 = true)
    (hc : hasCap caps CLIENT_DEPRECATE_EOF = hasCap c CLIENT_DEPRECATE_EOF ∨
      hasCap c CLIENT_DEPRECATE_EOF = true ∧ hasCap caps CLIENT_DEPRECATE_EOF = false ∧ rs.rows ≠ []) :
    ∃ t, CompletesAtLast (ResponseTracker.begin caps) (messagesOf (encodeResultSet rs c s)) ∧
      (feedAll (ResponseTracker.begin caps) (messagesOf (encodeResultSet rs c s))).2 = t ∧
      t.state = .Done ∧ t.in_transaction = hasStatus rs.status SERVER_STATUS_IN_TRANS ∧
      t.poisoned = hasStatus rs.status SERVER_MORE_RESULTS_EXISTS := by
  have hc' : hasCap caps CLIENT_DEPRECATE_EOF = hasCap c CLIENT_DEPRECATE_EOF ∨
      hasCap c CLIENT_DEPRECATE_EOF = true ∧ hasCap caps CLIENT_DEPRECATE_EOF = false ∧
        rs.rows.map rowPayload ≠ [] := by
    rcases hc with h | ⟨h1, h2, h3⟩
    · exact .inl h
    · exact .inr ⟨h1, h2, by simpa using h3⟩
  obtain ⟨t, ht, hdone, hpoison, htxn⟩ :=
    endsWith_set h41 (wellFormed_ofResultSet hrs) (legible_ofResultSet rs hc')
  have hend : EndsWith (ResponseTracker.begin caps)
      ((messagesOf (encodeResultSet rs c s)).map Message.payload) t := by
    rw [messagesOf_encodeResultSet]
    exact ht
  obtain ⟨hcomp, hafter⟩ := hend.completes
  exact ⟨t, hcomp, hafter, hdone, htxn, hpoison⟩

/-- The tracker follows every response the encoder writes for its capabilities. It returns false at
    every message but the last and true there; then it has the two flags of the result set's status,
    and nothing that comes later changes them. -/
theorem tracker_follows (rs : ResultSet) (caps : UInt32) (s : UInt8) (hrs : rs.WellFormed)
    (h41 : hasCap caps CLIENT_PROTOCOL_41 = true) :
    let ms := messagesOf (encodeResultSet rs caps s)
    let t := (feedAll (ResponseTracker.begin caps) ms).2
    CompletesAtLast (ResponseTracker.begin caps) ms ∧
      t.in_transaction = hasStatus rs.status SERVER_STATUS_IN_TRANS ∧
      t.poisoned = hasStatus rs.status SERVER_MORE_RESULTS_EXISTS ∧
      ∀ more, (feedAll t more).2.in_transaction = t.in_transaction ∧
        (feedAll t more).2.poisoned = t.poisoned := by
  intro ms t
  obtain ⟨t', hcomp, hafter, hdone, htxn, hpoison⟩ := completes_encoded s hrs h41 (.inl rfl)
  have ht : t = t' := hafter
  rw [ht]
  refine ⟨hcomp, htxn, hpoison, ?_⟩
  intro more
  rw [feedAll_done more hdone]
  exact ⟨rfl, rfl⟩

/-- One column and no row, in a transaction. -/
def noRow : ResultSet :=
  { cols := [⟨[], [], [], [], [110], [], 0, 0, 3, 0, 0⟩], rows := [], status := 3, warnings := 0 }

theorem noRow_wellFormed : noRow.WellFormed where
  nonempty := by simp [noRow]
  width := by simp [noRow]
  colsFit := by
    simp only [noRow, List.mem_singleton, forall_eq]
    exact ⟨by decide, by decide, by decide, by decide, by decide, by decide⟩
  rowLen := by simp [noRow]
  rowsFit := by simp [noRow]

theorem tracker_follows_noRow :
    CompletesAtLast (ResponseTracker.begin BNCL_CANONICAL_CAPS)
      (messagesOf (encodeResultSet noRow BNCL_CANONICAL_CAPS 1)) :=
  (tracker_follows noRow BNCL_CANONICAL_CAPS 1 noRow_wellFormed (by decide)).1

/-! ### With the framing unknown -/

/-- With no row the terminator goes where the separator is expected, and no end is seen. -/
theorem unseen_noRow {rs : ResultSet} (hrs : rs.WellFormed) (hrows : rs.rows = []) (s : UInt8) :
    ¬ CompletesAtLast (ResponseTracker.begin baseCaps) (messagesOf (encodeResultSet rs (capsOf true) s)) := by
  refine not_completes ?_
  obtain ⟨hcols, hwidth, hcne, -, -⟩ := wellFormed_ofResultSet hrs
  have hend : [(Ending.done { status := rs.status, warnings := rs.warnings }).payload true].length =
      if hasCap baseCaps CLIENT_DEPRECATE_EOF then 0 else 1 := by
    rw [if_neg (by decide)]
    rfl
  have hpass := seen_set hcols hwidth hcne hend (by simp [Ending.payload, OkBody.payload])
    (List.forall_mem_nil IsRow)
  rw [messagesOf_encodeResultSet, hasCap_capsOf, Part.ofResultSet, Part.payloads, hrows]
  exact hpass.1

/-- Until the framing is known the plain one is assumed. The assumption is harmless, whichever framing
    the server uses, exactly if that is the plain one or the response has a row. -/
theorem guess_harmless_iff (rs : ResultSet) (dep : Bool) (hrs : rs.WellFormed) :
    let ms := messagesOf (encodeResultSet rs (capsOf dep) 1)
    let t := (feedAll (ResponseTracker.begin baseCaps) ms).2
    (CompletesAtLast (ResponseTracker.begin baseCaps) ms ∧
      t.in_transaction = hasStatus rs.status SERVER_STATUS_IN_TRANS ∧
      t.poisoned = hasStatus rs.status SERVER_MORE_RESULTS_EXISTS) ↔ dep = false ∨ rs.rows ≠ [] := by
  intro ms t
  refine ⟨?_, ?_⟩
  · rintro ⟨hcomp, -⟩
    rcases dep with _ | _
    · exact .inl rfl
    · exact .inr fun hrows => unseen_noRow hrs hrows 1 hcomp
  · intro h
    have hc : hasCap baseCaps CLIENT_DEPRECATE_EOF = hasCap (capsOf dep) CLIENT_DEPRECATE_EOF ∨
        hasCap (capsOf dep) CLIENT_DEPRECATE_EOF = true ∧
          hasCap baseCaps CLIENT_DEPRECATE_EOF = false ∧ rs.rows ≠ [] := by
      rcases dep with _ | _
      · exact .inl (by decide)
      · exact .inr ⟨by decide, by decide, h.resolve_left (by decide)⟩
    obtain ⟨t', hcomp, hafter, -, htxn, hpoison⟩ := completes_encoded 1 hrs (by decide) hc
    have ht : t = t' := hafter
    rw [ht]
    exact ⟨hcomp, htxn, hpoison⟩

theorem guess_harmless_oneRow :
    let rs : ResultSet := { noRow with rows := [[none]] }
    CompletesAtLast (ResponseTracker.begin baseCaps) (messagesOf (encodeResultSet rs (capsOf true) 1)) := by
  intro rs
  have hrs : rs.WellFormed :=
    ⟨noRow_wellFormed.nonempty, noRow_wellFormed.width, noRow_wellFormed.colsFit, by simp [rs, noRow],
      by simp [rs, Value.Fits]⟩
  exact ((guess_harmless_iff rs true hrs).mpr (.inr (by simp [rs]))).1

/-- A response without a row, on a connection that negotiated CLIENT_DEPRECATE_EOF. -/
theorem guess_misses_noRow :
    ¬ CompletesAtLast (ResponseTracker.begin baseCaps)
      (messagesOf (encodeResultSet noRow (baseCaps ||| CLIENT_DEPRECATE_EOF) 1)) :=
  unseen_noRow noRow_wellFormed rfl 1

/-! ### An OK packet of any length as the terminator -/

section Terminators
variable {cols : List Column} {rows : List Row} {o : OkBody} {caps : UInt32} {b : Bytes}

/-- A response in the deprecated framing: the columns, the rows and the OK packet that ends them. -/
def endedBy (cols : List Column) (rows : List Row) (o : OkBody) : List Bytes :=
  putLenEnc cols.length :: (cols.map columnPayload ++ (rows.map rowPayload ++ [o.payload 0xFE]))

theorem endedBy_eq (cols : List Column) (rows : List Row) (o : OkBody) :
    endedBy cols rows o =
      (Part.set (cols.map columnPayload) (0, 0) (rows.map rowPayload) (.done o)).payloads true := by
  simp [endedBy, Part.payloads, Ending.payload]

theorem wellFormed_endedBy (hwf : ResultSet.WellFormed ⟨cols, rows, o.status, o.warnings⟩) (hf : o.Fits) :
    (Part.set (cols.map columnPayload) (0, 0) (rows.map rowPayload) (.done o)).WellFormed := by
  obtain ⟨h1, h2, h3, h4, -⟩ := wellFormed_ofResultSet hwf
  exact ⟨h1, h2, h3, h4, hf⟩

/-- What the packets say: the columns, the rows, and the two words of the terminator. -/
theorem result_endedBy (hwf : ResultSet.WellFormed ⟨cols, rows, o.status, o.warnings⟩) :
    (Part.set (cols.map columnPayload) (0, 0) (rows.map rowPayload) (.done o)).result =
      some ⟨cols, rows, o.status, o.warnings⟩ := by
  obtain ⟨cs, rws, hcs, hrws, heq⟩ := result_cases (result_ofResultSet hwf)
  obtain ⟨rfl, rfl⟩ := (ResultSet.mk.injEq .. ▸ heq : cols = cs ∧ rows = rws ∧ _).imp_right And.left
  simp only [Part.result, Option.bind_eq_bind, hcs, hrws, Option.bind_some]
  rfl

/-- A terminator of nine bytes or more is taken for a row, and no end is seen. -/
theorem unseen_long (hwf : ResultSet.WellFormed ⟨cols, rows, o.status, o.warnings⟩)
    (hdep : hasCap caps CLIENT_DEPRECATE_EOF = true) (hlong : 9 ≤ (o.payload 0xFE).length) :
    seen (ResponseTracker.begin caps) (endedBy cols rows o) = none := by
  obtain ⟨hcols, hwidth, hcne, hrows, -⟩ := wellFormed_ofResultSet hwf
  have hend : IsRow (o.payload 0xFE) := ⟨by simp [OkBody.payload], by simp [OkBody.payload], fun _ => hlong⟩
  have hsep : ([] : List Bytes).length = if hasCap caps CLIENT_DEPRECATE_EOF then 0 else 1 := by
    rw [if_pos hdep]
    rfl
  have hall : ∀ r ∈ rows.map rowPayload ++ [o.payload 0xFE], IsRow r := by
    intro r hr
    rcases List.mem_append.mp hr with h | h
    · exact hrows r h
    · rw [List.mem_singleton.mp h]
      exact hend
  have hpass := seen_set hcols hwidth hcne hsep (by simp) hall
  rw [List.length_map] at hpass
  exact hpass.1

/-- A row's packet starts with 0xFE only in front of a value of 2^24 bytes or more. -/
theorem rowPayload_fe {row : Row} (h : (rowPayload row).head? = some 0xFE) :
    ∃ v rest, row = some v :: rest ∧ 2 ^ 24 ≤ v.length := by
  rcases row with _ | ⟨_ | v, rest⟩
  · cases h
  · cases h
  · obtain ⟨x, tl, hx, -, -, hfe, -⟩ := putLenEnc_head v.length
    have hrow : rowPayload (some v :: rest) = x :: (tl ++ v ++ rowPayload rest) := by
      simp [rowPayload, valuePayload, putLenEncStr, hx]
    rw [hrow, List.head?_cons, Option.some.injEq] at h
    exact ⟨v, rest, rfl, hfe h⟩

/-- In the deprecated framing the end of a response is recognised, by the tracker with its transaction
    flag and by the parser with its rows and its words, exactly if the OK packet there has fewer than
    nine bytes. A row is never taken for the end by either. -/
theorem terminator_recognised_iff (hwf : ResultSet.WellFormed ⟨cols, rows, o.status, o.warnings⟩)
    (hf : o.Fits) (h41 : hasCap caps CLIENT_PROTOCOL_41 = true)
    (hdep : hasCap caps CLIENT_DEPRECATE_EOF = true) (hb : payloads b = endedBy cols rows o) :
    ((CompletesAtLast (ResponseTracker.begin caps) (messagesOf b) ∧
        (feedAll (ResponseTracker.begin caps) (messagesOf b)).2.in_transaction =
          hasStatus o.status SERVER_STATUS_IN_TRANS ∧
        parseResultSet b caps = some ⟨cols, rows, o.status, o.warnings⟩) ↔
      (o.payload 0xFE).length < 9) ∧
    ∀ row ∈ rows, ∀ m : Message, m.payload = rowPayload row →
      (m.payload.head? = some 0xFE → ∃ v rest, row = some v :: rest ∧ 2 ^ 24 ≤ v.length) ∧
      (∀ t : ResponseTracker, t.state = .Rows → t.feed m = (false, t)) ∧
      ∀ ps acc, takeRows caps cols.length (m.payload :: ps) acc =
        takeRows caps cols.length ps (acc ++ [row]) := by
  have hms : (messagesOf b).map Message.payload = endedBy cols rows o := by rw [messagesOf_payloads, hb]
  refine ⟨⟨?_, ?_⟩, ?_⟩
  · rintro ⟨hcomp, -⟩
    refine Nat.lt_of_not_le fun hlong => not_completes ?_ hcomp
    rw [hms]
    exact unseen_long hwf hdep hlong
  · intro hshort
    obtain ⟨t, ht, -, -, htxn⟩ := endsWith_set h41 (wellFormed_endedBy hwf hf)
      (show Legible true caps _ o from ⟨hshort, .inl hdep⟩)
    rw [← endedBy_eq, ← hms] at ht
    obtain ⟨hcomp, hafter⟩ := ht.completes
    refine ⟨hcomp, by rw [hafter, htxn], ?_⟩
    have hown := takeResultSet_own (wellFormed_endedBy hwf hf) (fun _ => hshort) hdep []
    rw [List.append_nil, ← endedBy_eq, result_endedBy hwf] at hown
    rw [parseResultSet_eq, hb, hown]
  · intro row hrow m hm
    have hisRow : IsRow m.payload := by
      rw [hm]
      exact (wellFormed_ofResultSet hwf).2.2.2.1 _ (List.mem_map_of_mem hrow)
    refine ⟨fun h => rowPayload_fe (hm ▸ h), ?_, ?_⟩
    · intro t ht
      rw [feed_eq, feedPayload_row ht hisRow]
    · intro ps acc
      have hread : rowOf cols.length m.payload = some row := by
        have hlen := hwf.rowLen row hrow
        dsimp only at hlen
        rw [← hlen]
        exact parseRow_rowPayload (hwf.rowsFit row hrow) hm
      rw [takeRows_cons_row hisRow, hread, Option.bind_some]

theorem terminator_recognised_short :
    let o : OkBody := { status := 3 }
    parseResultSet (framed 1 (endedBy noRow.cols [] o)) BNCL_CANONICAL_CAPS =
      some ⟨noRow.cols, [], 3, 0⟩ := by
  intro o
  have hb : payloads (framed 1 (endedBy noRow.cols [] o)) = endedBy noRow.cols [] o := payloads_framed 1 _
  exact ((terminator_recognised_iff noRow_wellFormed (by decide) (by decide) (by decide) hb).1.mpr
    (by decide)).2.2

/-- With two bytes of session state behind the warnings, the terminator is taken for a row. -/
theorem terminator_missed :
    let o : OkBody := { status := 3, info := [1, 0] }
    (o.payload 0xFE).length = 9 ∧
      ¬ CompletesAtLast (ResponseTracker.begin BNCL_CANONICAL_CAPS)
        (messagesOf (framed 1 (endedBy noRow.cols [] o))) ∧
      parseResultSet (framed 1 (endedBy noRow.cols [] o)) BNCL_CANONICAL_CAPS = none := by
  intro o
  refine ⟨by decide, ?_, by decide⟩
  refine not_completes ?_
  rw [messagesOf_payloads, payloads_framed]
  have hwf : ResultSet.WellFormed ⟨noRow.cols, [], o.status, o.warnings⟩ := noRow_wellFormed
  exact unseen_long hwf (by decide) (by decide)

end Terminators

end Barnacle.Agent
