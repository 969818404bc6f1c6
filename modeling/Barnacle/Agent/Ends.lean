import Barnacle.Agent.Responses

/-! Where the response tracker sees a response end. `seen` is the tracker at the first packet it takes
    for the end, and `EndsWith` that this is the last of the packets: so it is with an OK packet, an
    error, and a result set that is legible, whose flags the tracker then has.

    `track_reports` draws from it that the connection's transaction flag follows such a part, and
    `track_done` that nothing later in the response changes it. -/

namespace Barnacle.Agent
open Barnacle.Lib Barnacle.Mysql

/-- The tracker fed with a message that has this payload. -/
def feedPayload (t : ResponseTracker) (p : Bytes) : Bool × ResponseTracker := t.feed ⟨p, 0, 0, 0⟩

theorem feed_eq (t : ResponseTracker) (m : Message) : t.feed m = feedPayload t m.payload := by
  simp only [feedPayload, ResponseTracker.feed, ResponseTracker.feedInit, ResponseTracker.finish]

/-- The tracker right after the packet it takes for the end of the response. -/
def seen : ResponseTracker → List Bytes → Option ResponseTracker
  | _, [] => none
  | t, p :: ps => if (feedPayload t p).1 then some (feedPayload t p).2 else seen (feedPayload t p).2 ps

/-- The tracker after packets none of which it took for the end. -/
def after (t : ResponseTracker) (ps : List Bytes) : ResponseTracker :=
  ps.foldl (fun t p => (feedPayload t p).2) t

theorem after_append (t : ResponseTracker) (ps qs : List Bytes) :
    after t (ps ++ qs) = after (after t ps) qs := List.foldl_append

theorem seen_append (ps qs : List Bytes) : ∀ (t : ResponseTracker),
    seen t (ps ++ qs) = (seen t ps).or (seen (after t ps) qs) := by
  induction ps with
  | nil =>
    intro t
    rfl
  | cons p ps ih =>
    intro t
    rw [List.cons_append, seen, seen]
    split_ifs
    · rfl
    · rw [ih]
      rfl

/-- Packets none of which is taken for the end, and the tracker after them. -/
def Passes (t : ResponseTracker) (ps : List Bytes) (t' : ResponseTracker) : Prop :=
  seen t ps = none ∧ after t ps = t'

theorem Passes.trans {t t' t'' : ResponseTracker} {ps qs : List Bytes} (h : Passes t ps t')
    (h' : Passes t' qs t'') : Passes t (ps ++ qs) t'' := by
  obtain ⟨hs, rfl⟩ := h
  exact ⟨by rw [seen_append, hs, h'.1]; rfl, by rw [after_append, h'.2]⟩

theorem Passes.nil (t : ResponseTracker) : Passes t [] t := ⟨rfl, rfl⟩

theorem Passes.cons {t t' t'' : ResponseTracker} {p : Bytes} {ps : List Bytes}
    (hstep : feedPayload t p = (false, t')) (h : Passes t' ps t'') : Passes t (p :: ps) t'' := by
  rw [Passes, seen, after, List.foldl_cons, hstep]
  exact h

/-- The end is seen at the last of the packets and not before. -/
def EndsWith (t : ResponseTracker) (ps : List Bytes) (t' : ResponseTracker) : Prop :=
  ∃ init last, ps = init ++ [last] ∧ seen t init = none ∧ seen t ps = some t'

theorem Passes.endsWith {t t' t'' : ResponseTracker} {init : List Bytes} {last : Bytes}
    (h : Passes t init t') (hl : seen t' [last] = some t'') : EndsWith t (init ++ [last]) t'' := by
  refine ⟨init, last, rfl, h.1, ?_⟩
  rw [seen_append, h.1, h.2, hl]
  rfl

/-- Where the end is seen among more packets, the ones up to it are there. -/
theorem EndsWith.within {t t' t'' : ResponseTracker} {ps qs ws : List Bytes} (h : EndsWith t ps t')
    (hpre : ws <+: ps ++ qs) (hs : seen t ws = some t'') : t'' = t' ∧ ∃ rest, ws = ps ++ rest := by
  obtain ⟨init, last, rfl, hinit, hseen⟩ := h
  obtain ⟨more, hmore⟩ := hpre
  rcases List.append_eq_append_iff.mp hmore with ⟨a, h1, h2⟩ | ⟨a, h1, h2⟩
  · -- the packets end before, or with, the last
    rcases List.eq_nil_or_concat a with rfl | ⟨a, x, rfl⟩
    · rw [List.append_nil] at h1
      rw [← h1] at hs
      rw [hs, Option.some.injEq] at hseen
      exact ⟨hseen, [], by rw [h1, List.append_nil]⟩
    · -- the last packet is not among them
      rw [List.concat_eq_append, ← List.append_assoc] at h1
      obtain ⟨rfl, -⟩ := List.append_inj' h1 rfl
      rw [seen_append, hs] at hinit
      cases hinit
  · rw [h1, seen_append, hseen] at hs
    exact ⟨(Option.some.inj hs).symm, a, h1⟩

/-- The state after the column definitions: the rows follow, or one packet before them. -/
def afterColumns (caps : UInt32) : State :=
  if hasCap caps CLIENT_DEPRECATE_EOF then .Rows else .ColumnEof

/-! ### One packet after another -/

section Packets
variable {t : ResponseTracker} {ps : List Bytes}

theorem seen_columns (cols : List Bytes) : ∀ {t : ResponseTracker}, cols ≠ [] →
    (∀ c ∈ cols, c ≠ []) → t.state = .ColumnDefs → t.columns_left = cols.length →
    Passes t cols { t with columns_left := 0, state := afterColumns t.caps } := by
  induction cols with
  | nil =>
    intro t h
    exact absurd rfl h
  | cons c cols ih =>
    intro t _ hne hs hl
    obtain ⟨x, tl, rfl⟩ := List.exists_cons_of_ne_nil (hne c List.mem_cons_self)
    rw [List.length_cons] at hl
    rcases cols with _ | ⟨c', cols⟩
    · simp [Passes, seen, after, feedPayload, ResponseTracker.feed, hs, hl, afterColumns]
    · have hstep : feedPayload t (x :: tl) = (false, { t with columns_left := (c' :: cols).length }) := by
        simp [feedPayload, ResponseTracker.feed, hs, hl]
      refine Passes.cons hstep ?_
      exact ih (t := { t with columns_left := (c' :: cols).length }) (List.cons_ne_nil _ _)
        (fun d hd => hne d (List.mem_cons_of_mem _ hd)) hs rfl

theorem seen_columnEof {p : Bytes} (hp : p ≠ []) (hs : t.state = .ColumnEof) :
    Passes t [p] { t with state := .Rows } := by
  obtain ⟨x, tl, rfl⟩ := List.exists_cons_of_ne_nil hp
  simp [Passes, seen, after, feedPayload, ResponseTracker.feed, hs]

/-- A row changes nothing and completes nothing. -/
theorem feedPayload_row {r : Bytes} (hs : t.state = .Rows) (hr : IsRow r) : feedPayload t r = (false, t) := by
  obtain ⟨hne, hff, hfe⟩ := hr
  obtain ⟨x, tl, rfl⟩ := List.exists_cons_of_ne_nil hne
  rw [List.head?_cons, ne_eq, Option.some.injEq] at hff
  have hend : ¬(x = 0xFE ∧ (x :: tl).length < 9) := fun h => by
    have := hfe (by rw [h.1]; rfl)
    omega
  simp only [feedPayload, ResponseTracker.feed, hs, if_neg hff, if_neg hend]
  simp

theorem seen_rows (rows : List Bytes) (hs : t.state = .Rows) (hr : ∀ r ∈ rows, IsRow r) :
    Passes t rows t := by
  induction rows with
  | nil => exact Passes.nil t
  | cons r rows ih =>
    refine Passes.cons (feedPayload_row hs (hr r List.mem_cons_self)) ?_
    exact ih fun r' h => hr r' (List.mem_cons_of_mem _ h)

/-- The packet that ends the rows, or the error that does. -/
theorem seen_end {p : Bytes} (hs : t.state = .Rows) (hp : p.head? = some 0xFE) (hlen : p.length < 9) :
    seen t [p] = some (t.finish ⟨p, 0, 0, 0⟩) := by
  obtain ⟨x, tl, rfl⟩ := List.exists_cons_of_ne_nil (fun h => by simp [h] at hp : p ≠ [])
  rw [List.head?_cons, Option.some.injEq] at hp
  subst hp
  have hlen' : tl.length + 1 < 9 := hlen
  simp [seen, feedPayload, ResponseTracker.feed, hs, hlen']

theorem seen_err {body : Bytes} (hs : t.state = .Rows) : seen t [0xFF :: body] = some t.poison := by
  simp [seen, feedPayload, ResponseTracker.feed, hs]

/-- The packet a result set begins with. -/
theorem seen_first {p : Bytes} {n pos : Nat} {caps : UInt32} (hkind : classifyResponse p caps = .ResultSet)
    (hread : readLenEnc p 0 = some (n, pos)) (hn : n ≠ 0) :
    Passes (ResponseTracker.begin caps) [p]
      { ResponseTracker.begin caps with columns_left := n, state := .ColumnDefs } := by
  have hstep : feedPayload (ResponseTracker.begin caps) p =
      (false, { ResponseTracker.begin caps with columns_left := n, state := .ColumnDefs }) := by
    rcases p with _ | ⟨x, tl⟩
    · cases hread
    · have hinit : feedPayload (ResponseTracker.begin caps) (x :: tl) =
          (ResponseTracker.begin caps).feedInit ⟨x :: tl, 0, 0, 0⟩ := rfl
      have hkind' : classifyResponse (x :: tl) (ResponseTracker.begin caps).caps = .ResultSet := hkind
      rw [hinit, ResponseTracker.feedInit]
      simp only [hkind', hread, if_neg hn]
  exact Passes.cons hstep (Passes.nil _)

theorem seen_count {n : Nat} {caps : UInt32} (hn : n ≠ 0) (hlt : n < 2 ^ 64) :
    Passes (ResponseTracker.begin caps) [putLenEnc n]
      { ResponseTracker.begin caps with columns_left := n, state := .ColumnDefs } :=
  seen_first (classify_count hn caps)
    (readLenEnc_of_drop hlt (show (putLenEnc n).drop 0 = putLenEnc n ++ [] by simp)) hn

/-- A result set up to its last packet. What stands for the separator, if the tracker expects one, is
    the separator or the first row. -/
theorem seen_set {caps : UInt32} {cols rows pre : List Bytes} (hcols : cols ≠ [])
    (hwidth : cols.length < 2 ^ 64) (hcne : ∀ c ∈ cols, c ≠ [])
    (hpre : pre.length = if hasCap caps CLIENT_DEPRECATE_EOF then 0 else 1) (hne : ∀ x ∈ pre, x ≠ [])
    (hrows : ∀ r ∈ rows, IsRow r) :
    Passes (ResponseTracker.begin caps) ([putLenEnc cols.length] ++ (cols ++ (pre ++ rows)))
      { ResponseTracker.begin caps with state := .Rows } := by
  have hlen : cols.length ≠ 0 := fun h => hcols (List.eq_nil_of_length_eq_zero h)
  refine (seen_count hlen hwidth).trans ((seen_columns cols hcols hcne rfl rfl).trans ?_)
  refine Passes.trans ?_ (seen_rows rows rfl hrows)
  split_ifs at hpre with hcap
  · rw [List.eq_nil_of_length_eq_zero hpre]
    refine ⟨rfl, ?_⟩
    simp [after, afterColumns, ResponseTracker.begin, hcap]
  · obtain ⟨x, rfl⟩ := List.length_eq_one_iff.mp hpre
    exact seen_columnEof (hne x (by simp)) (by simp [afterColumns, ResponseTracker.begin, hcap])

end Packets

/-! ### A part -/

/-- The tracker sees the end of this part where it is, and what it ends with tells nothing wrong about
    the framing. `known` says whether the framing is known, `caps` what is assumed. -/
def Part.Seen (dep known : Bool) (caps : UInt32) : Part → Prop
  | .ok _ | .err _ => True
  | .set _ _ rows (.done o) => Legible dep caps rows o
  | .set _ _ rows (.err _) => known = true ∨ dep = true ∧ rows ≠ []

instance (dep known : Bool) (caps : UInt32) : ∀ p : Part, Decidable (p.Seen dep known caps)
  | .ok _ | .err _ => inferInstanceAs (Decidable True)
  | .set _ _ _ (.done _) => inferInstanceAs (Decidable (Legible ..))
  | .set _ _ _ (.err _) => inferInstanceAs (Decidable (_ ∨ _ ∧ _))

theorem endsWith_ok {caps : UInt32} {o : OkBody} (h41 : hasCap caps CLIENT_PROTOCOL_41 = true) (hf : o.Fits) :
    ∃ t, EndsWith (ResponseTracker.begin caps) [o.payload 0x00] t ∧ t.state = .Done ∧
      t.in_transaction = hasStatus o.status SERVER_STATUS_IN_TRANS := by
  have hst : ResponseTracker.statusOf (o.payload 0x00) (ResponseTracker.begin caps).caps =
      some o.status := by
    rw [ResponseTracker.statusOf, if_neg (by simp [OkBody.payload])]
    exact parseOk_payload hf (.inl rfl) h41
  refine ⟨(ResponseTracker.begin caps).finish ⟨o.payload 0x00, 0, 0, 0⟩,
    ⟨[], o.payload 0x00, rfl, rfl, rfl⟩, ?_⟩
  rw [ResponseTracker.finish, hst]
  exact ⟨rfl, rfl⟩

theorem endsWith_err (body : Bytes) (caps : UInt32) :
    ∃ t, EndsWith (ResponseTracker.begin caps) [0xFF :: body] t :=
  ⟨_, [], 0xFF :: body, rfl, rfl, rfl⟩

section Sets
variable {dep : Bool} {caps : UInt32} {cols rows : List Bytes} {mid : UInt16 × UInt16}

/-- The packets of a part but the last pass, if the framing is the one assumed or there is a row to
    stand for the separator. -/
theorem passes_set {ending : Ending} (hwf : (Part.set cols mid rows ending).WellFormed)
    (hc : hasCap caps CLIENT_DEPRECATE_EOF = dep ∨
      dep = true ∧ hasCap caps CLIENT_DEPRECATE_EOF = false ∧ rows ≠ []) :
    ∃ init, (Part.set cols mid rows ending).payloads dep = init ++ [ending.payload dep] ∧
      Passes (ResponseTracker.begin caps) init { ResponseTracker.begin caps with state := .Rows } := by
  obtain ⟨hcols, hwidth, hcne, hrows, -⟩ := hwf
  refine ⟨[putLenEnc cols.length] ++
    (cols ++ ((if dep then [] else [eofPayload mid.1 mid.2]) ++ rows)), by simp [Part.payloads], ?_⟩
  rcases hc with hc | ⟨rfl, hc, hne⟩
  · refine seen_set hcols hwidth hcne ?_ ?_ hrows
    · rw [hc]
      cases dep <;> rfl
    · cases dep <;> simp [eofPayload]
  · -- the first row stands where the separator is expected
    obtain ⟨r, rows, rfl⟩ := List.exists_cons_of_ne_nil hne
    have hrest : ∀ x ∈ rows, IsRow x := fun x hx => hrows x (List.mem_cons_of_mem _ hx)
    have h : Passes _ ([putLenEnc cols.length] ++ (cols ++ ([r] ++ rows))) _ :=
      seen_set hcols hwidth hcne (by rw [hc]; rfl) (by simpa using (hrows r List.mem_cons_self).1) hrest
    simpa using h

/-- The last packet of a legible set is taken for the end, and its status can be read. -/
theorem ending_legible {o : OkBody} (h41 : hasCap caps CLIENT_PROTOCOL_41 = true) (hf : o.Fits)
    (hread : Legible dep caps rows o) :
    ((Ending.done o).payload dep).head? = some 0xFE ∧ ((Ending.done o).payload dep).length < 9 ∧
      ResponseTracker.statusOf ((Ending.done o).payload dep) caps = some o.status := by
  cases dep with
  | false =>
    have hcap : hasCap caps CLIENT_DEPRECATE_EOF = false := hread
    have hlen : (eofPayload o.status o.warnings).length < 9 := by simp [eofPayload, putU16]
    refine ⟨rfl, hlen, ?_⟩
    rw [Ending.payload, if_neg (by decide), ResponseTracker.statusOf,
      if_pos ⟨rfl, hlen, by rw [hcap]; decide⟩]
    exact parseEof_payload o.status o.warnings
  | true =>
    obtain ⟨hshort, hguess⟩ := hread
    refine ⟨rfl, hshort, ?_⟩
    rw [Ending.payload, if_pos rfl, ResponseTracker.statusOf]
    by_cases hcap : hasCap caps CLIENT_DEPRECATE_EOF = true
    · rw [if_neg (by simp [hcap])]
      exact parseOk_payload hf (.inr rfl) h41
    · obtain ⟨-, ha, hi⟩ := hguess.resolve_left hcap
      rw [if_pos ⟨rfl, hshort, hcap⟩]
      exact parseEof_okPayload ha hi

/-- The end of a legible set is seen with the flags it has. -/
theorem endsWith_set {o : OkBody} (h41 : hasCap caps CLIENT_PROTOCOL_41 = true)
    (hwf : (Part.set cols mid rows (.done o)).WellFormed) (hread : Legible dep caps rows o) :
    ∃ t, EndsWith (ResponseTracker.begin caps) ((Part.set cols mid rows (.done o)).payloads dep) t ∧
      t.state = .Done ∧ t.poisoned = hasStatus o.status SERVER_MORE_RESULTS_EXISTS ∧
      t.in_transaction = hasStatus o.status SERVER_STATUS_IN_TRANS := by
  obtain ⟨hhead, hlen, hst⟩ := ending_legible h41 hwf.2.2.2.2 hread
  have hc : hasCap caps CLIENT_DEPRECATE_EOF = dep ∨
      dep = true ∧ hasCap caps CLIENT_DEPRECATE_EOF = false ∧ rows ≠ [] := by
    cases dep with
    | false => exact .inl hread
    | true =>
      rcases hcap : hasCap caps CLIENT_DEPRECATE_EOF with _ | _
      · exact .inr ⟨rfl, rfl, (hread.2.resolve_left (by rw [hcap]; decide)).1⟩
      · exact .inl rfl
  obtain ⟨init, hp, hpass⟩ := passes_set hwf hc
  rw [hp]
  refine ⟨_, hpass.endsWith (seen_end rfl hhead hlen), ?_⟩
  have hst' : ResponseTracker.statusOf ((Ending.done o).payload dep)
      (ResponseTracker.begin caps).caps = some o.status := hst
  simp only [ResponseTracker.finish, hst']
  exact ⟨trivial, Bool.false_or _, trivial⟩

theorem endsWith_set_err {body : Bytes} (hwf : (Part.set cols mid rows (.err body)).WellFormed)
    (hc : hasCap caps CLIENT_DEPRECATE_EOF = dep ∨
      dep = true ∧ hasCap caps CLIENT_DEPRECATE_EOF = false ∧ rows ≠ []) :
    ∃ t, EndsWith (ResponseTracker.begin caps) ((Part.set cols mid rows (.err body)).payloads dep) t ∧
      t.poisoned = true := by
  obtain ⟨init, hp, hpass⟩ := passes_set hwf hc
  rw [hp]
  exact ⟨_, hpass.endsWith (seen_err rfl), rfl⟩

end Sets

/-! ### The transaction flag -/

/-- The tracker has ended with this transaction flag, and so has the connection. -/
def Ended (st : ResponseTracker × Bool) (txn : Bool) : Prop :=
  st.1.state = .Done ∧ st.1.in_transaction = txn ∧ st.2 = txn

/-- `track`, for a message with this payload. -/
def trackPayload (st : ResponseTracker × Bool) (p : Bytes) : ResponseTracker × Bool :=
  track st ⟨p, 0, 0, 0⟩

theorem track_eq (st : ResponseTracker × Bool) (m : Message) : track st m = trackPayload st m.payload := by
  simp only [trackPayload, track, ResponseTracker.feed, ResponseTracker.feedInit,
    ResponseTracker.finish]

theorem foldl_track (ms : List Message) (st : ResponseTracker × Bool) :
    ms.foldl track st = (ms.map Message.payload).foldl trackPayload st := by
  have h : track = fun st m => trackPayload st m.payload := funext₂ track_eq
  rw [List.foldl_map, h]

theorem foldl_trackPayload (ps : List Bytes) : ∀ (st : ResponseTracker × Bool),
    (ps.foldl trackPayload st).1 = after st.1 ps := by
  induction ps with
  | nil =>
    intro st
    rfl
  | cons p ps ih =>
    intro st
    rw [List.foldl_cons, ih]
    rfl

/-- Before the end is seen the flag stays as it was. -/
theorem track_unseen (b : Bool) (ps : List Bytes) : ∀ {t : ResponseTracker}, seen t ps = none →
    ps.foldl trackPayload (t, b) = (after t ps, b) := by
  induction ps with
  | nil =>
    intro t _
    rfl
  | cons p ps ih =>
    intro t h
    rw [seen] at h
    split_ifs at h with hp
    have hstep : trackPayload (t, b) p = ((feedPayload t p).2, b) :=
      congrArg (Prod.mk _) (if_neg hp)
    rw [List.foldl_cons, hstep, ih h]
    rfl

theorem EndsWith.track {t t' : ResponseTracker} {ps : List Bytes} (h : EndsWith t ps t') (b : Bool) :
    ps.foldl trackPayload (t, b) = (t', t'.in_transaction) := by
  obtain ⟨init, last, rfl, hinit, hseen⟩ := h
  rw [seen_append, hinit, Option.none_or, seen] at hseen
  split_ifs at hseen with hlast
  · rw [List.foldl_append, track_unseen b init hinit, ← Option.some.inj hseen]
    exact congrArg (Prod.mk _) (if_pos hlast)
  · cases hseen

/-- Once it has ended, a tracker takes no notice of anything. -/
theorem track_done {txn : Bool} (ps : List Bytes) : ∀ {st : ResponseTracker × Bool}, Ended st txn →
    Ended (ps.foldl trackPayload st) txn := by
  induction ps with
  | nil =>
    intro st h
    exact h
  | cons p ps ih =>
    intro st h
    obtain ⟨hs, ht, hb⟩ := h
    have hp : trackPayload st p = (st.1, st.1.in_transaction) := by
      simp only [trackPayload, track, ResponseTracker.feed, hs, if_true]
    rw [List.foldl_cons, hp]
    exact ih ⟨hs, ht, ht⟩

/-- The tracker follows a part it can read to the transaction in it. -/
theorem track_reports {dep : Bool} {caps : UInt32} {part : Part} (b : Bool) (hc : KnownCaps caps)
    (hwf : part.WellFormed) (hrep : part.Reports dep caps) :
    Ended ((part.payloads dep).foldl trackPayload (ResponseTracker.begin caps, b)) true := by
  rcases part with o | body | ⟨cols, mid, rows, o | body⟩
  · obtain ⟨t, ht, hdone, htxn⟩ := endsWith_ok hc.has hwf
    have hopen : t.in_transaction = true := htxn.trans hrep
    rw [Part.payloads, ht.track]
    exact ⟨hdone, hopen, hopen⟩
  · exact hrep.elim
  · obtain ⟨t, ht, hdone, -, htxn⟩ := endsWith_set hc.has hwf hrep.2
    have hopen : t.in_transaction = true := htxn.trans hrep.1
    rw [ht.track]
    exact ⟨hdone, hopen, hopen⟩
  · exact hrep.elim

end Barnacle.Agent
