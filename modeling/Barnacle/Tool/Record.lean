import Barnacle.Tool.Attached

/-! What of an attachment record is read back: `readAttached_writeAttached_iff`.

    A line is written without escaping and taken apart at its white space, so a name that is empty or
    has white space in it comes back as another name, and its line as another time. Such names are
    all that goes wrong in front of the last line. The last line may also be cut off by the limit on
    what is read, and a time that is cut off reads as zero.

    The record is followed line by line, with the number of bytes that are left to read (`left`). -/

namespace Barnacle.Tool
open Barnacle.Lib Barnacle.Lib.Text

variable {u : Unicode} {host : Host}

/-! ### When an entry is kept -/

/-- A name that is one word. -/
def Plain (comm : List Char) : Prop := comm ≠ [] ∧ ∀ c ∈ comm, isSpace c = false

/-- The entry of a process that is there, under a name that can be read from `/proc`. -/
structure Entry.Live (host : Host) (e : Entry) : Prop where
  there : alive host e.pid = some true
  named : ∃ contents, readComm contents = e.comm

/-- The entry as it should be read back: the time in whole seconds. -/
def Entry.rounded (e : Entry) : Entry := { e with when := e.when.round }

/-- The blanks behind the pid, before another word starts: with an empty name there are two. -/
def blanks (e : Entry) : Nat := if e.comm = [] then 2 else 1

/-- The last entry comes back with `left` bytes of its line read. Either the line is whole. Or its
    time is zero, and no more than the time is cut off, or besides it a part of a replacement
    character that the name ends in; or all but the pid is, and the process is still called the same. -/
def Entry.Survives (host : Host) (left : Nat) (e : Entry) : Prop :=
  let pid := (Nat.toDigits 10 e.pid).length
  (Plain e.comm ∧ size e.line ≤ left) ∨
    (e.when.round = .zero ∧
      ((Plain e.comm ∧ pid + 1 + size e.comm ≤ left + if e.comm.getLast? = some replacement then 2 else 0) ∨
        (pid ≤ left ∧ left ≤ pid + blanks e ∧ readComm (host.comm e.pid) = e.comm)))

/-- All names but the last are one word, and the last entry comes back with what is left to read
    behind the lines before it. -/
def Kept (host : Host) (left : Nat) (entries : List Entry) : Prop :=
  (∀ e ∈ entries.dropLast, Plain e.comm) ∧
    ∀ last ∈ entries.getLast?, last.Survives host (left - size (record entries.dropLast))

@[simp] theorem record_nil : record [] = [] := rfl

@[simp] theorem record_cons (e : Entry) (es : List Entry) : record (e :: es) = e.line ++ '\n' :: record es := by
  simp [record]

@[simp] theorem utf8Size_newline : '\n'.utf8Size = 1 := by decide

@[simp] theorem utf8Size_blank : ' '.utf8Size = 1 := by decide

theorem kept_nil (left : Nat) : Kept host left [] := by
  simp [Kept]

theorem kept_singleton (left : Nat) (e : Entry) : Kept host left [e] ↔ e.Survives host left := by
  simp [Kept]

theorem kept_cons_cons (left : Nat) (e e' : Entry) (es : List Entry) :
    Kept host left (e :: e' :: es) ↔ Plain e.comm ∧ Kept host (left - (size e.line + 1)) (e' :: es) := by
  simp [Kept, and_assoc, Nat.sub_sub, Nat.add_assoc]

/-! ### One line -/

theorem isSpace_digit {c : Char} {n : Nat} (h : c ∈ Nat.toDigits 10 n) : isSpace c = false :=
  (numeric_of_isDigit (Double.isDigit_toDigits n c h)).2.1

theorem isSpace_text {c : Char} {w : Double} (h : c ∈ w.text) : isSpace c = false :=
  (Double.numeric_text w c h).2.1

theorem words_pid (pid : Nat) (s : List Char) :
    words (Nat.toDigits 10 pid ++ ' ' :: s) = Nat.toDigits 10 pid :: words s :=
  words_word_cons Nat.toDigits_ne_nil (fun _ => isSpace_digit) (by decide) s

theorem words_line {e : Entry} (h : Plain e.comm) : words e.line = [Nat.toDigits 10 e.pid, e.comm, e.when.text] := by
  rw [Entry.line, words_pid, words_word_cons h.1 h.2 (by decide),
    words_of_word (Double.text_ne_nil _) fun _ => isSpace_text]

/-- A line that starts with the pid of a process that is there. -/
theorem readEntry_of_words {pid : Nat} {line : List Char} {rest : List (List Char)} (ha : alive host pid = some true)
    (h : words line = Nat.toDigits 10 pid :: rest) :
    readEntry u host line =
      some (some ⟨pid, rest.head?.getD (readComm (host.comm pid)), (rest[1]?.bind u.float).getD .zero⟩) := by
  have hdigit := isdigit_of_digits u Nat.toDigits_ne_nil (Double.isDigit_toDigits pid)
  have hint : u.int (Nat.toDigits 10 pid) = some pid := by
    rw [int_of_digits u (Double.isDigit_toDigits pid), digitsValue, Nat.ofDigitChars_ten_toDigits]
  rw [readEntry, h]
  simp only [hdigit, if_true, hint, Option.bind_some, ha, Option.map_some]

/-- The pid of an entry is the first word of its line. -/
theorem pid_of_readEntry {line first : List Char} {rest : List (List Char)} {e : Entry}
    (h : readEntry u host line = some (some e)) (hw : words line = first :: rest) : u.int first = some e.pid := by
  rw [readEntry, hw] at h
  dsimp only at h
  split_ifs at h
  · simp only [Option.bind_eq_some_iff, Option.map_eq_some_iff] at h
    obtain ⟨pid, hpid, there, -, he⟩ := h
    split_ifs at he
    cases he
    exact hpid
  · cases h

theorem readEntry_line {e : Entry} (hl : e.Live host) (h : Plain e.comm) :
    readEntry u host e.line = some (some e.rounded) := by
  rw [readEntry_of_words hl.there (words_line h)]
  simp [Double.float_text, Entry.rounded]

/-! ### The first line -/

theorem readLines_of_some {l : List Char} {e : Entry} (h : readEntry u host l = some (some e)) (ls : List (List Char)) :
    readLines u host (l :: ls) = (readLines u host ls).map (e :: ·) := by
  rw [readLines, h]
  rfl

/-- With a word behind the pid on the first line, the name that is read is one word. -/
theorem plain_of_read {e : Entry} {out : List Entry} {s : List Char} (ha : alive host e.pid = some true)
    (hs : words (s.takeWhile (!isBreak ·)) ≠ [])
    (h : readLines u host (lines (Nat.toDigits 10 e.pid ++ ' ' :: s)) = some (e.rounded :: out)) :
    Plain e.comm := by
  obtain ⟨ls, hls⟩ := lines_first (s := Nat.toDigits 10 e.pid ++ ' ' :: s) (by simp)
  have hfirst : (Nat.toDigits 10 e.pid ++ ' ' :: s).takeWhile (!isBreak ·) =
      Nat.toDigits 10 e.pid ++ ' ' :: s.takeWhile (!isBreak ·) := by
    rw [List.takeWhile_append_of_pos, List.takeWhile_cons_of_pos (by decide)]
    intro c hc
    rw [isBreak_of_not_space (isSpace_digit hc)]
    rfl
  obtain ⟨w, ws, hw⟩ := List.exists_cons_of_ne_nil hs
  have hword := word_of_mem_words (s := s.takeWhile (!isBreak ·)) (w := w) (by rw [hw]; simp)
  rw [hls, hfirst, readLines_of_some (readEntry_of_words ha (by rw [words_pid, hw])), Option.map_eq_some_iff] at h
  obtain ⟨rest, -, h⟩ := h
  rw [List.cons.injEq] at h
  have hcomm : e.comm = w := by
    have hc := congrArg Entry.comm h.1
    simpa [Entry.rounded] using hc.symm
  rw [hcomm]
  exact hword

theorem length_le_of_readLines {ls : List (List Char)} : ∀ {out : List Entry}, readLines u host ls = some out →
    out.length ≤ ls.length := by
  induction ls with
  | nil =>
    intro out h
    cases h
    simp
  | cons l ls ih =>
    intro out h
    simp only [readLines, Option.bind_eq_some_iff, Option.map_eq_some_iff] at h
    obtain ⟨o, -, es, hes, rfl⟩ := h
    have hle := ih hes
    cases o <;> simp <;> omega

/-! ### Where the limit falls in a line -/

theorem Entry.Live.head {e : Entry} (h : e.Live host) {c : Char} {s : List Char} (hc : e.comm = c :: s) :
    isSpace c = false := by
  obtain ⟨contents, hcontents⟩ := h.named
  exact isSpace_head_strip (hcontents.trans hc)

theorem isBreak_pid {pid : Nat} : ∀ c ∈ Nat.toDigits 10 pid ++ [' ', ' '], isBreak c = false := by
  intro c hc
  rcases List.mem_append.mp hc with hc | hc
  · exact isBreak_of_not_space (isSpace_digit hc)
  · obtain rfl : c = ' ' := by simpa using hc
    decide

theorem isBreak_line {e : Entry} (h : Plain e.comm) : ∀ c ∈ e.line, isBreak c = false := by
  intro c hc
  simp only [Entry.line, List.mem_append, List.mem_cons] at hc
  rcases hc with hc | rfl | hc | rfl | hc
  · exact isBreak_of_not_space (isSpace_digit hc)
  · decide
  · exact isBreak_of_not_space (h.2 c hc)
  · decide
  · exact isBreak_of_not_space (isSpace_text hc)

theorem isBreak_clip_line {e : Entry} (h : Plain e.comm) (left : Nat) :
    ∀ c ∈ clip left e.line, isBreak c = false := by
  intro c hc
  rcases mem_clip hc with hc | rfl
  · exact isBreak_line h c hc
  · decide

theorem size_pid (pid : Nat) : size (Nat.toDigits 10 pid) = (Nat.toDigits 10 pid).length :=
  size_of_ascii fun _ hc => (numeric_of_isDigit (Double.isDigit_toDigits pid _ hc)).1

theorem size_text (w : Double) : size w.text = w.text.length :=
  size_of_ascii fun c hc => (Double.numeric_text w c hc).1

theorem size_line (e : Entry) :
    size e.line = (Nat.toDigits 10 e.pid).length + 1 + size e.comm + 1 + e.when.text.length := by
  rw [Entry.line, size_append, size_cons, size_append, size_cons, size_pid, size_text, utf8Size_blank]
  omega

theorem blanks_lt_size_line (e : Entry) : (Nat.toDigits 10 e.pid).length + blanks e < size e.line := by
  have htext := List.length_pos_of_ne_nil (Double.text_ne_nil e.when)
  rw [size_line, blanks]
  split_ifs with h
  · rw [h, size_nil]
    omega
  · have hc := size_pos h
    omega

/-- Nothing but the pid, or a part of it. -/
theorem clip_line_pid {e : Entry} {left : Nat} (h : left ≤ (Nat.toDigits 10 e.pid).length + blanks e) :
    clip left e.line = (Nat.toDigits 10 e.pid ++ [' ', ' ']).take left := by
  have hascii : ∀ k, ∀ c ∈ Nat.toDigits 10 e.pid ++ List.replicate k ' ', c.toNat < 0x80 := by
    intro k c hc
    rcases List.mem_append.mp hc with hc | hc
    · exact (numeric_of_isDigit (Double.isDigit_toDigits _ c hc)).1
    · rw [List.eq_of_mem_replicate hc]
      decide
  have hcut : ∀ k rest, left ≤ (Nat.toDigits 10 e.pid).length + k →
      clip left (Nat.toDigits 10 e.pid ++ List.replicate k ' ' ++ rest) =
        (Nat.toDigits 10 e.pid ++ List.replicate k ' ').take left := by
    intro k rest hle
    have hsize : left ≤ size (Nat.toDigits 10 e.pid ++ List.replicate k ' ') := by
      rw [size_of_ascii (hascii k), List.length_append, List.length_replicate]
      exact hle
    rw [clip_append_of_le _ hsize, clip_of_ascii (hascii k)]
  rw [Entry.line]
  unfold blanks at h
  split_ifs at h with hc
  · have he := hcut 2 e.when.text h
    simpa [hc, List.replicate] using he
  · have he := hcut 1 (e.comm ++ ' ' :: e.when.text) h
    rw [show Nat.toDigits 10 e.pid ++ [' ', ' '] = Nat.toDigits 10 e.pid ++ List.replicate 1 ' ' ++ [' '] by simp,
      List.take_append_of_le_length (by simpa using h), ← he]
    simp

/-- With more than that, there is a word behind the pid on the first line. -/
theorem clip_line_name {e : Entry} (hl : e.Live host) {left : Nat} (h : (Nat.toDigits 10 e.pid).length + blanks e < left)
    (rest : List Char) :
    clip left (e.line ++ rest) = Nat.toDigits 10 e.pid ++
        ' ' :: clip (left - ((Nat.toDigits 10 e.pid).length + 1)) (e.comm ++ ' ' :: e.when.text ++ rest) ∧
      words ((clip (left - ((Nat.toDigits 10 e.pid).length + 1)) (e.comm ++ ' ' :: e.when.text ++ rest)).takeWhile
        (!isBreak ·)) ≠ [] := by
  have hblanks : 1 ≤ blanks e := by
    unfold blanks
    split_ifs <;> omega
  have hsize : size (Nat.toDigits 10 e.pid ++ [' ']) = (Nat.toDigits 10 e.pid).length + 1 := by
    simp [size_pid]
  constructor
  · have hle : size (Nat.toDigits 10 e.pid ++ [' ']) ≤ left := by omega
    have hcut := clip_append (e.comm ++ ' ' :: e.when.text ++ rest) hle
    rw [hsize] at hcut
    simpa [Entry.line] using hcut
  have hword : ∀ {c : Char} (t : List Char), isSpace c = false →
      words ((c :: t).takeWhile (!isBreak ·)) ≠ [] := by
    intro c t hc
    rw [List.takeWhile_cons_of_pos (by simp [isBreak_of_not_space hc])]
    exact words_cons_ne_nil hc _
  have hstart : ∀ {c : Char} {k : Nat} (t : List Char), isSpace c = false → 0 < k →
      words ((clip k (c :: t)).takeWhile (!isBreak ·)) ≠ [] := by
    intro c k t hc hk
    obtain ⟨d, r, hd, hdc⟩ := clip_cons_of_pos hk c t
    rw [hd]
    refine hword r ?_
    rcases hdc with rfl | rfl
    · exact hc
    · decide
  cases hc : e.comm with
  | nil =>
    rw [blanks, if_pos hc] at h
    obtain ⟨c, t, ht⟩ := List.exists_cons_of_ne_nil (Double.text_ne_nil e.when)
    have hcs : isSpace c = false := isSpace_text (w := e.when) (by rw [ht]; simp)
    rw [ht, List.nil_append, List.cons_append, clip, utf8Size_blank, if_pos (by omega),
      List.takeWhile_cons_of_pos (by decide), words_cons_space (by decide), List.cons_append]
    exact hstart _ hcs (by omega)
  | cons c t =>
    rw [List.cons_append, List.cons_append]
    exact hstart _ (hl.head hc) (by omega)

/-! ### Line by line -/

/-- In front of other lines, a line is lost or read as another entry unless it is whole and its name
    is one word. -/
theorem read_cons_cons (left : Nat) {e : Entry} (hl : e.Live host) (e' : Entry) (es : List Entry) :
    readLines u host (lines (clip left (record (e :: e' :: es)))) = some ((e :: e' :: es).map Entry.rounded) ↔
      Plain e.comm ∧ readLines u host (lines (clip (left - (size e.line + 1)) (record (e' :: es)))) =
        some ((e' :: es).map Entry.rounded) := by
  have hblanks := blanks_lt_size_line e
  rw [record_cons]
  generalize hrest : record (e' :: es) = rest
  by_cases hplain : Plain e.comm
  · by_cases hle : size e.line + 1 ≤ left
    · have hcut : clip left (e.line ++ '\n' :: rest) = e.line ++ '\n' :: clip (left - (size e.line + 1)) rest := by
        have happ := clip_append rest (show size (e.line ++ ['\n']) ≤ left by simpa using hle)
        simpa using happ
      rw [hcut, lines_append_newline (isBreak_line hplain), readLines_of_some (readEntry_line hl hplain), List.map_cons]
      simp [hplain]
    · -- the line is cut, and nothing comes behind it
      refine iff_of_false ?_ ?_
      · intro h
        rw [clip_append_of_le _ (by omega)] at h
        have hlen := length_le_of_readLines h
        have hone := lines_length_le_one (isBreak_clip_line hplain left)
        simp at hlen
        omega
      · rintro ⟨-, h⟩
        rw [Nat.sub_eq_zero_of_le (by omega), clip_zero] at h
        simp [lines, readLines] at h
  · refine iff_of_false ?_ fun h => hplain h.1
    intro h
    by_cases hle : left ≤ (Nat.toDigits 10 e.pid).length + blanks e
    · rw [clip_append_of_le _ (by omega), clip_line_pid hle] at h
      have hlen := length_le_of_readLines h
      have hone : (lines ((Nat.toDigits 10 e.pid ++ [' ', ' ']).take left)).length ≤ 1 :=
        lines_length_le_one fun c hc => isBreak_pid c (List.mem_of_mem_take hc)
      simp at hlen
      omega
    · obtain ⟨hcut, hword⟩ := clip_line_name hl (not_le.mp hle) ('\n' :: rest)
      rw [hcut] at h
      exact hplain (plain_of_read hl.there hword h)

/-- What the only line of a record says, word by word. -/
theorem read_words {s : List Char} {e : Entry} {rest : List (List Char)} (ha : alive host e.pid = some true)
    (hbreak : ∀ c ∈ s, isBreak c = false) (hw : words s = Nat.toDigits 10 e.pid :: rest) :
    readLines u host (lines s) = some [e.rounded] ↔
      rest.head?.getD (readComm (host.comm e.pid)) = e.comm ∧ (rest[1]?.bind u.float).getD .zero = e.when.round := by
  have hne : s ≠ [] := by
    rintro rfl
    cases hw
  rw [lines_of_no_break hne hbreak, readLines_of_some (readEntry_of_words ha hw)]
  simp [readLines, Entry.rounded]

/-- The last line, cut in its pid or right behind it. -/
theorem read_pid {left : Nat} {e : Entry} (hl : e.Live host)
    (hle : left ≤ (Nat.toDigits 10 e.pid).length + blanks e) :
    readLines u host (lines (clip left e.line)) = some [e.rounded] ↔
      (Nat.toDigits 10 e.pid).length ≤ left ∧ readComm (host.comm e.pid) = e.comm ∧ e.when.round = .zero := by
  have hbreak : ∀ c ∈ (Nat.toDigits 10 e.pid ++ [' ', ' ']).take left, isBreak c = false :=
    fun c hc => isBreak_pid c (List.mem_of_mem_take hc)
  rw [clip_line_pid hle]
  by_cases hpid : (Nat.toDigits 10 e.pid).length ≤ left
  · have hwords : words ((Nat.toDigits 10 e.pid ++ [' ', ' ']).take left) = [Nat.toDigits 10 e.pid] := by
      rw [List.take_append, List.take_of_length_le hpid]
      rcases left - (Nat.toDigits 10 e.pid).length with _ | _ | k
      · rw [List.take_zero, List.append_nil, words_of_word Nat.toDigits_ne_nil fun _ => isSpace_digit]
      · exact words_pid _ []
      · rw [List.take_of_length_le (by simp)]
        exact words_pid _ [' ']
    rw [read_words hl.there hbreak hwords]
    simp [hpid, eq_comm]
  · refine iff_of_false ?_ fun h => hpid h.1
    rw [List.take_append_of_le_length (by omega)] at hbreak ⊢
    intro h
    -- a part of the pid is another pid
    have hds : (Nat.toDigits 10 e.pid).take left <+: Nat.toDigits 10 e.pid := List.take_prefix _ _
    have hne : (Nat.toDigits 10 e.pid).take left ≠ [] := by
      intro h0
      rw [h0] at h
      simp [lines, readLines] at h
    have hcut : (Nat.toDigits 10 e.pid).take left ≠ Nat.toDigits 10 e.pid := by
      intro heq
      have hlen := congrArg List.length heq
      rw [List.length_take] at hlen
      omega
    obtain ⟨hpos, hv⟩ := digitsValue_cut hds hcut hne
    rw [lines_of_no_break hne hbreak] at h
    have he : readEntry u host ((Nat.toDigits 10 e.pid).take left) = some (some e.rounded) := by
      simp only [readLines, Option.map_some, Option.bind_eq_some_iff] at h
      obtain ⟨o, ho, h⟩ := h
      cases o with
      | none => simp at h
      | some e' =>
        rw [ho]
        simpa using h
    have hint := pid_of_readEntry he (words_of_word hne fun c hc => isSpace_digit (hds.subset hc))
    rw [int_of_digits u fun c hc => Double.isDigit_toDigits _ c (hds.subset hc)] at hint
    have hval : digitsValue ((Nat.toDigits 10 e.pid).take left) = e.pid := by simpa [Entry.rounded] using hint
    omega

/-- The last line, cut behind the name. -/
theorem read_name {left : Nat} {e : Entry} (hl : e.Live host) (hplain : Plain e.comm) (hlt : left < size e.line)
    (hle : (Nat.toDigits 10 e.pid).length + 1 + size e.comm ≤ left) :
    readLines u host (lines (clip left e.line)) = some [e.rounded] ↔ e.when.round = .zero := by
  have hsize : size (Nat.toDigits 10 e.pid ++ ' ' :: e.comm) = (Nat.toDigits 10 e.pid).length + 1 + size e.comm := by
    simp [size_pid, Nat.add_assoc]
  have hcut : clip left e.line = Nat.toDigits 10 e.pid ++ ' ' :: (e.comm ++ (' ' :: e.when.text).take
      (left - ((Nat.toDigits 10 e.pid).length + 1 + size e.comm))) := by
    have hascii : ∀ c ∈ ' ' :: e.when.text, c.toNat < 0x80 := by
      rintro c hc
      rcases List.mem_cons.mp hc with rfl | hc
      · decide
      · exact (Double.numeric_text _ c hc).1
    have happ := clip_append (' ' :: e.when.text) (hsize.symm ▸ hle)
    rw [hsize, clip_of_ascii hascii] at happ
    simpa [Entry.line] using happ
  have hbreak := isBreak_clip_line hplain left
  rw [size_line] at hlt
  generalize hj : left - ((Nat.toDigits 10 e.pid).length + 1 + size e.comm) = j at hcut
  rw [hcut] at hbreak ⊢
  rcases j with _ | i
  · have hwords := words_pid e.pid e.comm
    rw [words_of_word hplain.1 hplain.2] at hwords
    rw [List.take_zero, List.append_nil] at hbreak ⊢
    rw [read_words hl.there hbreak hwords]
    simp [eq_comm]
  · rw [List.take_succ_cons] at hbreak ⊢
    have hpre : e.when.text.take i <+: e.when.text := List.take_prefix _ _
    have hne : e.when.text.take i ≠ e.when.text := by
      intro heq
      have hlen := congrArg List.length heq
      rw [List.length_take] at hlen
      omega
    have hwords := words_pid e.pid (e.comm ++ ' ' :: e.when.text.take i)
    rw [words_word_cons hplain.1 hplain.2 (by decide)] at hwords
    rcases eq_or_ne (e.when.text.take i) [] with h0 | h0
    · rw [h0] at hbreak hwords ⊢
      rw [read_words hl.there hbreak hwords]
      simp [words_nil, eq_comm]
    · rw [words_of_word h0 fun c hc => isSpace_text (hpre.subset hc)] at hwords
      rw [read_words hl.there hbreak hwords, ← Double.float_cut u hpre hne]
      simp

/-- The last line, cut in the name. -/
theorem read_part {left : Nat} {e : Entry} (hl : e.Live host) (hplain : Plain e.comm)
    (hlt : left < (Nat.toDigits 10 e.pid).length + 1 + size e.comm)
    (hle : (Nat.toDigits 10 e.pid).length + blanks e < left) :
    readLines u host (lines (clip left e.line)) = some [e.rounded] ↔
      e.comm.getLast? = some replacement ∧ (Nat.toDigits 10 e.pid).length + 1 + size e.comm ≤ left + 2 ∧
        e.when.round = .zero := by
  rw [blanks, if_neg hplain.1] at hle
  have hsize : size (Nat.toDigits 10 e.pid ++ [' ']) = (Nat.toDigits 10 e.pid).length + 1 := by
    simp [size_pid]
  generalize hk : left - ((Nat.toDigits 10 e.pid).length + 1) = k
  have hcut : clip left e.line = Nat.toDigits 10 e.pid ++ ' ' :: clip k e.comm := by
    have hin : clip k (e.comm ++ ' ' :: e.when.text) = clip k e.comm := clip_append_of_le _ (by omega)
    have hroom : size (Nat.toDigits 10 e.pid ++ [' ']) ≤ left := by omega
    have happ := clip_append (e.comm ++ ' ' :: e.when.text) hroom
    rw [hsize, hk, hin] at happ
    simpa [Entry.line] using happ
  have hbreak := isBreak_clip_line hplain left
  have hpart : clip k e.comm ≠ [] ∧ ∀ c ∈ clip k e.comm, isSpace c = false := by
    constructor
    · obtain ⟨c, t, hc⟩ := List.exists_cons_of_ne_nil hplain.1
      obtain ⟨d, r, hd, -⟩ := clip_cons_of_pos (show 0 < k by omega) c t
      rw [hc, hd]
      simp
    · intro c hc
      rcases mem_clip hc with hc | rfl
      · exact hplain.2 c hc
      · decide
  have hwords := words_pid e.pid (clip k e.comm)
  rw [words_of_word hpart.1 hpart.2] at hwords
  rw [hcut] at hbreak ⊢
  rw [read_words hl.there hbreak hwords, List.head?_cons, Option.getD_some, clip_eq_self_iff (by omega)]
  simp only [List.getElem?_cons_succ, List.getElem?_nil, Option.bind_none, Option.getD_none, and_assoc]
  refine and_congr_right fun _ => and_congr ?_ eq_comm
  omega

/-- The last line, whole, with or without its line end. -/
theorem read_whole {left : Nat} {e : Entry} (hl : e.Live host) (hplain : Plain e.comm) (hle : size e.line ≤ left) :
    readLines u host (lines (clip left (e.line ++ ['\n']))) = some [e.rounded] := by
  have hone : lines (clip left (e.line ++ ['\n'])) = [e.line] := by
    rw [clip_append _ hle]
    rcases left - size e.line with _ | k
    · rw [clip_zero, List.append_nil, lines_of_no_break (by simp [Entry.line]) (isBreak_line hplain)]
    · rw [clip_of_size_le (by simp), lines_append_newline (isBreak_line hplain)]
      rfl
  rw [hone, readLines_of_some (readEntry_line hl hplain)]
  rfl

theorem read_singleton (left : Nat) {e : Entry} (hl : e.Live host) :
    readLines u host (lines (clip left (record [e]))) = some ([e].map Entry.rounded) ↔ e.Survives host left := by
  have hblanks := blanks_lt_size_line e
  have hsize := size_line e
  have hreplaced := three_le_size (s := e.comm)
  rw [record_cons, record_nil, List.map_cons, List.map_nil]
  by_cases hpid : left ≤ (Nat.toDigits 10 e.pid).length + blanks e
  · rw [clip_append_of_le _ (by omega), read_pid hl hpid]
    constructor
    · rintro ⟨h1, h2, h3⟩
      exact Or.inr ⟨h3, Or.inr ⟨h1, hpid, h2⟩⟩
    · rintro (⟨-, h⟩ | ⟨h0, ⟨hplain, h⟩ | ⟨h1, -, h2⟩⟩)
      · omega
      · have hpos := size_pos hplain.1
        rw [blanks, if_neg hplain.1] at hpid
        split_ifs at h with hrep
        · have h3 := hreplaced hrep
          omega
        · omega
      · exact ⟨h1, h2, h0⟩
  have hpid' := not_le.mp hpid
  by_cases hplain : Plain e.comm
  · -- behind the pid only the first two ways are left
    have hsurvives : e.Survives host left ↔ size e.line ≤ left ∨ (e.when.round = .zero ∧
        (Nat.toDigits 10 e.pid).length + 1 + size e.comm ≤
          left + if e.comm.getLast? = some replacement then 2 else 0) := by
      simp [Entry.Survives, hplain, hpid]
    rw [hsurvives]
    by_cases hwhole : size e.line ≤ left
    · exact iff_of_true (read_whole hl hplain hwhole) (Or.inl hwhole)
    rw [clip_append_of_le _ (by omega)]
    by_cases hname : (Nat.toDigits 10 e.pid).length + 1 + size e.comm ≤ left
    · rw [read_name hl hplain (not_le.mp hwhole) hname]
      constructor
      · intro h0
        exact Or.inr ⟨h0, Nat.le_add_right_of_le hname⟩
      · rintro (h | h)
        · exact absurd h hwhole
        · exact h.1
    · rw [read_part hl hplain (not_le.mp hname) hpid']
      constructor
      · rintro ⟨hrep, hle, h0⟩
        exact Or.inr ⟨h0, by rw [if_pos hrep]; exact hle⟩
      · rintro (h | ⟨h0, h⟩)
        · exact absurd h hwhole
        · split_ifs at h with hrep
          · exact ⟨hrep, h, h0⟩
          · exact absurd h hname
  · obtain ⟨hcut, hword⟩ := clip_line_name hl hpid' ['\n']
    refine iff_of_false ?_ ?_
    · intro h
      rw [hcut] at h
      exact hplain (plain_of_read hl.there hword h)
    · rintro (⟨h, -⟩ | ⟨-, ⟨h, -⟩ | ⟨-, h, -⟩⟩)
      · exact hplain h
      · exact hplain h
      · exact hpid h

/-! ### The record -/

theorem read_record {es : List Entry} (hl : ∀ e ∈ es, e.Live host) : ∀ left,
    readLines u host (lines (clip left (record es))) = some (es.map Entry.rounded) ↔ Kept host left es := by
  induction es with
  | nil =>
    intro left
    exact iff_of_true (by simp [clip, lines, readLines]) (kept_nil left)
  | cons e es ih =>
    intro left
    cases es with
    | nil => rw [kept_singleton, read_singleton left (hl e (by simp))]
    | cons e' es =>
      rw [kept_cons_cons, read_cons_cons left (hl e (by simp)), ih fun e₁ he => hl e₁ (List.mem_cons_of_mem e he)]

/-- What is written is read back, the times in whole seconds, exactly if the names are single words
    and the limit on what is read does not take away a part of the last line that matters. -/
theorem readAttached_writeAttached_iff (u : Unicode) (host : Host) (entries : List Entry)
    (hlive : ∀ e ∈ entries, e.Live host) :
    readAttached u host (writeAttached entries) = some (entries.map Entry.rounded) ↔ Kept host readLimit entries := by
  rw [readAttached, writeAttached, readFile, decode_take_encode, read_record hlive]

/-- No digits but the ASCII ones. -/
def asciiDigits : Unicode := ⟨fun _ => false, fun _ => none⟩

/-- A machine on which every process is asleep, and called `tmux: server`. -/
def asleep : Host :=
  ⟨fun _ => .sent, fun _ => encode "4242 (tmux: server) S 1 4242".toList, fun _ => encode "tmux: server\n".toList⟩

/-- A process attached at 1700000000, a thousand seconds after the daemon was started. -/
def attachedAs (comm : List Char) : Entry := ⟨4242, comm, .ofNat 1700000000 (Nat.le_of_ble_eq_true rfl)⟩

def status : List (List Char × List Char) := [("started_at".toList, "1699999000".toList)]

theorem attachedAs_live {comm : List Char} (h : ∃ contents, readComm contents = comm) :
    (attachedAs comm).Live asleep :=
  ⟨show alive asleep 4242 = some true by decide +kernel, h⟩

theorem writeAttached_attachedAs (comm : List Char) : writeAttached [attachedAs comm] =
    encode (Nat.toDigits 10 4242 ++ ' ' :: (comm ++ ' ' :: Nat.toDigits 10 1700000000) ++ ['\n']) := by
  simp only [writeAttached, record_cons, record_nil, Entry.line, attachedAs, Double.text_ofNat]

theorem rounded_attachedAs (comm : List Char) : (attachedAs comm).rounded = attachedAs comm := by
  simp only [Entry.rounded, attachedAs, Double.round_ofNat]

theorem staleAttachments_status (now : Double) (entries : List Entry) :
    staleAttachments asciiDigits now (some status) entries =
      entries.filter fun e => e.when.lt (.ofNat 1699998998 (Nat.le_of_ble_eq_true rfl)) := by
  have hstarted : started asciiDigits now status = some (.ofNat 1699999000 (Nat.le_of_ble_eq_true rfl)) := by
    have htext : "1699999000".toList = Nat.toDigits 10 1699999000 := by decide
    rw [started, status, htext]
    exact Double.float_toDigits _ asciiDigits
  have htwo : nearest 2 = .ofNat 2 (Nat.le_of_ble_eq_true rfl) := Double.nearest_natCast _
  have hst : (some status).filter (· ≠ []) = some status := rfl
  rw [staleAttachments, hst]
  simp only [hstarted, htwo, Double.sub_ofNat _ _ (show 2 ≤ 1699999000 by norm_num)]

/-- `tmux: server` comes back as `tmux:`, attached at the beginning of time, so it is reported as
    stale, which it is not. -/
theorem tmux_server_misread :
    (attachedAs "tmux: server".toList).Live asleep ∧
      readAttached asciiDigits asleep (writeAttached [attachedAs "tmux: server".toList]) =
        some [⟨4242, "tmux:".toList, .zero⟩] ∧
      [(attachedAs "tmux: server".toList).rounded] ≠ [⟨4242, "tmux:".toList, .zero⟩] ∧
      staleAttachments asciiDigits .zero (some status) [(attachedAs "tmux: server".toList).rounded] = [] ∧
      staleAttachments asciiDigits .zero (some status) [⟨4242, "tmux:".toList, .zero⟩] =
        [⟨4242, "tmux:".toList, .zero⟩] := by
  refine ⟨attachedAs_live ⟨encode "tmux: server\n".toList, by decide +kernel⟩, ?_, ?_, ?_, ?_⟩
  · rw [writeAttached_attachedAs]
    decide +kernel
  · rw [rounded_attachedAs]
    intro h
    have hcomm := congrArg (List.map Entry.comm) h
    exact absurd hcomm (by decide)
  · rw [rounded_attachedAs, staleAttachments_status]
    simp [attachedAs, Double.lt_ofNat]
  · rw [staleAttachments_status]
    simp [Double.zero, Double.lt_ofNat]

/-- A name that is one word comes back. -/
theorem mysqld_read_back : Kept asleep readLimit [attachedAs "mysqld".toList] ∧
    readAttached asciiDigits asleep (writeAttached [attachedAs "mysqld".toList]) =
      some [attachedAs "mysqld".toList] := by
  have hlive : ∀ e ∈ [attachedAs "mysqld".toList], e.Live asleep := by
    intro e he
    rw [List.mem_singleton.mp he]
    exact attachedAs_live ⟨encode "mysqld\n".toList, by decide +kernel⟩
  have hword : "mysqld".toList.all (!isSpace ·) = true := by decide
  have hkept : Kept asleep readLimit [attachedAs "mysqld".toList] := by
    rw [kept_singleton]
    refine Or.inl ⟨⟨by decide, fun c hc => by simpa using List.all_eq_true.mp hword c hc⟩, ?_⟩
    rw [Entry.line, attachedAs, Double.text_ofNat]
    decide +kernel
  have hread := (readAttached_writeAttached_iff asciiDigits asleep _ hlive).mpr hkept
  rw [List.map_cons, List.map_nil, rounded_attachedAs] at hread
  exact ⟨hkept, hread⟩

end Barnacle.Tool
