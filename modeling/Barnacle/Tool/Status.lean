import Barnacle.Daemon.Control
import Barnacle.Tool.Launch

/-! The report of the daemon as the tool reads it (`daemon_stats` in `src/barnacle/barnacle`, `stats` in
    `src/daemon/main.cpp`). The daemon prints into a buffer of 512 bytes, so the last lines may be missing
    and one of them cut. -/

namespace Barnacle.Tool
open Barnacle.Lib Barnacle.Lib.Text
open Barnacle.Daemon

/-- `line.split(None, 1)`, where it gives two parts. -/
def splitOnce (line : List Char) : Option (List Char × List Char) :=
  let s := line.dropWhile isSpace
  let val := (s.dropWhile (!isSpace ·)).dropWhile isSpace
  if val = [] then none else some (s.takeWhile (!isSpace ·), val)

/-- The pairs that are put into the dict; the last one for a key is the one that stays. -/
def statLines (ls : List (List Char)) : List (List Char × List Char) := (ls.filterMap splitOnce).reverse

/-- `daemon_stats`, of what `STATS` is answered with, if anybody answers. -/
def daemonStats (received : Option Bytes) : Option (List (List Char × List Char)) :=
  received.map fun txt => statLines (lines (decode txt))

/-! ### Lines of which some are missing -/

/-- The lines that fit, and what is left of the next one. -/
def clipLines : Nat → List (List Char) → List (List Char)
  | _, [] => []
  | left, l :: ls => if size l < left then l :: clipLines (left - (size l + 1)) ls else lines (clip left l)

theorem not_break_of_all {s : List Char} (h : s.all (fun c => !isBreak c) = true) : ∀ c ∈ s, isBreak c = false :=
  fun c hc => by simpa using List.all_eq_true.mp h c hc

theorem not_break_clip {l : List Char} (hl : ∀ c ∈ l, isBreak c = false) (left : Nat) :
    ∀ c ∈ clip left l, isBreak c = false := by
  intro c hc
  rcases mem_clip hc with h | rfl
  · exact hl c h
  · decide

theorem lines_clip {ls : List (List Char)} (h : ∀ l ∈ ls, ∀ c ∈ l, isBreak c = false) (left : Nat) :
    lines (clip left (ls.flatMap (· ++ ['\n']))) = clipLines left ls := by
  induction ls generalizing left with
  | nil => simp [clip, lines, clipLines]
  | cons l ls ih =>
    have hl := h l List.mem_cons_self
    have hrest := ih fun m hm => h m (List.mem_cons_of_mem l hm)
    rw [List.flatMap_cons, List.append_assoc, List.singleton_append, clipLines]
    split_ifs with hlt
    · have hnl : ('\n' : Char).utf8Size = 1 := by decide
      rw [clip_append _ (Nat.le_of_lt hlt), clip, hnl, if_pos (by omega), lines_append_newline hl, hrest, Nat.sub_sub]
    · rw [clip_append_of_le _ (Nat.le_of_not_lt hlt)]

/-! ### A line of the report -/

/-- A key is one word. -/
def Key (k : List Char) : Prop := k ≠ [] ∧ ∀ c ∈ k, isSpace c = false

/-- What the tool makes of the value behind a key. -/
def valueOf (v : List Char) : Option (List Char) := if v.dropWhile isSpace = [] then none else some (v.dropWhile isSpace)

theorem splitOnce_key {k : List Char} (hk : Key k) (v : List Char) :
    splitOnce (k ++ ' ' :: v) = (valueOf v).map fun val => (k, val) := by
  have hsp : isSpace ' ' = true := by decide
  obtain ⟨c, t, rfl⟩ := List.exists_cons_of_ne_nil hk.1
  have hhead : ((c :: t) ++ ' ' :: v).dropWhile isSpace = (c :: t) ++ ' ' :: v :=
    List.dropWhile_cons_of_neg (by simp [hk.2 c List.mem_cons_self])
  have hall : ∀ x ∈ c :: t, (!isSpace x) = true := fun x hx => by rw [hk.2 x hx]; rfl
  have htake : ((c :: t) ++ ' ' :: v).takeWhile (!isSpace ·) = c :: t := by
    rw [List.takeWhile_append_of_pos hall, List.takeWhile_cons_of_neg (by simp [hsp]), List.append_nil]
  have hdrop : ((c :: t) ++ ' ' :: v).dropWhile (!isSpace ·) = ' ' :: v := by
    rw [List.dropWhile_append_of_pos hall, List.dropWhile_cons_of_neg (by simp [hsp])]
  rw [splitOnce, valueOf]
  simp only [hhead, htake, hdrop, List.dropWhile_cons_of_pos hsp]
  split_ifs <;> rfl

/-- Without what separates it from a value, a key is not a line of the report. -/
theorem splitOnce_word {w : List Char} (hw : ∀ c ∈ w, isSpace c = false) : splitOnce w = none := by
  have hhead : w.dropWhile isSpace = w := by
    cases w with
    | nil => rfl
    | cons c t => exact List.dropWhile_cons_of_neg (by simp [hw c List.mem_cons_self])
  have hall : ∀ x ∈ w, (!isSpace x) = true := fun x hx => by rw [hw x hx]; rfl
  rw [splitOnce]
  simp only [hhead, List.dropWhile_eq_nil_iff.mpr hall, List.dropWhile_nil, if_pos]

/-- What is left of a line has its key, and what is left of its value; or it is no line at all. -/
theorem splitOnce_clip {k : List Char} (hk : Key k) (v : List Char) (left : Nat) :
    splitOnce (clip left (k ++ ' ' :: v)) =
      (valueOf (clip (left - (size k + 1)) v)).map fun val => (k, val) := by
  by_cases hlt : size k < left
  · have hsp : (' ' : Char).utf8Size = 1 := by decide
    rw [clip_append _ (Nat.le_of_lt hlt), clip, hsp, if_pos (by omega), splitOnce_key hk, Nat.sub_sub]
  · have hword : ∀ c ∈ clip left k, isSpace c = false := by
      intro c hc
      rcases mem_clip hc with h | rfl
      · exact hk.2 c h
      · decide
    rw [clip_append_of_le _ (Nat.le_of_not_lt hlt), splitOnce_word hword,
      Nat.sub_eq_zero_of_le (by omega), clip_zero]
    rfl

/-! ### The whole report -/

def statLine (f : List Char × List Char) : List Char := f.1 ++ ' ' :: f.2

/-- What comes before a field. -/
def sizeBefore (fields : List (List Char × List Char)) (i : Nat) : Nat :=
  ((fields.take i).map fun f => size (statLine f) + 1).sum

theorem size_statLine (f : List Char × List Char) : size (statLine f) = size f.1 + 1 + size f.2 := by
  have hsp : (' ' : Char).utf8Size = 1 := by decide
  rw [statLine, size_append, size_cons, hsp, Nat.add_assoc]

theorem sizeBefore_succ (f : List Char × List Char) (fields : List (List Char × List Char)) (i : Nat) :
    sizeBefore (f :: fields) (i + 1) = size (statLine f) + 1 + sizeBefore fields i := by
  simp [sizeBefore]

theorem statLines_cons (l : List Char) (ls : List (List Char)) :
    statLines (l :: ls) = statLines ls ++ (splitOnce l).toList := by
  rw [statLines, List.filterMap_cons]
  cases splitOnce l <;> simp [statLines]

theorem statLines_lines {l : List Char} (hl : ∀ c ∈ l, isBreak c = false) : statLines (lines l) = (splitOnce l).toList := by
  cases l with
  | nil => rfl
  | cons c l => rw [lines_of_no_break (by simp) hl, statLines_cons]; rfl

/-- Only what is left of its own line speaks of a key. -/
theorem lookup_clip_line {f : List Char × List Char} (hf : Key f.1) (left : Nat) (key : List Char) :
    (splitOnce (clip left (statLine f))).toList.lookup key =
      if key = f.1 then valueOf (clip (left - (size f.1 + 1)) f.2) else none := by
  rw [statLine, splitOnce_clip hf]
  cases valueOf (clip (left - (size f.1 + 1)) f.2) with
  | none => simp
  | some v =>
    simp only [Option.map_some, Option.toList_some, List.lookup_cons, List.lookup_nil]
    split_ifs with e
    · simp [e]
    · rw [beq_false_of_ne e]

theorem lookup_absent {fields : List (List Char × List Char)} (hf : ∀ f ∈ fields, Key f.1 ∧ ∀ c ∈ statLine f, isBreak c = false)
    {key : List Char} (hkey : key ∉ fields.map Prod.fst) (left : Nat) :
    (statLines (clipLines left (fields.map statLine))).lookup key = none := by
  induction fields generalizing left with
  | nil => rfl
  | cons f fields ih =>
    rw [List.map_cons, List.mem_cons, not_or] at hkey
    obtain ⟨hf0, hbreak⟩ := hf f List.mem_cons_self
    rw [List.map_cons, clipLines]
    split_ifs with hlt
    · have hwhole := lookup_clip_line hf0 (size (statLine f)) key
      rw [clip_of_size_le (le_refl _), if_neg hkey.1] at hwhole
      rw [statLines_cons, List.lookup_append, hwhole, ih (fun g hg => hf g (List.mem_cons_of_mem f hg)) hkey.2]
      rfl
    · rw [statLines_lines (not_break_clip hbreak left), lookup_clip_line hf0, if_neg hkey.1]

theorem lookup_stat {fields : List (List Char × List Char)} (hf : ∀ f ∈ fields, Key f.1 ∧ ∀ c ∈ statLine f, isBreak c = false)
    (hnodup : (fields.map Prod.fst).Nodup) {i : Nat} {f : List Char × List Char} (hi : fields[i]? = some f) (left : Nat) :
    (statLines (clipLines left (fields.map statLine))).lookup f.1 =
      valueOf (clip (left - sizeBefore fields i - (size f.1 + 1)) f.2) := by
  induction fields generalizing i left with
  | nil => cases hi
  | cons g fields ih =>
    rw [List.map_cons, List.nodup_cons] at hnodup
    obtain ⟨hg, hbreak⟩ := hf g List.mem_cons_self
    have hrest : ∀ f ∈ fields, Key f.1 ∧ ∀ c ∈ statLine f, isBreak c = false := fun f hm => hf f (List.mem_cons_of_mem g hm)
    have hsize := size_statLine g
    have hwhole := lookup_clip_line hg (size (statLine g)) f.1
    rw [clip_of_size_le (le_refl _)] at hwhole
    rw [List.map_cons, clipLines]
    cases i with
    | zero =>
      obtain rfl : g = f := Option.some.inj hi
      rw [if_pos rfl, clip_of_size_le (by omega)] at hwhole
      have h0 : left - sizeBefore (g :: fields) 0 = left := rfl
      rw [h0]
      split_ifs with hlt
      · rw [statLines_cons, List.lookup_append, lookup_absent hrest hnodup.1, hwhole, clip_of_size_le (by omega)]
        rfl
      · rw [statLines_lines (not_break_clip hbreak left), lookup_clip_line hg, if_pos rfl]
    | succ i =>
      have hi' : fields[i]? = some f := hi
      have hne : f.1 ≠ g.1 := fun e => hnodup.1 (e ▸ List.mem_map_of_mem (List.mem_of_getElem? hi'))
      rw [sizeBefore_succ]
      split_ifs with hlt
      · rw [if_neg hne] at hwhole
        rw [statLines_cons, List.lookup_append, hwhole, ih hrest hnodup.2 hi', Option.or_none, Nat.sub_sub left]
      · have h0 : left - (size (statLine g) + 1 + sizeBefore fields i) - (size f.1 + 1) = 0 := by omega
        rw [statLines_lines (not_break_clip hbreak left), lookup_clip_line hg, if_neg hne, h0, clip_zero]
        rfl

/-! ### Numbers, and how long they can be -/

/-- A word of at most `w` characters, all of them ASCII. -/
structure Narrow (w : Nat) (t : List Char) : Prop where
  key : Key t
  ascii : ∀ c ∈ t, c.toNat < 0x80
  length : t.length ≤ w

theorem narrow_digits {n w : Nat} (hw : 0 < w) (hn : n < 10 ^ w) : Narrow w (Nat.toDigits 10 n) :=
  ⟨⟨Nat.toDigits_ne_nil, fun c hc => (numeric_of_isDigit (Double.isDigit_toDigits n c hc)).2.1⟩,
    fun c hc => (numeric_of_isDigit (Double.isDigit_toDigits n c hc)).1,
    (Nat.length_toDigits_le_iff (by decide) hw).mpr hn⟩

theorem narrow_intText {n : Int} {w : Nat} (hw : 0 < w) (hn : n.natAbs < 10 ^ w) : Narrow (w + 1) (intText n) := by
  obtain ⟨⟨hne, hword⟩, hascii, hlen⟩ := narrow_digits hw hn
  rw [intText]
  split_ifs
  · refine ⟨⟨by simp, ?_⟩, ?_, ?_⟩
    · intro c hc
      rcases List.mem_cons.mp hc with rfl | hc
      · decide
      · exact hword c hc
    · intro c hc
      rcases List.mem_cons.mp hc with rfl | hc
      · decide
      · exact hascii c hc
    · rw [List.length_append]
      exact Nat.add_comm .. ▸ Nat.succ_le_succ hlen
  · exact ⟨⟨hne, hword⟩, hascii, Nat.le_succ_of_le hlen⟩

/-- What a field is written as. -/
def Written (w : Nat) (v : Bytes) : Prop := ∃ t, v = encode t ∧ Narrow w t

theorem written_unsigned {n w : Nat} (hw : 0 < w) (hn : n < 10 ^ w) : Written w (unsignedText n) :=
  ⟨_, (encode_toDigits n).symm, narrow_digits hw hn⟩

theorem written_u64 (n : UInt64) : Written 20 (unsignedText n.toNat) :=
  written_unsigned (by decide) (Nat.lt_trans n.toNat_lt (by decide))

theorem written_u32 (n : UInt32) : Written 10 (unsignedText n.toNat) :=
  written_unsigned (by decide) (Nat.lt_trans n.toNat_lt (by decide))

theorem written_signed {n : Int} {w : Nat} (hw : 0 < w) (hn : n.natAbs < 10 ^ w) : Written (w + 1) (signedText n) :=
  ⟨_, (encode_intText n).symm, narrow_intText hw hn⟩

theorem written_i64 (n : Int64) : Written 20 (signedText n.toInt) := by
  have h := n.toInt_lt
  have h' := n.le_toInt
  refine written_signed (by decide) (Nat.lt_of_le_of_lt (show n.toInt.natAbs ≤ 2 ^ 63 by omega) (by decide))

theorem written_i32 (n : Int32) : Written 11 (signedText n.toInt) := by
  have h := n.toInt_lt
  have h' := n.le_toInt
  refine written_signed (by decide) (Nat.lt_of_le_of_lt (show n.toInt.natAbs ≤ 2 ^ 31 by omega) (by decide))

theorem written_flag (b : Bool) : Written 1 (flagText b) := by
  cases b with
  | true => exact ⟨_, rfl, narrow_digits (by decide) (by decide : 1 < 10 ^ 1)⟩
  | false => exact ⟨_, rfl, narrow_digits (by decide) (by decide : 0 < 10 ^ 1)⟩

/-- The fields in front of those whose length nothing bounds. -/
def narrowFields : Nat := 19

/-- The most that each of them takes. -/
def widths : List Nat := [11, 20, 20, 20, 20, 20, 20, 10, 20, 20, 20, 20, 20, 20, 20, 10, 10, 1, 11]

theorem fields_written (r : Report) :
    List.Forall₂ (fun f w => Written w f.2) (r.fields.take narrowFields) widths :=
  .cons (written_i32 _) <| .cons (written_i64 _) <| .cons (written_i64 _) <| .cons (written_u64 _) <|
    .cons (written_u64 _) <| .cons (written_u64 _) <| .cons (written_u64 _) <| .cons (written_u32 _) <|
    .cons (written_u64 _) <| .cons (written_u64 _) <| .cons (written_u64 _) <| .cons (written_u64 _) <|
    .cons (written_u64 _) <| .cons (written_u64 _) <| .cons (written_u64 _) <| .cons (written_u32 _) <|
    .cons (written_u32 _) <| .cons (written_flag _) <| .cons (written_i32 _) .nil

/-! ### From one end to the other -/

theorem encode_append (s t : List Char) : encode (s ++ t) = encode s ++ encode t := by
  rw [encode, List.flatMap_append, encode, encode]

theorem length_encode (s : List Char) : (encode s).length = size s := by
  induction s with
  | nil => rfl
  | cons c s ih => rw [encode_cons, List.length_append, String.length_utf8EncodeChar, ih, size_cons]

theorem decode_encode (s : List Char) : decode (encode s) = s := by
  have h := decode_take_encode (size s) s
  rwa [List.take_of_length_le (by rw [length_encode]), clip_of_size_le (le_refl _)] at h

/-- The daemon has been given texts, and none that would break a line of its report. -/
def Readable (r : Report) : Prop :=
  ∃ host list, r.valkey_host = encode host ∧ r.list = encode list ∧ ∀ c ∈ host ++ list, isBreak c = false

/-- The fields as texts. -/
def statsOf (r : Report) : List (List Char × List Char) := r.fields.map fun f => (f.1, decode f.2)

/-- A value that is a text on one line. -/
def OneLine (v : Bytes) : Prop := ∃ t, v = encode t ∧ ∀ c ∈ t, isBreak c = false

theorem Written.oneLine {w : Nat} {v : Bytes} (h : Written w v) : OneLine v := by
  obtain ⟨t, e, hn⟩ := h
  exact ⟨t, e, fun c hc => isBreak_of_not_space (hn.key.2 c hc)⟩

theorem OneLine.append {v v' : Bytes} (h : OneLine v) (h' : OneLine v') : OneLine (v ++ v') := by
  obtain ⟨t, rfl, ht⟩ := h
  obtain ⟨t', rfl, ht'⟩ := h'
  refine ⟨t ++ t', (encode_append t t').symm, fun c hc => ?_⟩
  exact (List.mem_append.mp hc).elim (ht c) (ht' c)

theorem fields_oneLine {r : Report} (hr : Readable r) : ∀ f ∈ r.fields, OneLine f.2 := by
  obtain ⟨host, list, hh, hl, hbreak⟩ := hr
  have hhost : OneLine r.valkey_host := ⟨host, hh, fun c hc => hbreak c (List.mem_append_left list hc)⟩
  have hlist : OneLine r.list := ⟨list, hl, fun c hc => hbreak c (List.mem_append_right host hc)⟩
  have hcolon : OneLine (encode [':']) := ⟨[':'], rfl, List.forall_mem_singleton.mpr (by decide)⟩
  have hport : OneLine (unsignedText r.valkey_port.toNat) :=
    (written_unsigned (by decide) (Nat.lt_trans r.valkey_port.toNat_lt (by decide : 2 ^ 16 < 10 ^ 5))).oneLine
  intro f hf
  rw [← List.take_append_drop narrowFields r.fields] at hf
  rcases List.mem_append.mp hf with hf | hf
  · obtain ⟨i, hi, rfl⟩ := List.getElem_of_mem hf
    exact ((List.forall₂_iff_get.mp (fields_written r)).2 i hi ((fields_written r).length_eq ▸ hi)).oneLine
  · have hrest : List.Forall (fun f => OneLine f.2) (r.fields.drop narrowFields) :=
      ⟨(hhost.append hcolon).append hport, (written_flag _).oneLine, (written_i64 _).oneLine, (written_u64 _).oneLine,
        (written_u64 _).oneLine, (written_u64 _).oneLine, hlist⟩
    exact List.forall_iff_forall_mem.mp hrest f hf

theorem fields_keys (r : Report) : r.fields.map Prod.fst = (default : Report).fields.map Prod.fst := rfl

instance decidableKey (k : List Char) : Decidable (Key k) :=
  decidable_of_iff (k ≠ [] ∧ k.all (fun c => !isSpace c) = true) (by simp [Key])

theorem fields_key (r : Report) : ∀ f ∈ r.fields, Key f.1 := by
  have h : ∀ k ∈ (default : Report).fields.map Prod.fst, Key k := by decide +kernel
  intro f hf
  exact h f.1 (fields_keys r ▸ List.mem_map_of_mem hf)

theorem statsOf_line {r : Report} (hr : Readable r) :
    ∀ f ∈ statsOf r, Key f.1 ∧ ∀ c ∈ statLine f, isBreak c = false := by
  intro f hf
  obtain ⟨g, hg, rfl⟩ := List.mem_map.mp hf
  have hkey := fields_key r g hg
  obtain ⟨t, ht, hbreak⟩ := fields_oneLine hr g hg
  refine ⟨hkey, fun c hc => ?_⟩
  rw [statLine, ht, decode_encode] at hc
  rcases List.mem_append.mp hc with hc | hc
  · exact isBreak_of_not_space (hkey.2 c hc)
  · rcases List.mem_cons.mp hc with rfl | hc
    · decide
    · exact hbreak c hc

theorem text_eq {r : Report} (hr : Readable r) :
    r.text = (encode (((statsOf r).map statLine).flatMap (· ++ ['\n']))).take 511 := by
  have hline : ∀ f ∈ r.fields, encode f.1 ++ encode [' '] ++ f.2 ++ encode ['\n'] =
      encode (statLine (f.1, decode f.2) ++ ['\n']) := by
    intro f hf
    obtain ⟨t, ht, -⟩ := fields_oneLine hr f hf
    rw [ht, decode_encode, statLine, encode_append, encode_append, encode_cons]
    simp [encode]
  rw [Report.text, statsOf]
  congr 1
  generalize r.fields = fs at hline
  induction fs with
  | nil => rfl
  | cons f fs ih =>
    rw [List.flatMap_cons, hline f List.mem_cons_self, ih fun g hg => hline g (List.mem_cons_of_mem f hg),
      ← encode_append]
    rfl

/-- Where a field of bounded length ends. -/
theorem sizeBefore_narrow {fs : List (List Char × Bytes)} {ws : List Nat}
    (h : List.Forall₂ (fun f w => Written w f.2) fs ws) {i : Nat} {f : List Char × Bytes} (hi : fs[i]? = some f) :
    sizeBefore (fs.map fun f => (f.1, decode f.2)) i + (size f.1 + 1 + size (decode f.2)) + 1 ≤
      (fs.map fun f => size f.1 + 2).sum + ws.sum := by
  induction h generalizing i with
  | nil => cases hi
  | @cons g w fs ws hg _ ih =>
    obtain ⟨t, ht, hn⟩ := hg
    have hsize : size (decode g.2) ≤ w := by
      rw [ht, decode_encode, size_of_ascii hn.ascii]
      exact hn.length
    simp only [List.map_cons, List.sum_cons]
    cases i with
    | zero =>
      obtain rfl : g = f := Option.some.inj hi
      simp only [sizeBefore, List.take_zero, List.map_nil, List.sum_nil]
      omega
    | succ i =>
      have hrest := ih (i := i) hi
      rw [sizeBefore_succ, size_statLine]
      dsimp only
      omega

theorem keys_size (r : Report) : ((r.fields.take narrowFields).map fun f => size f.1 + 2).sum = 168 := by
  have h : (((default : Report).fields.take narrowFields).map fun f => size f.1 + 2).sum = 168 := by decide +kernel
  have e : ∀ fs : List (List Char × Bytes), (fs.map fun f => size f.1 + 2) = (fs.map Prod.fst).map fun k => size k + 2 :=
    fun fs => by simp [Function.comp_def]
  rw [e, List.map_take, fields_keys, ← List.map_take, ← e, h]

/-- What the tool receives of a report. -/
def received (r : Report) : List (List Char × List Char) := statLines (clipLines 511 ((statsOf r).map statLine))

section Received
variable {r : Report} {i : Nat} {f : List Char × Bytes}

theorem daemonStats_eq (hr : Readable r) : daemonStats (some r.text) = some (received r) := by
  have hbreak : ∀ l ∈ (statsOf r).map statLine, ∀ c ∈ l, isBreak c = false := by
    intro l hl
    obtain ⟨f, hf, rfl⟩ := List.mem_map.mp hl
    exact (statsOf_line hr f hf).2
  rw [daemonStats, Option.map_some, text_eq hr, decode_take_encode, lines_clip hbreak]
  rfl

/-- Under each key there is what the buffer has left of its value. -/
theorem lookup_received (hr : Readable r) (hi : r.fields[i]? = some f) :
    (received r).lookup f.1 = valueOf (clip (511 - sizeBefore (statsOf r) i - (size f.1 + 1)) (decode f.2)) := by
  have hnodup : ((statsOf r).map Prod.fst).Nodup := by
    have h : ((default : Report).fields.map Prod.fst).Nodup := by decide +kernel
    rw [statsOf, List.map_map]
    exact h
  have hi' : (statsOf r)[i]? = some (f.1, decode f.2) := by
    rw [statsOf, List.getElem?_map, hi]
    rfl
  exact lookup_stat (statsOf_line hr) hnodup hi' 511

/-- Nothing is missing of what has a bounded length. -/
theorem lookup_narrow (hr : Readable r) (hlt : i < narrowFields) (hi : r.fields[i]? = some f) :
    (received r).lookup f.1 = some (decode f.2) := by
  have hnarrow : (r.fields.take narrowFields)[i]? = some f := by rw [List.getElem?_take_of_lt hlt, hi]
  have hfit := sizeBefore_narrow (fields_written r) hnarrow
  have hbefore : sizeBefore ((r.fields.take narrowFields).map fun f => (f.1, decode f.2)) i = sizeBefore (statsOf r) i := by
    rw [sizeBefore, sizeBefore, statsOf, ← List.map_take, List.take_take, Nat.min_eq_left (Nat.le_of_lt hlt),
      List.map_take]
  have hsum : widths.sum = 313 := by decide
  rw [keys_size, hbefore, hsum] at hfit
  obtain ⟨w, t, ht, hn⟩ : ∃ w, Written w f.2 := by
    obtain ⟨hi', rfl⟩ := List.getElem?_eq_some_iff.mp hnarrow
    exact ⟨_, (List.forall₂_iff_get.mp (fields_written r)).2 i hi' ((fields_written r).length_eq ▸ hi')⟩
  obtain ⟨c, t', rfl⟩ := List.exists_cons_of_ne_nil hn.key.1
  rw [lookup_received hr hi, clip_of_size_le (by omega), ht, decode_encode, valueOf,
    List.dropWhile_cons_of_neg (by simp [hn.key.2 c List.mem_cons_self]), if_neg (by simp)]

end Received

/-- What `daemon_stats` finds is what the daemon has printed: under each key there is what the buffer has
    left of its value, and of everything up to `ttl` there is nothing missing. -/
theorem daemonStats_text (r : Report) (hr : Readable r) :
    ∃ st, daemonStats (some r.text) = some st ∧
      (∀ i f, r.fields[i]? = some f → st.lookup f.1 =
        valueOf (clip (511 - sizeBefore (statsOf r) i - (size f.1 + 1)) (decode f.2))) ∧
      ∀ i < narrowFields, ∀ f, r.fields[i]? = some f → st.lookup f.1 = some (decode f.2) :=
  ⟨received r, daemonStats_eq hr, fun _ _ => lookup_received hr, fun _ hlt _ => lookup_narrow hr hlt⟩

/-- A list with a name that is too long for the buffer. -/
def longNamed : Report := { (default : Report) with ttl := 60, list := encode (List.replicate 600 'a') }

theorem longNamed_read : ∃ st, daemonStats (some longNamed.text) = some st ∧
    st.lookup "ttl".toList = some ['6', '0'] ∧ st.lookup "list".toList = some (List.replicate 241 'a') := by
  obtain ⟨st, hst, hall, hnarrow⟩ := daemonStats_text longNamed
    ⟨[], List.replicate 600 'a', rfl, rfl, not_break_of_all (by decide +kernel)⟩
  refine ⟨st, hst, ?_, ?_⟩
  · rw [hnarrow 18 (by decide) ("ttl".toList, signedText 60) rfl]
    decide +kernel
  · rw [hall 25 ("list".toList, encode (List.replicate 600 'a')) rfl]
    decide +kernel

theorem decode_unsigned (n : Nat) : decode (unsignedText n) = Nat.toDigits 10 n := by
  rw [unsignedText, ← encode_toDigits, decode_encode]

theorem decode_flag (b : Bool) : decode (flagText b) = if b then ['1'] else ['0'] := by
  cases b <;> exact decode_encode _

theorem decode_switch (on : Bool) : decode (unsignedText (flag on).toNat) = if on then ['1'] else ['0'] := by
  rw [decode_unsigned]
  cases on <;> decide

/-- What a dict says of what the daemon has done. -/
structure Shows (opt : Options) (st : List (List Char × List Char)) (past : List Service.Outcome) : Prop where
  hits : st.lookup "hits".toList = some (Nat.toDigits 10 (past.count (.replied .AGENT_OK) % 2 ^ 64))
  misses : st.lookup "misses".toList = some (Nat.toDigits 10 (past.count (.replied .AGENT_WRITE_THROUGH) % 2 ^ 64))
  errors : st.lookup "errors".toList = some (Nat.toDigits 10 (past.count (.replied .AGENT_CACHE_ERROR) % 2 ^ 64))
  stores : st.lookup "stores".toList = some (Nat.toDigits 10 (past.count .stored % 2 ^ 64))
  refused : st.lookup "refused".toList = some (Nat.toDigits 10 (past.count .refused % 2 ^ 64))
  lockbreaks : st.lookup "lockbreaks".toList = some (Nat.toDigits 10 (past.count .lockbreak % 2 ^ 64))
  reloads : st.lookup "reloads".toList = some (Nat.toDigits 10 (past.count .reloaded % 2 ^ 64))
  generation : st.lookup "generation".toList = some (Nat.toDigits 10 ((1 + past.count .reloaded) % 2 ^ 32))
  client_on : st.lookup "client_on".toList =
    some (if Service.lastSwitch Service.toClient true past then ['1'] else ['0'])
  local_on : st.lookup "local_on".toList =
    some (if Service.lastSwitch Service.toLocal opt.local_on past then ['1'] else ['0'])

theorem control_stats (s : Service) (file : Option (List Bytes)) (refuse : Bytes → Bool) (now : UInt64) (probe : Probe) :
    (s.control (encode "STATS".toList) file refuse now probe).1 = (s.report probe).text := by
  have hcmd : Service.command (encode "STATS".toList) = encode "STATS".toList := by decide +kernel
  rw [Service.control]
  dsimp only
  rw [hcmd, if_neg (by decide +kernel), if_neg (by decide +kernel), if_pos rfl]

/-- What `barnacle status` shows of a daemon is what the daemon has done since it was started, whatever
    else of its report may be missing. -/
theorem daemonStats_control (opt : Options) (mem : Mem) (len : Nat) (stmts_map : Bytes → Option Nat)
    (cfg : Slot → UInt32) (file : Option (List Bytes)) (refuse : Bytes → Bool) (now : UInt64) (s₀ s : Service)
    (hstart : Service.start opt mem len stmts_map cfg file refuse now = some s₀) (calls : List Service.Call)
    (hrun : run Service.step s₀ calls = some s) (host list : List Char) (hhost : opt.valkey_host = encode host)
    (hlist : opt.stmt_list = encode list) (hbreak : ∀ c ∈ host ++ list, isBreak c = false)
    (file' : Option (List Bytes)) (refuse' : Bytes → Bool) (now' : UInt64) (probe : Probe) :
    ∃ st, daemonStats (some (s.control (encode "STATS".toList) file' refuse' now' probe).1) = some st ∧
      Shows opt st (visible Service.step Service.outcome s₀ calls) := by
  have hb := Service.run_books hstart hrun
  have hr : Readable (s.report probe) :=
    ⟨host, list, (congrArg Options.valkey_host hb.options).trans hhost,
      (congrArg Options.stmt_list hb.options).trans hlist, hbreak⟩
  have hcount : ∀ (i : Nat) (k : List Char) (n : UInt64) (m : Nat), i < narrowFields →
      (s.report probe).fields[i]? = some (k, unsignedText n.toNat) → n = .ofNat m →
        (received (s.report probe)).lookup k = some (Nat.toDigits 10 (m % 2 ^ 64)) := by
    intro i k n m hi hf hn
    have h := lookup_narrow hr hi hf
    rw [h, decode_unsigned, hn, UInt64.toNat_ofNat']
  refine ⟨received (s.report probe), ?_, ?_⟩
  · rw [control_stats, daemonStats_eq hr]
  · refine ⟨hcount 8 _ _ _ (by decide) rfl hb.hits, hcount 9 _ _ _ (by decide) rfl hb.misses,
      hcount 10 _ _ _ (by decide) rfl hb.errors, hcount 11 _ _ _ (by decide) rfl hb.stores,
      hcount 12 _ _ _ (by decide) rfl hb.refused, hcount 13 _ _ _ (by decide) rfl hb.lockbreaks,
      hcount 14 _ _ _ (by decide) rfl hb.reloads, ?_, ?_, ?_⟩
    · refine (lookup_narrow hr (by decide : 15 < narrowFields) rfl).trans ?_
      show some (decode (unsignedText (s.cfg .BNCL_CFG_GENERATION).toNat)) = _
      rw [decode_unsigned, hb.generation, UInt32.toNat_add, UInt32.toNat_ofNat', UInt32.toNat_one, Nat.add_mod_mod]
    · refine (lookup_narrow hr (by decide : 16 < narrowFields) rfl).trans ?_
      show some (decode (unsignedText (s.cfg .BNCL_CFG_CLIENT_ON).toNat)) = _
      rw [hb.client_on, decode_switch]
    · refine (lookup_narrow hr (by decide : 17 < narrowFields) rfl).trans ?_
      show some (decode (flagText s.local_on)) = _
      rw [decode_flag, hb.local_on]

theorem oneShift_shown : ∃ s₀ s st,
    Service.start Service.listAt (fun _ => 0) 600 (fun _ => none) (fun _ => 0) (some [[83]]) (fun _ => false) 1 =
      some s₀ ∧ run Service.step s₀ Service.oneShift = some s ∧
    daemonStats (some (s.control (encode "STATS".toList) none (fun _ => false) 9 Service.probe).1) = some st ∧
      Shows Service.listAt st (visible Service.step Service.outcome s₀ Service.oneShift) := by
  have h : ((Service.start Service.listAt (fun _ => 0) 600 (fun _ => none) (fun _ => 0) (some [[83]])
      (fun _ => false) 1).bind fun s₀ => run Service.step s₀ Service.oneShift).isSome = true := by decide +kernel
  obtain ⟨s, hs⟩ := Option.isSome_iff_exists.mp h
  obtain ⟨s₀, hstart, hrun⟩ := Option.bind_eq_some_iff.mp hs
  obtain ⟨st, hst, hshows⟩ := daemonStats_control Service.listAt (fun _ => 0) 600 (fun _ => none) (fun _ => 0)
    (some [[83]]) (fun _ => false) 1 s₀ s hstart Service.oneShift hrun "valkey".toList ['/', 'l'] rfl rfl
    (not_break_of_all (by decide +kernel)) none (fun _ => false) 9 Service.probe
  exact ⟨s₀, s, st, hstart, hrun, hst, hshows⟩

end Barnacle.Tool
