import Barnacle.Lib.Bytes
import Mathlib.Data.List.DropRight

/-! Text, and the UTF-8 bytes it is stored as.

    A text is a list of characters. The decoder never fails: what is not UTF-8 becomes the
    replacement character, one for each longest stretch of bytes that could still have become a
    character. So a file read only up to a limit decodes to the characters that fit, and one
    replacement character where the limit falls inside one: `decode_take_encode`. Over that, a text's
    words (`words`) and its lines (`lines`), and how they come out of a text put together from
    parts. -/

namespace Barnacle.Lib.Text

/-! ### UTF-8 -/

def encode (s : List Char) : Bytes := s.flatMap String.utf8EncodeChar

/-- The number of bytes the text is stored in. -/
def size (s : List Char) : Nat := (s.map Char.utf8Size).sum

/-- The replacement character. -/
def replacement : Char := '\uFFFD'

/-- For the first byte of a character: how many bytes follow it, and the bounds of the first of
    them. Overlong forms, surrogates and what lies beyond the last code point are excluded there. -/
def leadByte (b : Nat) : Option (Nat × Nat × Nat) :=
  if b < 0x80 then some (0, 0x80, 0xBF)
  else if b < 0xC2 then none
  else if b < 0xE0 then some (1, 0x80, 0xBF)
  else if b < 0xF0 then some (2, if b = 0xE0 then 0xA0 else 0x80, if b = 0xED then 0x9F else 0xBF)
  else if b < 0xF5 then some (3, if b = 0xF0 then 0x90 else 0x80, if b = 0xF4 then 0x8F else 0xBF)
  else none

/-- The bytes that continue a character, `n` of them at most. -/
def tails : Nat → Nat → Nat → Bytes → List Nat
  | 0, _, _, _ => []
  | _ + 1, _, _, [] => []
  | n + 1, lo, hi, b :: bs =>
    if lo ≤ b.toNat ∧ b.toNat ≤ hi then b.toNat :: tails n 0x80 0xBF bs else []

/-- The character that starts with `b`, and how many of the following bytes belong to it. -/
def decodeChar (b : UInt8) (bs : Bytes) : Char × Nat :=
  match leadByte b.toNat with
  | none => (replacement, 0)
  | some (n, lo, hi) =>
    let cs := tails n lo hi bs
    if cs.length = n then
      (Char.ofNat (cs.foldl (fun v c => v * 64 + c % 64) (b.toNat % 2 ^ (if n = 0 then 7 else 6 - n))), n)
    else (replacement, cs.length)

def decodeLoop : Nat → Bytes → List Char
  | _, [] => []
  | 0, _ :: _ => []
  | fuel + 1, b :: bs => (decodeChar b bs).1 :: decodeLoop fuel (bs.drop (decodeChar b bs).2)

/-- Every character takes a byte, so there are at most as many characters as bytes. -/
def decode (bs : Bytes) : List Char := decodeLoop bs.length bs

@[simp] theorem encode_nil : encode [] = [] := rfl

@[simp] theorem encode_cons (c : Char) (s : List Char) : encode (c :: s) = String.utf8EncodeChar c ++ encode s := by
  simp [encode]

@[simp] theorem size_nil : size [] = 0 := rfl

@[simp] theorem size_cons (c : Char) (s : List Char) : size (c :: s) = c.utf8Size + size s := by
  simp [size]

@[simp] theorem size_append (s t : List Char) : size (s ++ t) = size s + size t := by
  simp [size]

theorem size_pos {s : List Char} (h : s ≠ []) : 0 < size s := by
  obtain ⟨c, t, rfl⟩ := List.exists_cons_of_ne_nil h
  have hc := Char.utf8Size_pos c
  rw [size_cons]
  omega

theorem tails_of_part {t u : Bytes} (hu : u <+: t) : ∀ {n lo hi}, tails n lo hi t = t.map UInt8.toNat →
    tails n lo hi u = u.map UInt8.toNat := by
  induction u generalizing t with
  | nil =>
    intro n lo hi _
    cases n <;> rfl
  | cons b u ih =>
    intro n lo hi h
    obtain ⟨t, rfl⟩ : ∃ t', t = b :: t' := by
      obtain ⟨r, rfl⟩ := hu
      exact ⟨u ++ r, rfl⟩
    cases n with
    | zero => simp [tails] at h
    | succ n =>
      rw [tails] at h ⊢
      split_ifs at h ⊢ with hb
      · simp only [List.map_cons, List.cons.injEq, true_and] at h ⊢
        exact ih (List.cons_prefix_cons.mp hu).2 h
      · simp at h

theorem tails_append {t : Bytes} (rest : Bytes) : ∀ {n lo hi}, t.length = n →
    tails n lo hi t = t.map UInt8.toNat → tails n lo hi (t ++ rest) = t.map UInt8.toNat := by
  induction t with
  | nil =>
    rintro n lo hi rfl -
    simp [tails]
  | cons b t ih =>
    rintro n lo hi rfl h
    rw [List.length_cons, tails] at h
    rw [List.cons_append, List.length_cons, tails]
    split_ifs at h ⊢ with hb
    · simp only [List.map_cons, List.cons.injEq, true_and] at h ⊢
      exact ih rfl h
    · simp at h

theorem tails_cons {n lo hi : Nat} {b : UInt8} (bs : Bytes) (h : lo ≤ b.toNat ∧ b.toNat ≤ hi) :
    tails (n + 1) lo hi (b :: bs) = b.toNat :: tails n 0x80 0xBF bs := by
  rw [tails, if_pos h]

/-- The encoding of a character is a lead byte and as many bytes as it announces. -/
theorem utf8EncodeChar_spec (c : Char) : ∃ b t lo hi, String.utf8EncodeChar c = b :: t ∧
    leadByte b.toNat = some (t.length, lo, hi) ∧ tails t.length lo hi t = t.map UInt8.toNat ∧
    Char.ofNat ((t.map UInt8.toNat).foldl (fun v c => v * 64 + c % 64)
      (b.toNat % 2 ^ (if t.length = 0 then 7 else 6 - t.length))) = c := by
  have hv : c.val.toNat < 0x110000 ∧ ¬ (0xD800 ≤ c.val.toNat ∧ c.val.toNat < 0xE000) := by
    have h := c.valid
    simp only [UInt32.isValidChar, Nat.isValidChar] at h
    omega
  have hback : ∀ v, v = c.val.toNat → Char.ofNat v = c := by
    rintro v rfl
    exact Char.ofNat_toNat c
  have hbyte : ∀ {k}, k < 256 → (UInt8.ofNat k).toNat = k := by
    intro k hk
    rw [UInt8.toNat_ofNat', Nat.mod_eq_of_lt hk]
  unfold String.utf8EncodeChar
  dsimp only
  generalize c.val.toNat = v at hv hback ⊢
  -- in each width the bounds of the bytes are those of the number, taken apart in base 64
  split_ifs with h1 h2 h3
  · have e0 := @hbyte v (by omega)
    refine ⟨_, _, 0x80, 0xBF, rfl, ?_, rfl, hback _ ?_⟩
    · rw [e0, leadByte, if_pos (by omega)]; rfl
    · simp only [List.map_nil, List.foldl_nil, e0, List.length_nil, if_true, Nat.reducePow]
      omega
  · have e0 := @hbyte (v / 64 % 0x20 + 0xc0) (by omega)
    have e1 := @hbyte (v % 0x40 + 0x80) (by omega)
    refine ⟨_, _, 0x80, 0xBF, rfl, ?_, ?_, hback _ ?_⟩
    · rw [e0, leadByte, if_neg (by omega), if_neg (by omega), if_pos (by omega)]; rfl
    · exact tails_cons _ (by omega)
    · simp only [List.map_cons, List.map_nil, List.foldl_cons, List.foldl_nil, e0, e1, List.length_cons,
        List.length_nil, Nat.reduceAdd, Nat.reduceSub, Nat.reducePow, one_ne_zero, if_false]
      omega
  · have e0 := @hbyte (v / 4096 % 0x10 + 0xe0) (by omega)
    have e1 := @hbyte (v / 64 % 0x40 + 0x80) (by omega)
    have e2 := @hbyte (v % 0x40 + 0x80) (by omega)
    refine ⟨_, _, if v / 4096 % 0x10 + 0xe0 = 0xE0 then 0xA0 else 0x80,
      if v / 4096 % 0x10 + 0xe0 = 0xED then 0x9F else 0xBF, rfl, ?_, ?_, hback _ ?_⟩
    · rw [e0, leadByte, if_neg (by omega), if_neg (by omega), if_neg (by omega), if_pos (by omega)]; rfl
    · simp only [List.length_cons, List.length_nil, List.map_cons, List.map_nil]
      rw [tails_cons _ (by rw [e1]; split_ifs <;> omega), tails_cons _ (by omega)]
      rfl
    · simp only [List.map_cons, List.map_nil, List.foldl_cons, List.foldl_nil, e0, e1, e2, List.length_cons,
        List.length_nil, Nat.reduceAdd, Nat.reduceSub, Nat.reducePow, OfNat.ofNat_ne_zero, if_false]
      omega
  · have e0 := @hbyte (v / 262144 % 0x08 + 0xf0) (by omega)
    have e1 := @hbyte (v / 4096 % 0x40 + 0x80) (by omega)
    have e2 := @hbyte (v / 64 % 0x40 + 0x80) (by omega)
    have e3 := @hbyte (v % 0x40 + 0x80) (by omega)
    refine ⟨_, _, if v / 262144 % 0x08 + 0xf0 = 0xF0 then 0x90 else 0x80,
      if v / 262144 % 0x08 + 0xf0 = 0xF4 then 0x8F else 0xBF, rfl, ?_, ?_, hback _ ?_⟩
    · rw [e0, leadByte, if_neg (by omega), if_neg (by omega), if_neg (by omega), if_neg (by omega),
        if_pos (by omega)]; rfl
    · simp only [List.length_cons, List.length_nil, List.map_cons, List.map_nil]
      rw [tails_cons _ (by rw [e1]; split_ifs <;> omega), tails_cons _ (by omega), tails_cons _ (by omega)]
      rfl
    · simp only [List.map_cons, List.map_nil, List.foldl_cons, List.foldl_nil, e0, e1, e2, e3, List.length_cons,
        List.length_nil, Nat.reduceAdd, Nat.reduceSub, Nat.reducePow, OfNat.ofNat_ne_zero, if_false]
      omega

theorem decodeChar_encode {c : Char} {b : UInt8} {t : Bytes} (hc : String.utf8EncodeChar c = b :: t) (rest : Bytes) :
    decodeChar b (t ++ rest) = (c, t.length) := by
  obtain ⟨b, t, lo, hi, he, hlead, htails, hval⟩ := utf8EncodeChar_spec c
  obtain ⟨rfl, rfl⟩ := List.cons.inj (hc.symm.trans he)
  rw [decodeChar, hlead]
  simp only [tails_append rest rfl htails, List.length_map, if_true, hval]

/-- A character cut short is replaced, and all of what is left of it with it. -/
theorem decodeChar_cut {c : Char} {b : UInt8} {t u : Bytes} (hc : String.utf8EncodeChar c = b :: t) (hu : u <+: t)
    (hlt : u.length < t.length) : decodeChar b u = (replacement, u.length) := by
  obtain ⟨b, t, lo, hi, he, hlead, htails, -⟩ := utf8EncodeChar_spec c
  obtain ⟨rfl, rfl⟩ := List.cons.inj (hc.symm.trans he)
  rw [decodeChar, hlead]
  simp only [tails_of_part hu htails, List.length_map, if_neg (Nat.ne_of_lt hlt)]

/-- What is left of a text of which only `left` bytes were read. -/
def clip : Nat → List Char → List Char
  | _, [] => []
  | left, c :: s =>
    if c.utf8Size ≤ left then c :: clip (left - c.utf8Size) s
    else if left = 0 then [] else [replacement]

theorem decodeLoop_take_encode (s : List Char) : ∀ (left fuel : Nat), ((encode s).take left).length ≤ fuel →
    decodeLoop fuel ((encode s).take left) = clip left s := by
  induction s with
  | nil =>
    intro left fuel _
    cases fuel <;> simp [decodeLoop, clip]
  | cons c s ih =>
    intro left fuel hfuel
    obtain ⟨b, t, lo, hi, he, -⟩ := utf8EncodeChar_spec c
    have hsize : c.utf8Size = t.length + 1 := by
      rw [← String.length_utf8EncodeChar, he, List.length_cons]
    rw [encode_cons, he] at hfuel ⊢
    rw [clip, hsize]
    rcases left with _ | l
    · cases fuel <;> simp [decodeLoop]
    rw [List.cons_append, List.take_succ_cons] at hfuel ⊢
    rw [List.length_cons] at hfuel
    obtain ⟨fuel, rfl⟩ : ∃ f, fuel = f + 1 := Nat.exists_eq_succ_of_ne_zero (by omega)
    rw [Nat.add_le_add_iff_right] at hfuel
    rw [decodeLoop]
    by_cases hl : t.length ≤ l
    · have htake : (t ++ encode s).take l = t ++ (encode s).take (l - t.length) := by
        rw [List.take_append, List.take_of_length_le hl]
      have hroom : ((encode s).take (l - t.length)).length ≤ fuel := by
        rw [htake, List.length_append] at hfuel
        omega
      rw [htake, decodeChar_encode he, if_pos (by omega), Nat.add_sub_add_right]
      simp only [List.drop_left, ih _ _ hroom]
    · have htake : (t ++ encode s).take l = t.take l := List.take_append_of_le_length (by omega)
      rw [htake, decodeChar_cut he (List.take_prefix l t) (by rw [List.length_take]; omega), if_neg (by omega),
        if_neg (by omega)]
      simp only [List.drop_length]
      rw [decodeLoop]

/-- Read up to a limit, a text is its characters that fit and a replacement for the one that is cut. -/
theorem decode_take_encode (left : Nat) (s : List Char) : decode ((encode s).take left) = clip left s :=
  decodeLoop_take_encode s left _ le_rfl

@[simp] theorem clip_zero (s : List Char) : clip 0 s = [] := by
  cases s with
  | nil => rfl
  | cons c s => simp [clip, Nat.ne_of_gt (Char.utf8Size_pos c)]

theorem clip_append {s : List Char} (t : List Char) : ∀ {left : Nat}, size s ≤ left →
    clip left (s ++ t) = s ++ clip (left - size s) t := by
  induction s with
  | nil =>
    intro left _
    simp
  | cons c s ih =>
    intro left h
    rw [size_cons] at h
    rw [List.cons_append, clip, if_pos (by omega), ih (by omega), size_cons, Nat.sub_sub, List.cons_append]

theorem clip_of_size_le {s : List Char} {left : Nat} (h : size s ≤ left) : clip left s = s := by
  have happ := clip_append [] h
  rwa [List.append_nil, clip, List.append_nil] at happ

/-- What lies beyond the limit does not matter. -/
theorem clip_append_of_le {s : List Char} (t : List Char) : ∀ {left : Nat}, left ≤ size s →
    clip left (s ++ t) = clip left s := by
  induction s with
  | nil =>
    intro left h
    obtain rfl : left = 0 := Nat.le_zero.mp h
    simp
  | cons c s ih =>
    intro left h
    rw [size_cons] at h
    rw [List.cons_append, clip, clip]
    split_ifs with h1
    · rw [ih (by omega)]
    · rfl
    · rfl

theorem utf8Size_of_ascii {c : Char} (h : c.toNat < 0x80) : c.utf8Size = 1 := by
  rw [Char.utf8Size_eq_one_iff, UInt32.le_iff_toNat_le]
  exact Nat.le_of_lt_succ h

theorem size_of_ascii {s : List Char} (h : ∀ c ∈ s, c.toNat < 0x80) : size s = s.length := by
  induction s with
  | nil => rfl
  | cons c s ih =>
    rw [size_cons, utf8Size_of_ascii (h c (by simp)), ih fun d hd => h d (List.mem_cons_of_mem c hd),
      List.length_cons, Nat.add_comm]

/-- In ASCII a limit in bytes is one in characters. -/
theorem clip_of_ascii {s : List Char} (h : ∀ c ∈ s, c.toNat < 0x80) : ∀ left, clip left s = s.take left := by
  induction s with
  | nil =>
    intro left
    simp [clip]
  | cons c s ih =>
    rintro (_ | left)
    · simp
    · rw [clip, utf8Size_of_ascii (h c (by simp)), if_pos (by omega), Nat.add_sub_cancel,
        ih fun d hd => h d (List.mem_cons_of_mem c hd), List.take_succ_cons]

/-- What is left starts with the first character or with its replacement. -/
theorem clip_cons_of_pos {left : Nat} (hleft : 0 < left) (c : Char) (s : List Char) :
    ∃ d t, clip left (c :: s) = d :: t ∧ (d = c ∨ d = replacement) := by
  rw [clip]
  split_ifs with h1 h2
  · exact ⟨c, _, rfl, Or.inl rfl⟩
  · omega
  · exact ⟨replacement, [], rfl, Or.inr rfl⟩

theorem mem_clip {s : List Char} {d : Char} : ∀ {left : Nat}, d ∈ clip left s → d ∈ s ∨ d = replacement := by
  induction s with
  | nil =>
    intro left h
    simp [clip] at h
  | cons c s ih =>
    intro left h
    rw [clip] at h
    split_ifs at h with h1 h2
    · rcases List.mem_cons.mp h with rfl | h
      · exact Or.inl (by simp)
      · exact (ih h).imp_left (List.mem_cons_of_mem c)
    · simp at h
    · exact Or.inr (by simpa using h)

theorem three_le_size {s : List Char} (h : s.getLast? = some replacement) : 3 ≤ size s := by
  have hrep : replacement.utf8Size = 3 := by decide
  obtain ⟨s, rfl⟩ := List.getLast?_eq_some_iff.mp h
  simp [hrep]

/-- A text that was cut reads as if it were whole only if the cut went through a last character that
    is the replacement character itself. -/
theorem clip_eq_self_iff {s : List Char} : ∀ {left : Nat}, left < size s →
    (clip left s = s ↔ s.getLast? = some replacement ∧ size s ≤ left + 2) := by
  have hrep : replacement.utf8Size = 3 := by decide
  induction s with
  | nil =>
    intro left h
    simp at h
  | cons c s ih =>
    intro left h
    rw [size_cons] at h
    rw [clip, size_cons]
    split_ifs with h1 h2
    · have hs : s ≠ [] := by
        rintro rfl
        simp only [size_nil] at h
        omega
      rw [List.cons.injEq, List.getLast?_cons_of_ne_nil hs]
      simp only [true_and]
      rw [ih (by omega)]
      refine and_congr_right fun _ => ?_
      omega
    · simp only [false_iff, not_and]
      intro hl hle
      have h3 := three_le_size hl
      rw [size_cons] at h3
      omega
    · simp only [List.cons.injEq, List.nil_eq]
      constructor
      · rintro ⟨rfl, rfl⟩
        simp [hrep]
        omega
      · rintro ⟨hl, hle⟩
        -- another character behind this one would be within the limit
        have hs : s = [] := by
          by_contra hne
          rw [List.getLast?_cons_of_ne_nil hne] at hl
          have h3 := three_le_size hl
          omega
        subst hs
        simpa using hl.symm

/-! ### Words and lines -/

/-- The white space that separates words. -/
def isSpace (c : Char) : Bool :=
  (0x09 ≤ c.toNat && c.toNat ≤ 0x0D) || (0x1C ≤ c.toNat && c.toNat ≤ 0x20) ||
    (0x2000 ≤ c.toNat && c.toNat ≤ 0x200A) ||
    [0x85, 0xA0, 0x1680, 0x2028, 0x2029, 0x202F, 0x205F, 0x3000].contains c.toNat

/-- The characters that end a line, all of them white space. -/
def isBreak (c : Char) : Bool :=
  (0x0A ≤ c.toNat && c.toNat ≤ 0x0D) || (0x1C ≤ c.toNat && c.toNat ≤ 0x1E) ||
    [0x85, 0x2028, 0x2029].contains c.toNat

/-- The stretches without white space. -/
def words (s : List Char) : List (List Char) := (s.splitOnP isSpace).filter (· ≠ [])

/-- The lines, without what ends them. There is none behind the last line end. -/
def lines : List Char → List (List Char)
  | [] => []
  | '\r' :: '\n' :: s => [] :: lines s
  | c :: s =>
    if isBreak c then [] :: lines s
    else (c :: (lines s).headD []) :: (lines s).tail

/-- Without the white space at both ends. -/
def strip (s : List Char) : List Char := (s.dropWhile isSpace).rdropWhile isSpace

theorem isSpace_of_isBreak {c : Char} (h : isBreak c = true) : isSpace c = true := by
  simp only [isBreak, isSpace, Bool.or_eq_true, Bool.and_eq_true, decide_eq_true_eq, List.contains_eq_mem,
    List.mem_cons, List.not_mem_nil, or_false] at h ⊢
  omega

theorem isBreak_of_not_space {c : Char} (h : isSpace c = false) : isBreak c = false := by
  cases hb : isBreak c with
  | false => rfl
  | true =>
    rw [isSpace_of_isBreak hb] at h
    cases h

theorem words_append_cons {c : Char} (hc : isSpace c = true) (s t : List Char) :
    words (s ++ c :: t) = words s ++ words t := by
  rw [words, List.splitOnP_append_cons s t hc, List.filter_append]
  rfl

/-- A stretch without white space is one word. -/
theorem words_of_word {w : List Char} (hne : w ≠ []) (hw : ∀ c ∈ w, isSpace c = false) : words w = [w] := by
  rw [words, List.splitOnP_eq_singleton hw]
  simp [hne]

theorem words_nil : words [] = [] := rfl

theorem words_cons_space {c : Char} (hc : isSpace c = true) (s : List Char) : words (c :: s) = words s :=
  words_append_cons hc [] s

theorem words_word_cons {w : List Char} {c : Char} (hne : w ≠ []) (hw : ∀ c ∈ w, isSpace c = false)
    (hc : isSpace c = true) (s : List Char) : words (w ++ c :: s) = w :: words s := by
  rw [words_append_cons hc, words_of_word hne hw]
  rfl

theorem words_cons_ne_nil {c : Char} (hc : isSpace c = false) (s : List Char) : words (c :: s) ≠ [] := by
  obtain ⟨w, ws, h⟩ := List.exists_cons_of_ne_nil (List.splitOnP_ne_nil isSpace s)
  rw [words, List.splitOnP_cons_eq_if_modifyHead, hc, h]
  simp

theorem mem_splitOnP_isSpace {s w : List Char} (h : w ∈ s.splitOnP isSpace) : ∀ c ∈ w, isSpace c = false := by
  induction s generalizing w with
  | nil =>
    simp only [List.splitOnP_nil, List.mem_singleton] at h
    simp [h]
  | cons a s ih =>
    obtain ⟨v, vs, e⟩ := List.exists_cons_of_ne_nil (List.splitOnP_ne_nil isSpace s)
    rw [List.splitOnP_cons_eq_if_modifyHead] at h
    rw [e] at h ih
    split_ifs at h with ha
    · rcases List.mem_cons.mp h with rfl | h
      · simp
      · exact ih h
    · rcases List.mem_cons.mp h with rfl | h
      · intro c hc
        rcases List.mem_cons.mp hc with rfl | hc
        · simpa using ha
        · exact ih (by simp) c hc
      · exact ih (List.mem_cons_of_mem v h)

/-- A word is not empty and has no white space in it. -/
theorem word_of_mem_words {s w : List Char} (h : w ∈ words s) : w ≠ [] ∧ ∀ c ∈ w, isSpace c = false := by
  rw [words, List.mem_filter] at h
  exact ⟨by simpa using h.2, mem_splitOnP_isSpace h.1⟩

theorem lines_cons {c : Char} (hc : isBreak c = false) (s : List Char) :
    lines (c :: s) = (c :: (lines s).headD []) :: (lines s).tail := by
  have hr : c ≠ '\r' := by
    rintro rfl
    exact absurd hc (by decide)
  rw [lines.eq_def]
  split
  · simp_all
  · simp_all
  · simp_all

theorem lines_append_newline {l : List Char} (hl : ∀ c ∈ l, isBreak c = false) (s : List Char) :
    lines (l ++ '\n' :: s) = l :: lines s := by
  induction l with
  | nil => rfl
  | cons c l ih =>
    rw [List.cons_append, lines_cons (hl c (by simp)), ih fun d hd => hl d (List.mem_cons_of_mem c hd)]
    rfl

/-- The first line is what comes before the first line end. -/
theorem lines_first {s : List Char} (hs : s ≠ []) : ∃ ls, lines s = s.takeWhile (!isBreak ·) :: ls := by
  induction s with
  | nil => exact absurd rfl hs
  | cons c s ih =>
    cases hc : isBreak c with
    | true =>
      rw [List.takeWhile_cons_of_neg (by simp [hc])]
      rw [lines.eq_def]
      split
      · simp_all
      · exact ⟨_, rfl⟩
      · simp_all
    | false =>
      rw [lines_cons hc, List.takeWhile_cons_of_pos (by simp [hc])]
      cases s with
      | nil => exact ⟨[], rfl⟩
      | cons d s =>
        obtain ⟨ls, h⟩ := ih (by simp)
        rw [h]
        exact ⟨ls, rfl⟩

theorem lines_of_no_break {s : List Char} (hs : s ≠ []) (h : ∀ c ∈ s, isBreak c = false) : lines s = [s] := by
  induction s with
  | nil => exact absurd rfl hs
  | cons c s ih =>
    rw [lines_cons (h c (by simp))]
    cases s with
    | nil => rfl
    | cons d s =>
      rw [ih (by simp) fun e he => h e (List.mem_cons_of_mem c he)]
      rfl

theorem lines_length_le_one {s : List Char} (h : ∀ c ∈ s, isBreak c = false) : (lines s).length ≤ 1 := by
  cases s with
  | nil => simp [lines]
  | cons c s => simp [lines_of_no_break (by simp) h]

/-- What is stripped does not start with white space. -/
theorem isSpace_head_strip {s t : List Char} {c : Char} (h : strip s = c :: t) : isSpace c = false := by
  have hpre : strip s <+: s.dropWhile isSpace := List.rdropWhile_prefix isSpace _
  rw [h] at hpre
  obtain ⟨r, hr⟩ := hpre
  have hhead := List.head?_dropWhile_not isSpace s
  rw [← hr] at hhead
  simpa using hhead

end Barnacle.Lib.Text
