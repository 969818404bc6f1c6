import Barnacle.Lib.Text
import Mathlib.Algebra.Order.Round
import Mathlib.Data.Int.Log
import Mathlib.Data.Rat.Floor
import Mathlib.Tactic.NormNum
import Mathlib.Tactic.Positivity

/-! Double-precision numbers, and the decimal texts they are written to and read from.

    A finite double is a rational with a significand of 53 bits; the two zeros are one value here.
    Reading a text takes the nearest double of the number it denotes (`float`), and writing takes the
    nearest whole number (`text`); of two that are as near, both take the even one. What is written is
    read back as the number rounded (`float_text`), and any part of it that is cut off at the end is
    not (`float_cut`). -/

namespace Barnacle.Lib.Text

/-! ### Rounding -/

/-- The nearest whole number, the even one of two. -/
def roundEven (q : ℚ) : ℤ := if Int.fract q = 1 / 2 ∧ Even ⌊q⌋ then ⌊q⌋ else round q

/-- The finite doubles: a significand of 53 bits and a power of two. -/
structure IsDouble (q : ℚ) : Prop where
  small : |q| < 2 ^ 1024
  bits : ∃ m e : ℤ, |m| < 2 ^ 53 ∧ -1074 ≤ e ∧ q = m * 2 ^ e

/-- The distance of the doubles around a number. -/
def ulp (q : ℚ) : ℚ := 2 ^ max (Int.log 2 |q| - 52) (-1074)

def rounded (q : ℚ) : ℚ := roundEven (q / ulp q) * ulp q

@[simp] theorem roundEven_intCast (n : ℤ) : roundEven n = n := by
  simp [roundEven]

theorem abs_roundEven_sub_le (q : ℚ) : |(roundEven q : ℚ) - q| ≤ 1 / 2 := by
  rw [roundEven]
  split_ifs with h
  · rw [abs_sub_comm, Int.self_sub_floor, h.1]
    norm_num
  · rw [abs_sub_comm]
    exact abs_sub_round q

/-- Rounding does not leave a range whose ends are whole numbers. -/
theorem abs_roundEven_le {q : ℚ} {n : ℤ} (h : |q| < n + 1 / 2) : |roundEven q| ≤ n := by
  have herr := abs_roundEven_sub_le q
  have htri := abs_sub_abs_le_abs_sub (roundEven q : ℚ) q
  have hlt : (|roundEven q| : ℚ) < n + 1 := by linarith
  have hlt' : |roundEven q| < n + 1 := by exact_mod_cast hlt
  omega

/-- A significand of one more is that of half as much with the next power. -/
theorem exists_significand {m e : ℤ} (hm : |m| ≤ 2 ^ 53) (he : -1074 ≤ e) :
    ∃ m' e' : ℤ, |m'| < 2 ^ 53 ∧ -1074 ≤ e' ∧ (m : ℚ) * 2 ^ e = m' * 2 ^ e' := by
  rcases hm.lt_or_eq with hlt | heq
  · exact ⟨m, e, hlt, he, rfl⟩
  · have hsplit : (2 : ℚ) ^ (e + 1) = 2 ^ e * 2 := zpow_add_one₀ (by norm_num) e
    rcases eq_or_eq_neg_of_abs_eq heq with rfl | rfl
    · refine ⟨2 ^ 52, e + 1, by norm_num, by omega, ?_⟩
      rw [hsplit]
      push_cast
      ring
    · refine ⟨-2 ^ 52, e + 1, by norm_num, by omega, ?_⟩
      rw [hsplit]
      push_cast
      ring

theorem ulp_pos (q : ℚ) : 0 < ulp q := zpow_pos (by norm_num) _

theorem isDouble_rounded {q : ℚ} (h : |rounded q| < 2 ^ 1024) : IsDouble (rounded q) := by
  refine ⟨h, ?_⟩
  have hq : |q / ulp q| < ((2 ^ 53 : ℤ) : ℚ) + 1 / 2 := by
    rw [abs_div, abs_of_pos (ulp_pos q), div_lt_iff₀ (ulp_pos q)]
    calc |q| < 2 ^ (Int.log 2 |q| + 1) := Int.lt_zpow_succ_log_self (by norm_num) _
      _ = 2 ^ (53 : ℤ) * 2 ^ (Int.log 2 |q| - 52) := by
        rw [← zpow_add₀ (by norm_num)]
        congr 1
        ring
      _ ≤ 2 ^ (53 : ℤ) * ulp q := by
        gcongr
        exact zpow_le_zpow_right₀ (by norm_num) (le_max_left _ _)
      _ ≤ _ := by
        have hpos := ulp_pos q
        norm_num
        linarith
  obtain ⟨m, e, hm, he, heq⟩ := exists_significand (abs_roundEven_le hq) (le_max_right (Int.log 2 |q| - 52) (-1074))
  exact ⟨m, e, hm, he, heq⟩

/-- A double is its own nearest double. -/
theorem rounded_of_isDouble {q : ℚ} (h : IsDouble q) : rounded q = q := by
  obtain ⟨m, e, hm, he, hq⟩ := h.bits
  rcases eq_or_ne q 0 with rfl | hq0
  · have h0 := roundEven_intCast 0
    push_cast at h0
    rw [rounded, zero_div, h0]
    push_cast
    ring
  -- the distance of the doubles around it divides the unit of its own significand
  have hlog : Int.log 2 |q| < 53 + e := by
    have hpow : (0 : ℚ) < 2 ^ e := zpow_pos (by norm_num) e
    have hm' : (|m| : ℚ) < 2 ^ (53 : ℤ) := by exact_mod_cast hm
    rw [← Int.lt_zpow_iff_log_lt (by norm_num) (abs_pos.mpr hq0), hq, abs_mul, abs_of_pos hpow]
    push_cast
    rw [zpow_add₀ (by norm_num)]
    exact mul_lt_mul_of_pos_right hm' hpow
  obtain ⟨k, hk⟩ := Int.le.dest (show max (Int.log 2 |q| - 52) (-1074) ≤ e from max_le (by omega) he)
  have hdiv : q / ulp q = ((m * 2 ^ k : ℤ) : ℚ) := by
    rw [div_eq_iff (ulp_pos q).ne']
    calc q = m * 2 ^ (max (Int.log 2 |q| - 52) (-1074) + (k : ℤ)) := by rw [hk, hq]
      _ = ((m * 2 ^ k : ℤ) : ℚ) * ulp q := by
        rw [zpow_add₀ (by norm_num), zpow_natCast, ulp]
        push_cast
        ring
  rw [rounded, hdiv, roundEven_intCast, ← hdiv, div_mul_cancel₀ _ (ulp_pos q).ne']

theorem isDouble_intCast {n : ℤ} (h : |n| ≤ 2 ^ 53) : IsDouble n := by
  refine ⟨?_, ?_⟩
  · calc (|(n : ℚ)| : ℚ) ≤ 2 ^ 53 := by exact_mod_cast h
      _ < 2 ^ 1024 := pow_lt_pow_right₀ (by norm_num) (by norm_num)
  · obtain ⟨m, e, hm, he, heq⟩ := exists_significand h (show -1074 ≤ (0 : ℤ) by norm_num)
    exact ⟨m, e, hm, he, by simpa using heq⟩

theorem isDouble_natCast {n : ℕ} (h : n ≤ 2 ^ 53) : IsDouble n := by
  have hn : |(n : ℤ)| ≤ 2 ^ 53 := by
    rw [Nat.abs_cast]
    exact_mod_cast h
  exact_mod_cast isDouble_intCast hn

/-- A double without its fraction is a double. -/
theorem isDouble_roundEven {q : ℚ} (h : IsDouble q) : IsDouble (roundEven q) := by
  obtain ⟨m, e, hm, he, heq⟩ := h.bits
  rcases le_or_gt 0 e with hpos | hneg
  · obtain ⟨k, rfl⟩ := Int.eq_ofNat_of_zero_le hpos
    have hint : q = ((m * 2 ^ k : ℤ) : ℚ) := by
      rw [heq]
      push_cast
      rw [zpow_natCast]
    rw [hint, roundEven_intCast, ← hint]
    exact h
  · refine isDouble_intCast (abs_roundEven_le ?_)
    have hle : (2 : ℚ) ^ e ≤ 1 := zpow_le_one_of_nonpos₀ (by norm_num) hneg.le
    have hm' : (|m| : ℚ) < 2 ^ 53 := by exact_mod_cast hm
    rw [heq, abs_mul, abs_of_pos (zpow_pos (show (0 : ℚ) < 2 by norm_num) e)]
    calc |(m : ℚ)| * 2 ^ e ≤ |(m : ℚ)| * 1 := mul_le_mul_of_nonneg_left hle (abs_nonneg _)
      _ < ((2 ^ 53 : ℤ) : ℚ) + 1 / 2 := by
        push_cast
        linarith

/-- Rounding to a double moves a positive whole number by less than half of itself. -/
theorem rounded_natCast_lt {n : ℕ} (h : 0 < n) : rounded n < 2 * n := by
  have hn : (1 : ℚ) ≤ n := by exact_mod_cast h
  have habs : |(n : ℚ)| = n := abs_of_pos (by linarith)
  have hulp : ulp n ≤ n := by
    have hlog : 0 ≤ Int.log 2 (n : ℚ) := by
      rw [Int.log_natCast]
      positivity
    rw [ulp, habs, max_eq_left (by omega)]
    calc (2 : ℚ) ^ (Int.log 2 (n : ℚ) - 52) ≤ 2 ^ Int.log 2 (n : ℚ) :=
          zpow_le_zpow_right₀ (by norm_num) (by omega)
      _ ≤ n := by exact_mod_cast Int.zpow_log_le_self (by norm_num) (show (0 : ℚ) < n by linarith)
  have herr := (abs_le.mp (abs_roundEven_sub_le ((n : ℚ) / ulp n))).2
  have hmul := mul_le_mul_of_nonneg_right herr (ulp_pos n).le
  rw [sub_mul, div_mul_cancel₀ _ (ulp_pos (n : ℚ)).ne'] at hmul
  rw [rounded]
  linarith

/-! ### Doubles -/

inductive Double where
  | nan
  | inf (neg : Bool)
  | fin (q : ℚ) (h : IsDouble q)
  deriving DecidableEq

theorem IsDouble.neg {q : ℚ} (h : IsDouble q) : IsDouble (-q) := by
  obtain ⟨m, e, hm, he, rfl⟩ := h.bits
  exact ⟨by simpa using h.small, -m, e, by simpa using hm, he, by push_cast; ring⟩

/-- The double a number is read or computed as: the nearest one, or an infinity beyond them all. -/
def nearest (q : ℚ) : Double :=
  if h : |rounded q| < 2 ^ 1024 then .fin (rounded q) (isDouble_rounded h) else .inf (q < 0)

namespace Double

def ofNat (n : ℕ) (h : n ≤ 2 ^ 53) : Double := .fin n (isDouble_natCast h)

def zero : Double := ofNat 0 (Nat.zero_le _)

def neg : Double → Double
  | nan => nan
  | inf s => inf (!s)
  | fin q h => fin (-q) h.neg

def sub : Double → Double → Double
  | fin p _, fin q _ => nearest (p - q)
  | nan, _ => nan
  | _, nan => nan
  | inf s, inf t => if s = t then nan else inf s
  | inf s, fin _ _ => inf s
  | fin _ _, inf t => inf (!t)

/-- `a < b`, false if one of them is not a number. -/
def lt : Double → Double → Bool
  | fin p _, fin q _ => p < q
  | inf s, inf t => s && !t
  | inf s, fin _ _ => s
  | fin _ _, inf t => !t
  | nan, _ => false
  | _, nan => false

/-- The nearest whole number. -/
def round : Double → Double
  | nan => nan
  | inf s => inf s
  | fin q h => fin (roundEven q) (isDouble_roundEven h)

/-- `"%.0f"`: the digits of the nearest whole number, with the sign of the number itself. -/
def text : Double → List Char
  | nan => ['n', 'a', 'n']
  | inf s => (if s then ['-'] else []) ++ ['i', 'n', 'f']
  | fin q _ => (if q < 0 then ['-'] else []) ++ Nat.toDigits 10 (roundEven q).natAbs

end Double

/-! ### Reading numbers -/

/-- The digits that are not ASCII: which characters are digits, and the decimal digit that some of
    them stand for. -/
structure Unicode where
  digit : Char → Bool
  decimal : Char → Option (Fin 10)

/-- The decimal value of a text of ASCII digits. -/
def digitsValue (ds : List Char) : ℕ := Nat.ofDigitChars 10 ds 0

/-- `e` and a whole number, or nothing. -/
def exponent : List Char → Option ℤ
  | [] => some 0
  | c :: t =>
    let ds := if t.head? = some '-' ∨ t.head? = some '+' then t.tail else t
    if (c = 'e' ∨ c = 'E') ∧ ds ≠ [] ∧ ds.all Char.isDigit then
      some (if t.head? = some '-' then -(digitsValue ds : ℤ) else digitsValue ds)
    else none

/-- Digits with a point in them or not, and an exponent. -/
def number (t : List Char) : Option ℚ :=
  let whole := t.takeWhile Char.isDigit
  let rest := t.dropWhile Char.isDigit
  let point := rest.head? = some '.'
  let frac := if point then rest.tail.takeWhile Char.isDigit else []
  if whole = [] ∧ frac = [] then none
  else
    (exponent (if point then rest.tail.dropWhile Char.isDigit else rest)).map fun e : ℤ =>
      (digitsValue (whole ++ frac) : ℚ) * 10 ^ (e - frac.length)

def unsigned (t : List Char) : Option Double :=
  let low := t.map Char.toLower
  if low = "inf".toList ∨ low = "infinity".toList then some (.inf false)
  else if low = "nan".toList then some .nan
  else (number t).map nearest

def signed (t : List Char) : Option Double :=
  if t.head? = some '-' then (unsigned t.tail).map Double.neg
  else if t.head? = some '+' then unsigned t.tail
  else unsigned t

/-- An underscore stands between two digits, or the text is not a number. -/
def dropUnderscores : Bool → List Char → Option (List Char)
  | _, [] => some []
  | afterDigit, c :: t =>
    if c = '_' then
      if afterDigit ∧ (t.head?.any Char.isDigit) then dropUnderscores false t else none
    else (dropUnderscores c.isDigit t).map (c :: ·)

namespace Unicode

variable (u : Unicode)

/-- A decimal digit of another script is the ASCII one. -/
def ascii (c : Char) : Char :=
  if c.toNat < 0x80 then c
  else match u.decimal c with
    | some d => Nat.digitChar d
    | none => c

/-- `text.isdigit()`. -/
def isdigit (t : List Char) : Bool :=
  t ≠ [] && t.all fun c => if c.toNat < 0x80 then c.isDigit else u.digit c

/-- `int(text)` of a text of digits; not every digit is a decimal digit. -/
def int (t : List Char) : Option ℕ :=
  if (t.map u.ascii).all Char.isDigit then some (digitsValue (t.map u.ascii)) else none

/-- `float(text)`. The white space around it may be any but the separators 0x1C to 0x1F. -/
def float (t : List Char) : Option Double :=
  let blank := fun c => isSpace c && (c.toNat < 0x1C || 0x20 ≤ c.toNat)
  (dropUnderscores false (((t.dropWhile blank).rdropWhile blank).map u.ascii)).bind signed

end Unicode

/-! ### What is written is read back -/

theorem nearest_of_isDouble {q : ℚ} (h : IsDouble q) : nearest q = .fin q h := by
  have hr := rounded_of_isDouble h
  rw [nearest, dif_pos (by rw [hr]; exact h.small)]
  congr 1

/-- Of a number at most a tenth as large, the nearest double is another. -/
theorem nearest_natCast_ne {v n : ℕ} (hv : 10 * v ≤ n) (hn : 0 < n) (h : IsDouble n) : nearest v ≠ .fin n h := by
  rw [nearest]
  split_ifs
  · intro heq
    have hval : rounded v = n := by injection heq
    rcases Nat.eq_zero_or_pos v with rfl | hpos
    · rw [rounded_of_isDouble (isDouble_natCast (Nat.zero_le _))] at hval
      push_cast at hval
      have hn' : (0 : ℚ) < n := by exact_mod_cast hn
      linarith
    · have hlt := rounded_natCast_lt hpos
      have hv' : (10 : ℚ) * v ≤ n := by exact_mod_cast hv
      have hpos' : (0 : ℚ) < v := by exact_mod_cast hpos
      linarith
  · simp

/-- A decimal text that is cut at its end denotes at most a tenth, and that of zero is too short to
    be cut. -/
theorem digitsValue_cut {n : ℕ} {p : List Char} (hp : p <+: Nat.toDigits 10 n) (hne : p ≠ Nat.toDigits 10 n)
    (hp0 : p ≠ []) : 0 < n ∧ 10 * digitsValue p ≤ n := by
  have hn : 0 < n := by
    refine Nat.pos_of_ne_zero ?_
    rintro rfl
    obtain ⟨c, t, rfl⟩ := List.exists_cons_of_ne_nil hp0
    rw [Nat.toDigits_zero] at hp hne
    obtain ⟨rfl, ht⟩ := List.cons_prefix_cons.mp hp
    exact hne (by rw [List.prefix_nil.mp ht])
  refine ⟨hn, ?_⟩
  obtain ⟨r, hr⟩ := hp
  have hpos : 0 < r.length := by
    refine List.length_pos_of_ne_nil ?_
    rintro rfl
    exact hne (by simpa using hr)
  have hval : n = 10 ^ r.length * digitsValue p + digitsValue r := by
    rw [← @Nat.ofDigitChars_ten_toDigits n, ← hr, Nat.ofDigitChars_append, Nat.ofDigitChars_eq_ofDigitChars_zero]
    rfl
  have hpow : 10 ^ 1 ≤ 10 ^ r.length := Nat.pow_le_pow_right (by norm_num) hpos
  calc 10 * digitsValue p ≤ 10 ^ r.length * digitsValue p := Nat.mul_le_mul_right _ hpow
    _ ≤ 10 ^ r.length * digitsValue p + digitsValue r := Nat.le_add_right _ _
    _ = n := hval.symm

/-- A character of a number: ASCII, not white space and not an underscore. -/
def numeric (c : Char) : Prop := c.toNat < 0x80 ∧ isSpace c = false ∧ c ≠ '_'

instance decidableNumeric (c : Char) : Decidable (numeric c) := inferInstanceAs (Decidable (_ ∧ _ ∧ _))

theorem numeric_of_isDigit {c : Char} (h : c.isDigit = true) : numeric c := by
  have hle : 48 ≤ c.toNat ∧ c.toNat ≤ 57 := by
    simpa [Char.isDigit, UInt32.le_iff_toNat_le] using h
  refine ⟨by omega, ?_, ?_⟩
  · rw [← Bool.not_eq_true]
    simp only [isSpace, Bool.or_eq_true, Bool.and_eq_true, decide_eq_true_eq, List.contains_eq_mem, List.mem_cons,
      List.not_mem_nil, or_false]
    omega
  · rintro rfl
    exact absurd h (by decide)

theorem map_ascii (u : Unicode) {t : List Char} (h : ∀ c ∈ t, c.toNat < 0x80) : t.map u.ascii = t :=
  (List.map_congr_left fun c hc => if_pos (h c hc)).trans (List.map_id t)

theorem isdigit_of_digits (u : Unicode) {ds : List Char} (hne : ds ≠ []) (h : ∀ c ∈ ds, c.isDigit = true) :
    u.isdigit ds = true := by
  simp only [Unicode.isdigit, Bool.and_eq_true, decide_eq_true_eq, List.all_eq_true]
  refine ⟨hne, fun c hc => ?_⟩
  rw [if_pos (numeric_of_isDigit (h c hc)).1]
  exact h c hc

theorem int_of_digits (u : Unicode) {ds : List Char} (h : ∀ c ∈ ds, c.isDigit = true) :
    u.int ds = some (digitsValue ds) := by
  rw [Unicode.int, map_ascii u fun c hc => (numeric_of_isDigit (h c hc)).1, if_pos (List.all_eq_true.mpr h)]

theorem dropUnderscores_of_numeric {t : List Char} (h : ∀ c ∈ t, numeric c) :
    ∀ b, dropUnderscores b t = some t := by
  induction t with
  | nil =>
    intro b
    rfl
  | cons c t ih =>
    intro b
    rw [dropUnderscores, if_neg (h c (by simp)).2.2, ih fun d hd => h d (List.mem_cons_of_mem c hd)]
    rfl

theorem float_of_numeric (u : Unicode) {t : List Char} (h : ∀ c ∈ t, numeric c) : u.float t = signed t := by
  have hmap : t.map u.ascii = t := map_ascii u fun c hc => (h c hc).1
  have hend : ∀ c ∈ t, ¬ (isSpace c && (c.toNat < 0x1C || 0x20 ≤ c.toNat)) = true := by
    intro c hc
    rw [(h c hc).2.1]
    simp
  have hleft : t.dropWhile (fun c => isSpace c && (c.toNat < 0x1C || 0x20 ≤ c.toNat)) = t :=
    List.dropWhile_eq_self_iff.mpr fun _ => hend _ (List.getElem_mem _)
  have hright : t.rdropWhile (fun c => isSpace c && (c.toNat < 0x1C || 0x20 ≤ c.toNat)) = t :=
    List.rdropWhile_eq_self_iff.mpr fun hl => hend _ (List.getLast_mem hl)
  rw [Unicode.float]
  simp only [hleft, hright, hmap, dropUnderscores_of_numeric h, Option.bind_some]

theorem unsigned_of_digits {ds : List Char} (hne : ds ≠ []) (h : ∀ c ∈ ds, c.isDigit = true) :
    unsigned ds = some (nearest (digitsValue ds)) := by
  have hword : ∀ {c : Char} {w : List Char}, c.isDigit = false → ds.map Char.toLower ≠ c :: w := by
    intro c w hc heq
    obtain ⟨d, t, rfl⟩ := List.exists_cons_of_ne_nil hne
    rw [List.map_cons, List.cons.injEq] at heq
    have hd : d.isDigit = true := h d (by simp)
    have hlow : d.toLower = d := by
      have hle : 48 ≤ d.val.toNat ∧ d.val.toNat ≤ 57 := by
        simpa [Char.isDigit, UInt32.le_iff_toNat_le] using hd
      refine dif_neg ?_
      rintro ⟨h1, -⟩
      have h65 : 65 ≤ d.val.toNat := h1
      omega
    rw [← heq.1, hlow, hd] at hc
    cases hc
  have hnum : number ds = some (digitsValue ds : ℚ) := by
    have hall : ds.takeWhile Char.isDigit = ds := List.takeWhile_eq_self_iff.mpr h
    have hnone : ds.dropWhile Char.isDigit = [] := List.dropWhile_eq_nil_iff.mpr h
    simp [number, hall, hnone, hne, exponent]
  rw [unsigned]
  rw [if_neg, if_neg, hnum]
  · rfl
  · exact hword (by decide)
  · exact not_or.mpr ⟨hword (by decide), hword (by decide)⟩

theorem roundEven_nonneg {q : ℚ} (h : 0 ≤ q) : 0 ≤ roundEven q := by
  have herr := (abs_le.mp (abs_roundEven_sub_le q)).1
  have hlt : ((-1 : ℤ) : ℚ) < roundEven q := by
    push_cast
    linarith
  have hlt' : -1 < roundEven q := by exact_mod_cast hlt
  omega

theorem roundEven_nonpos {q : ℚ} (h : q < 0) : roundEven q ≤ 0 := by
  have herr := (abs_le.mp (abs_roundEven_sub_le q)).2
  have hlt : (roundEven q : ℚ) < (1 : ℤ) := by
    push_cast
    linarith
  have hlt' : roundEven q < 1 := by exact_mod_cast hlt
  omega

theorem signed_of_digits {ds : List Char} (hne : ds ≠ []) (h : ∀ c ∈ ds, c.isDigit = true) :
    signed ds = some (nearest (digitsValue ds)) := by
  have hsign : ∀ {c : Char}, c.isDigit = false → ¬ ds.head? = some c := by
    intro c hc hhead
    rw [h c (List.mem_of_head? hhead)] at hc
    cases hc
  rw [signed, if_neg (hsign (by decide)), if_neg (hsign (by decide)), unsigned_of_digits hne h]

theorem signed_minus_digits {ds : List Char} (hne : ds ≠ []) (h : ∀ c ∈ ds, c.isDigit = true) :
    signed ('-' :: ds) = some (nearest (digitsValue ds)).neg := by
  rw [signed, if_pos List.head?_cons, List.tail_cons, unsigned_of_digits hne h]
  rfl

/-- The words for what has no digits are not numbers when they are cut. -/
theorem signed_word_cut : ∀ w ∈ [['n', 'a', 'n'], ['i', 'n', 'f'], ['-', 'i', 'n', 'f']], ∀ p ∈ w.inits,
    p ≠ w → signed p = none := by
  decide

namespace Double

theorem neg_neg (x : Double) : x.neg.neg = x := by
  cases x with
  | nan => rfl
  | inf s => simp [neg]
  | fin q h => simp [neg]

theorem isDigit_toDigits (n : ℕ) : ∀ c ∈ Nat.toDigits 10 n, c.isDigit = true := by
  intro c hc
  exact Nat.isDigit_of_mem_toDigits (by norm_num) (by norm_num) hc

theorem text_ne_nil (w : Double) : w.text ≠ [] := by
  cases w with
  | nan => simp [text]
  | inf s => simp [text]
  | fin q h => simp [text, Nat.toDigits_ne_nil]

theorem numeric_text (w : Double) : ∀ c ∈ w.text, numeric c := by
  intro c hc
  cases w with
  | nan =>
    simp only [text, List.mem_cons, List.not_mem_nil, or_false] at hc
    rcases hc with rfl | rfl | rfl <;> decide
  | inf s =>
    rw [text, List.mem_append] at hc
    rcases hc with hc | hc
    · split_ifs at hc
      · obtain rfl := List.mem_singleton.mp hc
        decide
      · simp at hc
    · simp only [List.mem_cons, List.not_mem_nil, or_false] at hc
      rcases hc with rfl | rfl | rfl <;> decide
  | fin q h =>
    rw [text, List.mem_append] at hc
    rcases hc with hc | hc
    · split_ifs at hc
      · obtain rfl := List.mem_singleton.mp hc
        decide
      · simp at hc
    · exact numeric_of_isDigit (isDigit_toDigits _ c hc)

/-- The whole number that is written, under its sign. -/
theorem roundEven_eq (q : ℚ) :
    (roundEven q : ℚ) = if q < 0 then -((roundEven q).natAbs : ℚ) else (roundEven q).natAbs := by
  rw [Nat.cast_natAbs]
  split_ifs with h
  · rw [abs_of_nonpos (roundEven_nonpos h)]
    push_cast
    ring
  · rw [abs_of_nonneg (roundEven_nonneg (not_lt.mp h))]

/-- What is written is read back as the number rounded. -/
theorem float_text (u : Unicode) (w : Double) : u.float w.text = some w.round := by
  rw [float_of_numeric u (numeric_text w)]
  cases w with
  | nan => rfl
  | inf s => cases s <;> rfl
  | fin q h =>
    have hval : digitsValue (Nat.toDigits 10 (roundEven q).natAbs) = (roundEven q).natAbs :=
      Nat.ofDigitChars_ten_toDigits
    have hr := isDouble_roundEven h
    have heq := roundEven_eq q
    rw [text, round]
    split_ifs at heq ⊢ with hneg
    · have hn : IsDouble ((roundEven q).natAbs : ℚ) := by
        rw [show ((roundEven q).natAbs : ℚ) = -(roundEven q : ℚ) by linarith]
        exact hr.neg
      rw [List.singleton_append, signed_minus_digits Nat.toDigits_ne_nil (isDigit_toDigits _), hval,
        nearest_of_isDouble hn, neg]
      congr 2
      exact heq.symm
    · have hn : IsDouble ((roundEven q).natAbs : ℚ) := heq ▸ hr
      rw [List.nil_append, signed_of_digits Nat.toDigits_ne_nil (isDigit_toDigits _), hval, nearest_of_isDouble hn]
      congr 2
      exact heq.symm

/-- Cut at its end, a text is no number, or another number, and then not that of zero. -/
theorem signed_cut {w : Double} {p : List Char} (hp : p <+: w.text) (hne : p ≠ w.text) :
    signed p = none ∨ (w.round ≠ zero ∧ ∃ x, signed p = some x ∧ x ≠ w.round) := by
  cases w with
  | nan => exact Or.inl (signed_word_cut _ (by decide) p ((List.mem_inits _ _).mpr hp) hne)
  | inf s =>
    left
    cases s with
    | false => exact signed_word_cut _ (by decide) p ((List.mem_inits _ _).mpr hp) hne
    | true => exact signed_word_cut _ (by decide) p ((List.mem_inits _ _).mpr hp) hne
  | fin q h =>
    have hr := isDouble_roundEven h
    have heq := roundEven_eq q
    have hround : 0 < (roundEven q).natAbs → round (fin q h) ≠ zero := by
      intro hpos h0
      have h0' : (roundEven q : ℚ) = (0 : ℕ) := by injection h0
      have hz : roundEven q = 0 := by exact_mod_cast h0'
      omega
    rw [text] at hp hne
    split_ifs at heq hp hne with hneg
    · -- the sign alone is no number
      rw [List.singleton_append] at hp hne
      rcases p with _ | ⟨c, p⟩
      · exact Or.inl rfl
      obtain ⟨rfl, hds⟩ := List.cons_prefix_cons.mp hp
      rcases eq_or_ne p [] with rfl | hp0
      · exact Or.inl rfl
      obtain ⟨hpos, hv⟩ := digitsValue_cut hds (fun e => hne (e ▸ rfl)) hp0
      refine Or.inr ⟨hround hpos, _, signed_minus_digits hp0 fun c hc => isDigit_toDigits _ c (hds.subset hc), ?_⟩
      intro hx
      have hx' := congrArg neg hx
      rw [neg_neg, round, neg] at hx'
      have hn : IsDouble ((roundEven q).natAbs : ℚ) := by
        rw [show ((roundEven q).natAbs : ℚ) = -(roundEven q : ℚ) by linarith]
        exact hr.neg
      refine nearest_natCast_ne hv hpos hn (hx'.trans ?_)
      congr 1
      linarith
    · rw [List.nil_append] at hp hne
      rcases eq_or_ne p [] with rfl | hp0
      · exact Or.inl rfl
      obtain ⟨hpos, hv⟩ := digitsValue_cut hp hne hp0
      refine Or.inr ⟨hround hpos, _, signed_of_digits hp0 fun c hc => isDigit_toDigits _ c (hp.subset hc), ?_⟩
      intro hx
      refine nearest_natCast_ne hv hpos (heq ▸ hr) (hx.trans ?_)
      rw [round]
      congr 1

/-- What is cut is read back, as zero if it is no number, only if zero was written. -/
theorem float_cut (u : Unicode) {w : Double} {p : List Char} (hp : p <+: w.text) (hne : p ≠ w.text) :
    (u.float p).getD zero = w.round ↔ w.round = zero := by
  rw [float_of_numeric u fun c hc => numeric_text w c (hp.subset hc)]
  rcases signed_cut hp hne with h | ⟨h0, x, h, hx⟩
  · rw [h]
    exact eq_comm
  · rw [h]
    exact iff_of_false hx h0

section
variable {a b : ℕ} (ha : a ≤ 2 ^ 53) (hb : b ≤ 2 ^ 53)

theorem roundEven_natCast (n : ℕ) : roundEven n = n := by
  have h := roundEven_intCast n
  rwa [Int.cast_natCast] at h

theorem text_ofNat : (ofNat a ha).text = Nat.toDigits 10 a := by
  rw [ofNat, text, roundEven_natCast, if_neg (not_lt.mpr (Nat.cast_nonneg a))]
  rfl

theorem round_ofNat : (ofNat a ha).round = ofNat a ha := by
  rw [ofNat, round]
  congr 1
  rw [roundEven_natCast]
  rfl

theorem float_toDigits (u : Unicode) : u.float (Nat.toDigits 10 a) = some (ofNat a ha) := by
  rw [← text_ofNat ha, float_text, round_ofNat]

theorem nearest_natCast : nearest a = ofNat a ha := nearest_of_isDouble (isDouble_natCast ha)

theorem sub_ofNat (h : b ≤ a) : (ofNat a ha).sub (ofNat b hb) = ofNat (a - b) ((Nat.sub_le a b).trans ha) := by
  rw [ofNat, ofNat, sub, ← Nat.cast_sub h, nearest_natCast ((Nat.sub_le a b).trans ha)]

theorem lt_ofNat : (ofNat a ha).lt (ofNat b hb) = decide (a < b) := by
  rw [ofNat, ofNat, lt]
  exact decide_eq_decide.mpr Nat.cast_lt

end

end Double

end Barnacle.Lib.Text
