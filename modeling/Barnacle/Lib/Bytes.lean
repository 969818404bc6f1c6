import Mathlib.Data.List.Basic
import Mathlib.Tactic.Ring
import Mathlib.Tactic.Linarith

/-! Little-endian integers over byte lists, and cursors into a byte list.

    Every codec in the development reads a buffer through a position and writes by appending, so the
    round trips are stated in one shape: if the bytes at the cursor are `enc ++ rest`, the reader
    returns the value and a cursor at which the bytes are `rest`. The lemmas here are the moves of
    that game: what a cursor step does to the suffix, and that `leBytes`/`leVal` are inverse. -/

namespace Barnacle.Lib

abbrev Bytes := List UInt8

instance decidableMemBytes (b : Bytes) (bs : List Bytes) : Decidable (b ∈ bs) :=
  List.instDecidableMemOfLawfulBEq b bs

/-! ### Sizes of 64 bits -/

def add64 (a b : Nat) : Nat := (a + b) % 2 ^ 64

def sub64 (a b : Nat) : Nat := (a + (2 ^ 64 - b % 2 ^ 64)) % 2 ^ 64

theorem add64_of_lt {a b : Nat} (h : a + b < 2 ^ 64) : add64 a b = a + b := Nat.mod_eq_of_lt h

theorem sub64_of_le {a b : Nat} (ha : a < 2 ^ 64) (h : b ≤ a) : sub64 a b = a - b := by
  rw [sub64]
  omega

/-! ### Little-endian integers -/

/-- The number a little-endian byte string denotes. -/
def leVal : Bytes → Nat
  | [] => 0
  | b :: bs => b.toNat + 256 * leVal bs

/-- The low `w` bytes of `n`, least significant first. -/
def leBytes : Nat → Nat → Bytes
  | 0, _ => []
  | w + 1, n => UInt8.ofNat n :: leBytes w (n / 256)

@[simp] theorem length_leBytes : ∀ w n, (leBytes w n).length = w
  | 0, _ => rfl
  | w + 1, n => by simp [leBytes, length_leBytes w]

/-- Reading back `w` bytes recovers the number modulo `256 ^ w`. -/
theorem leVal_leBytes_mod : ∀ w n, leVal (leBytes w n) = n % 256 ^ w
  | 0, n => by simp [leBytes, leVal, Nat.mod_one]
  | w + 1, n => by
    have hsplit : n % 256 ^ (w + 1) = n % 256 + 256 * (n / 256 % 256 ^ w) := by
      rw [Nat.pow_succ', Nat.mod_mul]
    rw [leBytes, leVal, leVal_leBytes_mod w, UInt8.toNat_ofNat', hsplit]

theorem leVal_leBytes {w n : Nat} (h : n < 256 ^ w) : leVal (leBytes w n) = n := by
  rw [leVal_leBytes_mod, Nat.mod_eq_of_lt h]

/-- A byte string is the digits of its number. -/
theorem leBytes_leVal : ∀ bs : Bytes, leBytes bs.length (leVal bs) = bs
  | [] => rfl
  | b :: bs => by
    have hb := b.toNat_lt
    have hlow : UInt8.ofNat (b.toNat + 256 * leVal bs) = b := by
      rw [← UInt8.toNat_inj, UInt8.toNat_ofNat']
      omega
    have hhigh : (b.toNat + 256 * leVal bs) / 256 = leVal bs := by omega
    rw [List.length_cons, leVal, leBytes, hlow, hhigh, leBytes_leVal bs]

theorem leVal_lt : ∀ bs : Bytes, leVal bs < 256 ^ bs.length
  | [] => by simp [leVal]
  | b :: bs => by
    have hb := b.toNat_lt
    have ih := leVal_lt bs
    rw [leVal, List.length_cons, Nat.pow_succ']
    omega

/-! ### Cursors -/

/-- The byte under the cursor, when the suffix there is known. -/
theorem getElem?_of_drop {d rest : Bytes} {pos : Nat} {b : UInt8} (h : d.drop pos = b :: rest) :
    d[pos]? = some b := by
  have h0 : (d.drop pos)[0]? = some b := by rw [h]; rfl
  simpa using h0

theorem getD_of_drop {d rest : Bytes} {pos : Nat} {b : UInt8} (h : d.drop pos = b :: rest) :
    d.getD pos 0 = b := by
  rw [List.getD_eq_getElem?_getD, getElem?_of_drop h]; rfl

/-- Moving the cursor over what was read leaves it in front of the rest. -/
theorem drop_of_drop_append {d x rest : Bytes} {pos : Nat} (h : d.drop pos = x ++ rest) :
    d.drop (pos + x.length) = rest := by
  rw [← List.drop_drop, h, List.drop_left]

theorem take_of_drop_append {d xs rest : Bytes} {pos : Nat} (h : d.drop pos = xs ++ rest) :
    (d.drop pos).take xs.length = xs := by
  rw [h, List.take_left]

/-- What was read lies inside the buffer. -/
theorem le_length_of_drop_append {d xs rest : Bytes} {pos : Nat} (h : d.drop pos = xs ++ rest)
    (hx : xs ≠ []) : pos + xs.length ≤ d.length := by
  have hlen := congrArg List.length h
  have hpos := List.length_pos_of_ne_nil hx
  rw [List.length_drop, List.length_append] at hlen
  omega

/-- The `w`-byte little-endian number at the cursor. -/
def leAt (d : Bytes) (pos w : Nat) : Nat := leVal ((d.drop pos).take w)

theorem leAt_of_drop {d rest : Bytes} {pos w n : Nat} (h : d.drop pos = leBytes w n ++ rest)
    (hn : n < 256 ^ w) : leAt d pos w = n := by
  have ht := take_of_drop_append h
  rw [length_leBytes] at ht
  rw [leAt, ht, leVal_leBytes hn]

theorem leAt_lt (d : Bytes) (pos w : Nat) : leAt d pos w < 256 ^ w := by
  refine lt_of_lt_of_le (leVal_lt _) (Nat.pow_le_pow_right (by omega) ?_)
  simp

end Barnacle.Lib
