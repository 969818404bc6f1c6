import Barnacle.Lib.Bytes

/-! A byte-addressed memory with little-endian words: reading back what was written, and the frame
    rule that a write outside a range leaves the range alone. Addresses are natural numbers; the
    programs over it prove that they stay inside their region. -/

namespace Barnacle.Lib

/-- A memory: one byte per address. -/
def Mem := Nat → UInt8

namespace Mem

/-- The `n` bytes from `a`. -/
def read (m : Mem) : Nat → Nat → Bytes
  | _, 0 => []
  | a, n + 1 => m a :: read m (a + 1) n

/-- Copy `bs` to `a`. -/
def write (m : Mem) (a : Nat) (bs : Bytes) : Mem :=
  fun i => if a ≤ i ∧ i < a + bs.length then bs.getD (i - a) 0 else m i

/-- The `w`-byte word at `a`. -/
def get (m : Mem) (a w : Nat) : Nat := leVal (m.read a w)

/-- Store the low `w` bytes of `v` at `a`. -/
def put (m : Mem) (a w v : Nat) : Mem := m.write a (leBytes w v)

@[simp] theorem length_read (m : Mem) : ∀ a n, (m.read a n).length = n
  | _, 0 => rfl
  | a, n + 1 => by simp [read, length_read m (a + 1) n]

theorem read_congr {m m' : Mem} : ∀ {a n : Nat}, (∀ i, a ≤ i → i < a + n → m' i = m i) →
    m'.read a n = m.read a n
  | _, 0, _ => rfl
  | a, n + 1, h => by
    rw [read, read, h a (by omega) (by omega),
      read_congr (a := a + 1) (fun i h1 h2 => h i (by omega) (by omega))]

theorem read_get (m : Mem) : ∀ {a n i : Nat}, i < n → (m.read a n)[i]? = some (m (a + i))
  | _, 0, _, h => absurd h (Nat.not_lt_zero _)
  | a, n + 1, 0, _ => rfl
  | a, n + 1, i + 1, h => by
    rw [read, List.getElem?_cons_succ, read_get m (Nat.lt_of_succ_lt_succ h), Nat.add_right_comm]
    rfl

theorem read_add (m : Mem) (n k : Nat) : ∀ a, m.read a (n + k) = m.read a n ++ m.read (a + n) k := by
  induction n with
  | zero =>
    intro a
    rw [Nat.zero_add]
    rfl
  | succ n ih =>
    intro a
    rw [Nat.add_right_comm, read, ih, read, Nat.add_assoc a 1 n, Nat.add_comm 1 n]
    rfl

theorem get_congr {m m' : Mem} {a w : Nat} (h : ∀ i, a ≤ i → i < a + w → m' i = m i) :
    m'.get a w = m.get a w := by
  rw [get, get, read_congr h]

theorem get_lt (m : Mem) (a w : Nat) : m.get a w < 256 ^ w := by
  have := leVal_lt (m.read a w)
  rwa [length_read] at this

theorem write_out (m : Mem) {a i : Nat} {bs : Bytes} (h : i < a ∨ a + bs.length ≤ i) :
    m.write a bs i = m i := by
  rw [write, if_neg (by omega)]

theorem write_nil (m : Mem) (a : Nat) : m.write a [] = m :=
  funext fun i => write_out m (by simp only [List.length_nil]; omega)

theorem put_out (m : Mem) {a w v i : Nat} (h : i < a ∨ a + w ≤ i) : m.put a w v i = m i :=
  write_out m (by rwa [length_leBytes])

theorem read_write (m : Mem) (bs : Bytes) (a : Nat) : (m.write a bs).read a bs.length = bs := by
  have key : ∀ n k, n + k = bs.length → (m.write a bs).read (a + k) n = bs.drop k := by
    intro n
    induction n with
    | zero => intro k hk; rw [read, List.drop_of_length_le (by omega)]
    | succ n ih =>
      intro k hk
      have hlt : k < bs.length := by omega
      rw [read, Nat.add_assoc, ih (k + 1) (by omega), write, if_pos (by omega),
        Nat.add_sub_cancel_left, List.getD_eq_getElem?_getD, List.getElem?_eq_getElem hlt,
        Option.getD_some, List.drop_eq_getElem_cons hlt]
  simpa using key bs.length 0 (by omega)

theorem get_put_mod (m : Mem) (a w v : Nat) : (m.put a w v).get a w = v % 256 ^ w := by
  have h := read_write m (leBytes w v) a
  rw [length_leBytes] at h
  rw [get, put, h, leVal_leBytes_mod]

theorem get_put (m : Mem) {a w v : Nat} (h : v < 256 ^ w) : (m.put a w v).get a w = v := by
  rw [get_put_mod, Nat.mod_eq_of_lt h]

/-- Frame rule for words. -/
theorem get_put_of_disjoint (m : Mem) {a w b w' v : Nat} (h : a + w ≤ b ∨ b + w' ≤ a) :
    (m.put b w' v).get a w = m.get a w :=
  get_congr fun _ _ _ => put_out m (by omega)

end Mem

end Barnacle.Lib
