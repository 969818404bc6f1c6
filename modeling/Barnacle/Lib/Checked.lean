import Mathlib.Data.List.GetD
import Barnacle.Lib.Bytes

/-! Buffers read through unchecked indices. A program that reads bytes outside its buffer has no meaning,
    so here the outcome is made explicit: a `Checked` computation ends in a `Trap`, or refuses its input,
    or gives a value. Running out of rounds is a trap as well, so a program shown never to trap has been
    shown to stay inside its buffer and to terminate.

    Sizes and cursors are 64-bit and wrap. No object is larger than half the address space; that is what
    `Buffer` carries, and why a cursor that has passed the end by a little has not come round to zero. -/

namespace Barnacle.Lib

variable {α β : Type}

inductive Trap where | outside | unfinished
  deriving DecidableEq, Repr

/-- A trap, a refusal (`none`) or a value. -/
def Checked (α : Type) : Type := Except Trap (Option α)

namespace Checked

/-- No trap: refuse or give. -/
def give (o : Option α) : Checked α := .ok o

def refuse : Checked α := give none

def trap (t : Trap) : Checked α := .error t

/-- Whether the computation gives a value, without refusing along with it. -/
def attempt : Checked α → Checked (Option α)
  | .error t => .error t
  | .ok o => .ok (some o)

instance : Monad Checked where
  pure a := give (some a)
  bind x f :=
    match x with
    | .error t => .error t
    | .ok none => .ok none
    | .ok (some a) => f a

@[simp] theorem give_some_bind (a : α) (f : α → Checked β) : (give (some a) >>= f) = f a := rfl

@[simp] theorem give_none_bind (f : α → Checked β) : (give none >>= f) = give none := rfl

@[simp] theorem attempt_give (o : Option α) : attempt (give o) = give (some o) := rfl

@[simp] theorem pure_eq (a : α) : (pure a : Checked α) = give (some a) := rfl

/-- A program follows a function where its steps do. -/
theorem give_bind_eq {o : Option α} {f : α → Checked β} {g : α → Option β}
    (h : ∀ a, o = some a → f a = give (g a)) : (give o >>= f) = give (o.bind g) := by
  cases o with
  | none => rfl
  | some a => exact h a rfl

/-- A test that refuses. -/
theorem guard_eq {c c' : Prop} [Decidable c] [Decidable c'] {x : Checked α} {o : Option α} (hc : c ↔ c')
    (h : ¬ c' → x = give o) : (if c then refuse else x) = give (if c' then none else o) := by
  by_cases hc' : c'
  · rw [if_pos (hc.mpr hc'), if_pos hc']
    rfl
  · rw [if_neg (fun h => hc' (hc.mp h)), if_neg hc']
    exact h hc'

end Checked

open Checked

/-! ### Bytes -/

def byteAt (d : Bytes) (i : Nat) : Checked UInt8 :=
  match d[i]? with
  | some b => give (some b)
  | none => trap .outside

/-- The bytes of a range, copied. -/
def span (d : Bytes) (i n : Nat) : Checked Bytes :=
  if i + n ≤ d.length then give (some ((d.drop i).take n)) else trap .outside

/-- A little-endian number, read byte by byte. -/
def leRead (d : Bytes) : Nat → Nat → Checked Nat
  | _, 0 => give (some 0)
  | pos, w + 1 => do
    let b ← byteAt d pos
    let n ← leRead d (pos + 1) w
    give (some (b.toNat + 256 * n))

/-- A byte is overwritten. -/
def put (d : Bytes) (i : Nat) (b : UInt8) : Checked Bytes :=
  if i < d.length then give (some (d.set i b)) else trap .outside

theorem byteAt_of_getElem? {d : Bytes} {i : Nat} {b : UInt8} (h : d[i]? = some b) :
    byteAt d i = give (some b) := by
  rw [byteAt, h]

theorem byteAt_of_lt {d : Bytes} {i : Nat} (h : i < d.length) : byteAt d i = give (some (d.getD i 0)) :=
  byteAt_of_getElem? (by rw [List.getElem?_eq_getElem h, List.getD_eq_getElem _ _ h])

theorem span_of_le {d : Bytes} {i n : Nat} (h : i + n ≤ d.length) :
    span d i n = give (some ((d.drop i).take n)) := if_pos h

theorem put_of_lt {d : Bytes} {i : Nat} (h : i < d.length) (b : UInt8) : put d i b = give (some (d.set i b)) :=
  if_pos h

theorem leRead_of_le {d : Bytes} (w : Nat) : ∀ {pos : Nat}, pos + w ≤ d.length →
    leRead d pos w = give (some (leAt d pos w)) := by
  induction w with
  | zero =>
    intro pos _
    rw [leRead, leAt, List.take_zero]
    rfl
  | succ w ih =>
    intro pos h
    have hdrop : d.drop pos = d.getD pos 0 :: d.drop (pos + 1) := by
      rw [List.getD_eq_getElem _ _ (by omega), List.drop_eq_getElem_cons (by omega)]
    rw [leRead, byteAt_of_lt (by omega), ih (by omega), leAt, leAt, hdrop, List.take_succ_cons]
    rfl

/-! ### Cursors -/

/-- Bytes that an object can hold. -/
structure Buffer where
  bytes : Bytes
  fits : bytes.length < 2 ^ 63

/-- A string view: where it starts in the buffer, and its length. -/
structure View where
  off : Nat
  size : Nat
  deriving DecidableEq, Repr

def View.bytes (v : View) (d : Bytes) : Bytes := (d.drop v.off).take v.size

/-- The view lies inside the buffer. -/
def View.Inside (v : View) (d : Bytes) : Prop := v.off + v.size ≤ d.length

end Barnacle.Lib
