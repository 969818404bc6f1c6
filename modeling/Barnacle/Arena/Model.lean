import Barnacle.Lib.Mem

/-! The shared heap (`src/daemon/arena.cpp`) over a byte range.

    A block is a 16-byte header, a payload and a 4-byte footer that repeats the size:

        off        +4     +8     +12    +16                      +size-4
        │ size │ free │ next │ prev │ payload …                 │ size │

    Free blocks are linked through `next`/`prev`; freeing merges with both neighbours. A retired
    block keeps its place in the heap until its grace period is over, with the time of retirement
    and the link of the retire list written over the first twelve bytes of its own payload.

    Addresses are offsets from the base, so the null pointer is `0` and a pointer handed out is
    `off + HDR`. The heap's part of the control block is kept as fields; the blocks live in `mem`.
    32-bit and 64-bit unsigned arithmetic is explicit where the source computes in those types. -/

namespace Barnacle
open Barnacle.Lib

namespace Arena

def HDR : Nat := 16
def FTR : Nat := 4
def MIN_BLOCK : Nat := 24
def NIL : Nat := 0
def BNCL_CTL_BYTES : Nat := 64
def RETIRE_GRACE_NS : Nat := 5 * 1000 * 1000 * 1000
/-- `sizeof(Retired)`. -/
def RETIRED_BYTES : Nat := 16

def add32 (a b : Nat) : Nat := (a + b) % 2 ^ 32
def sub32 (a b : Nat) : Nat := (a + 2 ^ 32 - b % 2 ^ 32) % 2 ^ 32

/-- `(n + 7) & ~7` in `size_t`. -/
def align8 (n : Nat) : Nat := add64 n 7 / 8 * 8

end Arena

/-- The arena as the allocator sees it. `ok` is `base != nullptr`. -/
structure Arena where
  ok : Bool := false
  cap : Nat := 0
  mem : Mem := fun _ => 0
  heap : Nat := 0
  heap_end : Nat := 0
  free_head : Nat := 0
  retire_head : Nat := 0
  used : Nat := 0

namespace Arena

/-! ### Block fields -/

def size (a : Arena) (off : Nat) : Nat := a.mem.get off 4
def isFree (a : Arena) (off : Nat) : Nat := a.mem.get (off + 4) 4
def next (a : Arena) (off : Nat) : Nat := a.mem.get (off + 8) 4
def prev (a : Arena) (off : Nat) : Nat := a.mem.get (off + 12) 4

def setSize (a : Arena) (off v : Nat) : Arena := { a with mem := a.mem.put off 4 v }
def setFree (a : Arena) (off v : Nat) : Arena := { a with mem := a.mem.put (off + 4) 4 v }
def setNext (a : Arena) (off v : Nat) : Arena := { a with mem := a.mem.put (off + 8) 4 v }
def setPrev (a : Arena) (off v : Nat) : Arena := { a with mem := a.mem.put (off + 12) 4 v }

/-- `FOOT(off)->size = BLK(off)->size`. -/
def setFoot (a : Arena) (off : Nat) : Arena :=
  { a with mem := a.mem.put (off + a.size off - FTR) 4 (a.size off) }

/-- `b->size - HDR - FTR`, what a block adds to `used`. -/
def payload (a : Arena) (off : Nat) : Nat := sub64 (a.size off) (HDR + FTR)

/-! ### Laying the heap out -/

/-- One free block covering everything past the control area; `none` for a null `mem`. -/
def init (a : Arena) (mem : Option Mem) (len : Nat) : Bool × Arena :=
  match mem with
  | none => (false, a)
  | some mem =>
    if len ≤ BNCL_CTL_BYTES + MIN_BLOCK then (false, a)
    else
      let start := BNCL_CTL_BYTES
      let size := (len - BNCL_CTL_BYTES) % 2 ^ 32
      let a : Arena := { ok := true, cap := len, mem := mem, heap := start,
                         heap_end := add32 start size, free_head := start, retire_head := 0,
                         used := 0 }
      let a := (((a.setSize start size).setFree start 1).setNext start 0).setPrev start 0
      (true, a.setFoot start)

/-! ### The free list -/

/-- Take a block out of the free list. -/
def unlink (a : Arena) (off : Nat) : Arena :=
  let a := if a.prev off ≠ NIL then a.setNext (a.prev off) (a.next off)
           else { a with free_head := a.next off }
  if a.next off ≠ NIL then a.setPrev (a.next off) (a.prev off) else a

/-- Mark a block free and put it at the front of the free list. -/
def linkFront (a : Arena) (off : Nat) : Arena :=
  let a := ((a.setFree off 1).setPrev off NIL).setNext off a.free_head
  let a := if a.free_head ≠ NIL then a.setPrev a.free_head off else a
  { a with free_head := off }

/-- First fit, from `off` along the free list. -/
def fit (a : Arena) (want : Nat) : Nat → Nat → Option Nat
  | 0, _ => none
  | fuel + 1, off =>
    if off = NIL then none
    else if a.size off < want then fit a want fuel (a.next off)
    else some off

/-- Cut `want` bytes off the front of a block; the rest becomes a free block of its own. -/
def split (a : Arena) (off want : Nat) : Arena :=
  let rest := add32 off want
  let a := a.setSize rest (sub32 (a.size off) want)
  let a := (a.linkFront rest).setFoot rest
  (a.setSize off want).setFoot off

/-- The block size a request of `n` bytes is rounded to. -/
def wantOf (n : Nat) : Nat :=
  let want := align8 (add64 (align8 n) (HDR + FTR))
  if want < MIN_BLOCK then MIN_BLOCK else want

/-- Allocate `n` bytes: the payload's offset, or `none` if nothing fits. The list can be no longer
    than the heap has bytes, which is the fuel of the walk. -/
def alloc (a : Arena) (n : Nat) : Option Nat × Arena :=
  if !a.ok ∨ n = 0 then (none, a)
  else
    let want := wantOf n
    if want > a.cap then (none, a)
    else
      match a.fit want a.cap a.free_head with
      | none => (none, a)
      | some off =>
        let a := a.unlink off
        let a := if a.size off - want ≥ MIN_BLOCK then a.split off want else a
        let a := a.setFree off 0
        (some (off + HDR), { a with used := add64 a.used (a.payload off) })

/-- Copy a blob in. -/
def put (a : Arena) (src : Bytes) : Option Nat × Arena :=
  match a.alloc src.length with
  | (none, a) => (none, a)
  | (some p, a) => (some p, { a with mem := a.mem.write p src })

/-! ### Freeing -/

/-- Coalesce forward with the block that starts where this one ends. -/
def mergeNext (a : Arena) (off : Nat) : Arena :=
  let after := add32 off (a.size off)
  if after < a.heap_end ∧ a.isFree after ≠ 0 then
    let a := a.unlink after
    a.setSize off (add32 (a.size off) (a.size after))
  else a

/-- Coalesce backward, through the footer just before `off`. Returns where the block now begins. -/
def mergePrev (a : Arena) (off : Nat) : Arena × Nat :=
  if off > a.heap then
    let prev_off := sub32 off (a.mem.get (off - FTR) 4)
    if prev_off ≥ a.heap ∧ a.isFree prev_off ≠ 0 then
      let a := a.unlink prev_off
      (a.setSize prev_off (add32 (a.size prev_off) (a.size off)), prev_off)
    else (a, off)
  else (a, off)

def free (a : Arena) (p : Nat) : Arena :=
  if !a.ok ∨ p = 0 then a
  else
    let off := sub32 p HDR
    if a.isFree off ≠ 0 then a
    else
      let a := { a with used := sub64 a.used (a.payload off) }
      let a := a.mergeNext off
      let r := a.mergePrev off
      (r.1.linkFront r.2).setFoot r.2

/-! ### Retirement -/

def retiredAt (a : Arena) (off : Nat) : Nat := a.mem.get (off + HDR) 8
def retiredNext (a : Arena) (off : Nat) : Nat := a.mem.get (off + HDR + 8) 4

def setRetiredAt (a : Arena) (off v : Nat) : Arena := { a with mem := a.mem.put (off + HDR) 8 v }
def setRetiredNext (a : Arena) (off v : Nat) : Arena :=
  { a with mem := a.mem.put (off + HDR + 8) 4 v }

/-- Give a block back once it is safe to. A block too small for the record is freed at once. -/
def retire (a : Arena) (p now : Nat) : Arena :=
  if !a.ok ∨ p = 0 then a
  else
    let off := sub32 p HDR
    if a.isFree off ≠ 0 then a
    else if a.size off < HDR + RETIRED_BYTES + FTR then a.free p
    else { (a.setRetiredAt off now).setRetiredNext off a.retire_head with retire_head := off }

/-- Has the grace period of a block retired at `at` elapsed? -/
def due (now at_ : Nat) : Bool := now ≥ at_ && now - at_ ≥ RETIRE_GRACE_NS

/-- Walk the retire list once, freeing what is due and rebuilding the list of the rest. -/
def reclaimLoop (now : Nat) : Nat → Arena → Nat → Nat → Arena × Nat
  | 0, a, _, keep => (a, keep)
  | fuel + 1, a, off, keep =>
    if off = NIL then (a, keep)
    else
      let nxt := a.retiredNext off
      if due now (a.retiredAt off) then reclaimLoop now fuel (a.free (off + HDR)) nxt keep
      else reclaimLoop now fuel (a.setRetiredNext off keep) nxt off

def reclaim (a : Arena) (now : Nat) : Arena :=
  if !a.ok then a
  else
    let r := reclaimLoop now a.cap { a with retire_head := NIL } a.retire_head NIL
    { r.1 with retire_head := r.2 }

end Arena

end Barnacle
