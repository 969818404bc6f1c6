import Barnacle.Arena.Run

/-! The allocator as its caller reasons about it: which blocks the caller holds, each once, and what
    bytes a block it holds stores. -/

namespace Barnacle.Arena
open Barnacle.Lib

namespace World

/-- `put` and `alloc` with the pointer they return. -/
def put (w : World) (src : Bytes) : Option Nat × World := ((w.arena.put src).1, w.apply (.put src))

def alloc (w : World) (n : Nat) : Option Nat × World := ((w.arena.alloc n).1, w.apply (.alloc n))

def retire (w : World) (p : Nat) (now : UInt64) : World := w.apply (.retire p now)

def reclaim (w : World) (now : UInt64) : World := w.apply (.reclaim now)

/-- A request that is refused changes nothing, and any other adds one block to the live ones. -/
theorem alloc_grows (w : World) (n : Nat) :
    w.alloc n = (none, w) ∨ ∃ p, (w.alloc n).1 = some p ∧ (w.alloc n).2.live = p :: w.live := by
  have key : w.arena.alloc n = (none, w.arena) ∨ ∃ p a', w.arena.alloc n = (some p, a') := by
    unfold Arena.alloc
    split
    · exact .inl rfl
    · dsimp only
      split
      · exact .inl rfl
      · split
        · exact .inl rfl
        · exact .inr ⟨_, _, rfl⟩
  rcases key with e | ⟨p, a', e⟩
  · left
    rw [alloc, apply, e, grant]
  · right
    refine ⟨p, ?_, ?_⟩ <;> rw [alloc, apply, e]
    rfl

theorem put_grows (w : World) (src : Bytes) :
    w.put src = (none, w) ∨ ∃ p, (w.put src).1 = some p ∧ (w.put src).2.live = p :: w.live := by
  rcases w.alloc_grows src.length with e | ⟨p, e, -⟩
  · left
    have e1 : w.arena.alloc src.length = (none, w.arena) := by
      rw [alloc, apply] at e
      generalize w.arena.alloc src.length = r at e
      obtain ⟨_ | p, a⟩ := r
      · simp only [grant, Prod.mk.injEq] at e
        rw [← e.2]
      · cases e
    rw [put, apply, Arena.put, e1, grant]
  · right
    have e1 : (w.arena.put src).1 = some p := by
      rw [alloc] at e
      have e : (w.arena.alloc src.length).1 = some p := e
      rw [Arena.put]
      generalize w.arena.alloc src.length = r at e
      obtain ⟨_ | q, a⟩ := r
      · cases e
      · exact e
    refine ⟨p, by rw [put, e1], ?_⟩
    rw [put, apply, grant, e1]

/-! ### Bytes in a block -/

/-- The live block at `p` begins with these bytes. -/
structure Stores (w : World) (p : Nat) (bytes : Bytes) : Prop where
  live : p ∈ w.live
  room : bytes.length + (HDR + FTR) ≤ w.arena.size (p - HDR)
  read : w.arena.mem.read p bytes.length = bytes

end World

/-- The call names another block. -/
def Call.Avoids (p : Nat) : Call → Prop
  | .init .. => False
  | .fill q .. | .free q | .retire q _ => q ≠ p
  | .alloc _ | .put _ | .reclaim _ => True

instance (p : Nat) : (c : Call) → Decidable (c.Avoids p)
  | .init .. => .isFalse id
  | .fill q .. | .free q | .retire q _ => inferInstanceAs (Decidable (q ≠ p))
  | .alloc _ | .put _ | .reclaim _ => .isTrue trivial

namespace World
variable {w w' : World} {l : List Nat} {bs : List Block} {fl rl : List Nat}

/-- A block keeps its bytes through every call that names another. -/
theorem Stores.step {p : Nat} {bytes : Bytes} {c : Call} (h : w.Stores p bytes)
    (hv : w.Valid bs fl rl) (hc : c.Avoids p) (hs : w.step c = some w') : w'.Stores p bytes := by
  obtain ⟨b, hb, hf, hbr, rfl⟩ := hv.block h.live
  obtain ⟨bs', fl', rl', hv', hk⟩ := valid_step hv hs
  have hsp : c.Spares w.arena rl b := by
    cases c with
    | init => exact hc.elim
    | alloc | put => trivial
    | fill | free | retire => exact hc
    | reclaim => exact fun hm => absurd hm hbr
  obtain ⟨hb', hr', hm⟩ := hk b hb hf hsp
  have hroom := h.room
  rw [Nat.add_sub_cancel, hv.heap.size_eq hb] at hroom
  refine ⟨(hv'.live _).mpr ⟨b, hb', hf, fun hm => hbr (hr'.mp hm), rfl⟩, ?_, ?_⟩
  · rw [Nat.add_sub_cancel, hv'.heap.size_eq hb']
    exact hroom
  · simp only [HDR, FTR] at hroom
    refine (Mem.read_congr fun i h1 h2 => hm i ?_ ?_ fun hm => absurd hm hbr).trans h.read
    · omega
    · simp only [HDR, Block.stop] at *
      omega

section Keeps
variable {p : Nat} {bytes : Bytes}

theorem Stores.put (h : w.Stores p bytes) (hv : ∃ bs fl rl, w.Valid bs fl rl) {src : Bytes}
    (hlen : src.length < 2 ^ 63) : (w.put src).2.Stores p bytes := by
  obtain ⟨bs, fl, rl, hv⟩ := hv
  exact h.step (c := .put src) hv trivial (if_pos hlen)

theorem Stores.alloc (h : w.Stores p bytes) (hv : ∃ bs fl rl, w.Valid bs fl rl) {n : Nat}
    (hn : n < 2 ^ 63) : (w.alloc n).2.Stores p bytes := by
  obtain ⟨bs, fl, rl, hv⟩ := hv
  exact h.step (c := .alloc n) hv trivial (if_pos hn)

theorem Stores.retire (h : w.Stores p bytes) (hv : ∃ bs fl rl, w.Valid bs fl rl) {q : Nat}
    (hq : q ∈ w.live) (hne : q ≠ p) (now : UInt64) : (w.retire q now).Stores p bytes := by
  obtain ⟨bs, fl, rl, hv⟩ := hv
  exact h.step (c := .retire q now) hv hne (if_pos (Or.inr hq))

theorem Stores.reclaim (h : w.Stores p bytes) (hv : ∃ bs fl rl, w.Valid bs fl rl) (now : UInt64) :
    (w.reclaim now).Stores p bytes := by
  obtain ⟨bs, fl, rl, hv⟩ := hv
  exact h.step (c := .reclaim now) hv trivial (if_pos trivial)

end Keeps

/-- What is copied into a block leaves its header alone. -/
theorem size_write (a : Arena) {p : Nat} (hp : HDR ≤ p) (src : Bytes) :
    Arena.size { a with mem := a.mem.write p src } (p - HDR) = a.size (p - HDR) :=
  Mem.get_congr fun i h1 h2 => Mem.write_out _ (by simp only [HDR] at *; omega)

/-- What `put` and `alloc` have in common: a block comes into use that was not live before. -/
theorem granted (h : w.Valid bs fl rl) {n p : Nat} {a' : Arena}
    (ha : Allocates w.arena bs (wantOf n) p a') (hn : n < 2 ^ 63) :
    p ∉ w.live ∧ p ≠ 0 ∧ n + (HDR + FTR) ≤ a'.size (p - HDR) ∧ HDR ≤ p := by
  obtain ⟨⟨pre, b, post, c, post', fl', rfl, hbf, hh, hcf, hco, rfl, hw, -, -⟩, -, -, -⟩ := ha
  refine ⟨fun hp => ?_, by simp [HDR], ?_, by simp [HDR]⟩
  · obtain ⟨x, hx, hxf, -, e⟩ := h.block hp
    have e : x.off = b.off := by simp only [HDR] at e; omega
    rw [h.heap.tiles.off_inj hx (by simp) e, hbf] at hxf
    exact Bool.noConfusion hxf
  · rw [Nat.add_sub_cancel, hh.size_eq (b := c) (by simp)]
    have := le_wantOf hn
    omega

theorem put_spec (h : w.Valid bs fl rl) {src : Bytes} (hlen : src.length < 2 ^ 63) :
    w.put src = (none, w) ∨ ∃ p, (w.put src).1 = some p ∧ p ∉ w.live ∧ p ≠ 0 ∧
      (w.put src).2.live = p :: w.live ∧ (w.put src).2.Stores p src := by
  rcases alloc_spec h.heap src.length with e | ⟨p, a', e, ha⟩
  · left
    rw [put, apply, Arena.put, e, grant]
  · right
    obtain ⟨hp, h0, hroom, hle⟩ := granted h ha hlen
    have e1 : w.arena.put src = (some p, { a' with mem := a'.mem.write p src }) := by
      rw [Arena.put, e]
    have e2 : w.put src = (some p, ⟨{ a' with mem := a'.mem.write p src }, p :: w.live,
        w.retired.filter (· ≠ p)⟩) := by
      rw [put, apply, e1, grant]
    rw [e2]
    refine ⟨p, rfl, hp, h0, rfl, List.mem_cons_self, ?_, Mem.read_write ..⟩
    rw [size_write a' hle src]
    exact hroom

theorem alloc_grants (h : w.Valid bs fl rl) {n : Nat} (hn : n < 2 ^ 63) :
    w.alloc n = (none, w) ∨ ∃ p, (w.alloc n).1 = some p ∧ p ∉ w.live ∧ p ≠ 0 ∧
      (w.alloc n).2.live = p :: w.live := by
  rcases alloc_spec h.heap n with e | ⟨p, a', e, ha⟩
  · left
    rw [alloc, apply, e, grant]
  · right
    obtain ⟨hp, h0, -, -⟩ := granted h ha hn
    have e2 : w.alloc n = (some p, ⟨a', p :: w.live, w.retired.filter (· ≠ p)⟩) := by
      rw [alloc, apply, e, grant]
    rw [e2]
    exact ⟨p, rfl, hp, h0, rfl⟩

/-! ### Blocks held -/

/-- The blocks `l` are in use and not retired, each listed once, and no others are. -/
structure Owns (w : World) (l : List Nat) : Prop where
  valid : ∃ bs fl rl, w.Valid bs fl rl
  nodup : w.live.Nodup
  perm : w.live.Perm l

namespace Owns

theorem congr {l' : List Nat} (h : w.Owns l) (hp : l.Perm l') : w.Owns l' :=
  ⟨h.valid, h.nodup, h.perm.trans hp⟩

theorem list_nodup (h : w.Owns l) : l.Nodup := h.perm.nodup_iff.mp h.nodup

/-- Every block in use is held or on the retire list, and that exactly once. -/
theorem accounts (h : w.Owns l) : ∃ bs fl rl, w.Valid bs fl rl ∧
    ∀ b ∈ bs, b.free = false → l.count (b.off + HDR) + rl.count b.off = 1 := by
  obtain ⟨bs, fl, rl, hv⟩ := h.valid
  refine ⟨bs, fl, rl, hv, fun b hb hf => ?_⟩
  have hmem : b.off + HDR ∈ l ↔ b.off ∉ rl := by
    rw [← h.perm.mem_iff, hv.live]
    constructor
    · rintro ⟨x, -, -, hx, e⟩
      have e : b.off = x.off := by simpa [HDR] using e
      exact e ▸ hx
    · exact fun hr => ⟨b, hb, hf, hr, rfl⟩
  by_cases hr : b.off ∈ rl
  · rw [List.count_eq_zero.mpr fun hm => hmem.mp hm hr, List.count_eq_one_of_mem hv.list.nodup hr]
  · rw [List.count_eq_one_of_mem h.list_nodup (hmem.mpr hr), List.count_eq_zero.mpr hr]

theorem put (h : w.Owns l) {src : Bytes} (hlen : src.length < 2 ^ 63) :
    w.put src = (none, w) ∨ ∃ p, (w.put src).1 = some p ∧ p ≠ 0 ∧
      (w.put src).2.Owns (p :: l) ∧ (w.put src).2.Stores p src := by
  obtain ⟨bs, fl, rl, hv⟩ := h.valid
  refine (put_spec hv hlen).imp_right ?_
  rintro ⟨p, e, hp, h0, hl, hst⟩
  obtain ⟨bs', fl', rl', hv', -⟩ := valid_step (c := .put src) hv (if_pos hlen)
  refine ⟨p, e, h0, ⟨⟨bs', fl', rl', hv'⟩, ?_, ?_⟩, hst⟩
  · rw [hl]; exact List.nodup_cons.mpr ⟨hp, h.nodup⟩
  · rw [hl]; exact h.perm.cons p

theorem alloc (h : w.Owns l) {n : Nat} (hn : n < 2 ^ 63) :
    w.alloc n = (none, w) ∨ ∃ p, (w.alloc n).1 = some p ∧ p ≠ 0 ∧ (w.alloc n).2.Owns (p :: l) := by
  obtain ⟨bs, fl, rl, hv⟩ := h.valid
  refine (alloc_grants hv hn).imp_right ?_
  rintro ⟨p, e, hp, h0, hl⟩
  obtain ⟨bs', fl', rl', hv', -⟩ := valid_step (c := .alloc n) hv (if_pos hn)
  refine ⟨p, e, h0, ⟨bs', fl', rl', hv'⟩, ?_, ?_⟩
  · rw [hl]; exact List.nodup_cons.mpr ⟨hp, h.nodup⟩
  · rw [hl]; exact h.perm.cons p

/-- A retired block is held no longer. -/
theorem retire {p : Nat} (h : w.Owns (p :: l)) (now : UInt64) : (w.retire p now).Owns l := by
  obtain ⟨bs, fl, rl, hv⟩ := h.valid
  have hp : p ∈ w.live := h.perm.mem_iff.mpr List.mem_cons_self
  obtain ⟨bs', fl', rl', hv', -⟩ := valid_step (c := .retire p now) hv (if_pos (Or.inr hp))
  refine ⟨⟨bs', fl', rl', hv'⟩, h.nodup.filter _, (h.perm.filter _).trans ?_⟩
  have hnot : p ∉ l := (List.nodup_cons.mp h.list_nodup).1
  rw [List.filter_cons_of_neg (by simp), List.filter_eq_self.mpr fun q hq => by
    simpa using fun e : q = p => hnot (e ▸ hq)]

theorem reclaim (h : w.Owns l) (now : UInt64) : (w.reclaim now).Owns l := by
  obtain ⟨bs, fl, rl, hv⟩ := h.valid
  obtain ⟨bs', fl', rl', hv', -⟩ := valid_step (c := .reclaim now) hv (if_pos trivial)
  exact ⟨⟨bs', fl', rl', hv'⟩, h.nodup, h.perm⟩

end Owns

end World

end Barnacle.Arena
