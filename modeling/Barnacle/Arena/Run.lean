import Barnacle.Lib.Transition
import Barnacle.Arena.Retire

/-! Whole runs of the allocator. The callers keep to the contract: a pointer is freed or retired only
    if `alloc` or `put` returned it and it has not been freed or retired since, and a caller writes
    only inside a payload it holds. What the callers hold and what they have retired is recorded
    beside the arena, from the calls and their results alone. -/

namespace Barnacle.Arena
open Barnacle.Lib

/-- The arena and the pointers its callers know of. -/
structure World where
  arena : Arena := {}
  live : List Nat := []
  retired : List Nat := []

/-- A call into the arena, or a write by the holder of a block into its payload. -/
inductive Call
  | init (mem : Option Mem) (len : Nat)
  | alloc (n : Nat)
  | put (src : Bytes)
  | fill (p i : Nat) (bytes : Bytes)
  | free (p : Nat)
  | retire (p : Nat) (now : UInt64)
  | reclaim (now : UInt64)

/-- The callers' side of the contract. A null pointer may be freed or retired. -/
def Call.Allowed (w : World) : Call → Prop
  | .init _ len => len < 2 ^ 32
  | .alloc n => n < 2 ^ 63
  | .put src => src.length < 2 ^ 63
  | .fill p i bytes => p ∈ w.live ∧ i + bytes.length ≤ w.arena.size (p - HDR) - (HDR + FTR)
  | .free p => p = 0 ∨ p ∈ w.live
  | .retire p _ => p = 0 ∨ p ∈ w.live
  | .reclaim _ => True

instance (w : World) : (c : Call) → Decidable (c.Allowed w)
  | .init .. => inferInstanceAs (Decidable (_ < _))
  | .alloc .. => inferInstanceAs (Decidable (_ < _))
  | .put .. => inferInstanceAs (Decidable (_ < _))
  | .fill .. => inferInstanceAs (Decidable (_ ∧ _))
  | .free .. => inferInstanceAs (Decidable (_ ∨ _))
  | .retire .. => inferInstanceAs (Decidable (_ ∨ _))
  | .reclaim .. => inferInstanceAs (Decidable True)

/-- `alloc` or `put` returned: a pointer that comes out is live, and no longer retired. -/
def World.grant (w : World) (r : Option Nat × Arena) : World :=
  match r.1 with
  | none => { w with arena := r.2 }
  | some p => { arena := r.2, live := p :: w.live, retired := w.retired.filter (· ≠ p) }

/-- What the call does. -/
def World.apply (w : World) : Call → World
  | .init mem len =>
    let r := w.arena.init mem len
    if r.1 then { arena := r.2 } else { w with arena := r.2 }
  | .alloc n => w.grant (w.arena.alloc n)
  | .put src => w.grant (w.arena.put src)
  | .fill p i bytes => { w with arena := { w.arena with mem := w.arena.mem.write (p + i) bytes } }
  | .free p => { w with arena := w.arena.free p, live := w.live.filter (· ≠ p) }
  | .retire p now =>
    { arena := w.arena.retire p now.toNat, live := w.live.filter (· ≠ p), retired := p :: w.retired }
  | .reclaim now => { w with arena := w.arena.reclaim now.toNat }

/-- One call, where the contract allows it. -/
def World.step (w : World) (c : Call) : Option World :=
  if c.Allowed w then some (w.apply c) else none

/-- The heap, the retire list, and the callers' pointers: `rl` lists exactly the retired blocks still
    in use, and the other blocks in use are exactly the live ones. -/
structure World.Valid (w : World) (bs : List Block) (fl rl : List Nat) : Prop where
  heap : Heap w.arena bs fl
  list : RetireList w.arena bs rl
  live : ∀ p, p ∈ w.live ↔ ∃ b ∈ bs, b.free = false ∧ b.off ∉ rl ∧ p = b.off + HDR
  retired : ∀ b ∈ bs, b.free = false → (b.off ∈ rl ↔ b.off + HDR ∈ w.retired)

/-- Before the first successful `init` there is no heap and nothing is live. -/
def World.Ok (w : World) : Prop :=
  (w.arena.ok = false ∧ w.live = []) ∨ ∃ bs fl rl, w.Valid bs fl rl

/-- A block in use that a call does not touch: it stays where it is, and so do its bytes, except that
    a retired block's link may be rewritten. -/
def Untouched (a a' : Arena) (bs' : List Block) (rl rl' : List Nat) (b : Block) : Prop :=
  b ∈ bs' ∧ (b.off ∈ rl' ↔ b.off ∈ rl) ∧
  ∀ i, b.off ≤ i → i < b.stop → (b.off ∈ rl → i < b.off + HDR + 8 ∨ b.off + HDR + 12 ≤ i) →
    a'.mem i = a.mem i

/-- The blocks a call has nothing to do with: all but its argument, and for `reclaim` all but the
    retired blocks that are due. -/
def Call.Spares (a : Arena) (rl : List Nat) (b : Block) : Call → Prop
  | .init .. => False
  | .alloc _ | .put _ => True
  | .fill p .. | .free p | .retire p _ => p ≠ b.off + HDR
  | .reclaim now => b.off ∈ rl → a.dueAt now.toNat b.off = false

/-! ### One lemma for each call -/

namespace World
variable {w : World} {bs : List Block} {fl rl : List Nat}

theorem valid_init (mem : Mem) {len : Nat} (h1 : BNCL_CTL_BYTES + MIN_BLOCK < len)
    (h2 : len < 2 ^ 32) :
    ∃ bs fl, Valid { arena := (w.arena.init (some mem) len).2 } bs fl [] := by
  simp only [BNCL_CTL_BYTES, MIN_BLOCK] at h1
  obtain ⟨s, rfl⟩ : ∃ s, len = 64 + s := ⟨len - 64, by omega⟩
  -- the five words `init` writes
  let m := (((mem.put 64 4 s).put (64 + 4) 4 1).put (64 + 8) 4 0).put (64 + 12) 4 0
  have hsz : m.get 64 4 = s := by
    rw [Mem.get_put_of_disjoint _ (by omega), Mem.get_put_of_disjoint _ (by omega),
      Mem.get_put_of_disjoint _ (by omega), Mem.get_put _ (by norm_num; omega)]
  have hfree : m.get (64 + 4) 4 = 1 := by
    rw [Mem.get_put_of_disjoint _ (by omega), Mem.get_put_of_disjoint _ (by omega),
      Mem.get_put _ (by norm_num)]
  have hnext : m.get (64 + 8) 4 = 0 := by
    rw [Mem.get_put_of_disjoint _ (by omega), Mem.get_put _ (by norm_num)]
  have hprev : m.get (64 + 12) 4 = 0 := Mem.get_put _ (by norm_num)
  obtain ⟨a', ha'⟩ : ∃ x : Arena, x =
      { ok := true, cap := 64 + s, mem := m.put (64 + s - FTR) 4 s, heap := 64, heap_end := 64 + s,
        free_head := 64, retire_head := 0, used := 0 } := ⟨_, rfl⟩
  have e : (w.arena.init (some mem) (64 + s)).2 = a' := by
    have h3 : (64 + s - 64) % 2 ^ 32 = s := by rw [Nat.add_sub_cancel_left, Nat.mod_eq_of_lt (by omega)]
    rw [init, if_neg (by simp only [BNCL_CTL_BYTES, MIN_BLOCK]; omega), ha']
    simp only [BNCL_CTL_BYTES, h3, add32_eq h2, setSize, setFree, setNext, setPrev, setFoot, size]
    rw [show ((((mem.put 64 4 s).put (64 + 4) 4 1).put (64 + 8) 4 0).put (64 + 12) 4 0).get 64 4 = s
      from hsz]
  have hm : a'.mem = m.put (64 + s - FTR) 4 s := by rw [ha']
  have hdis : ∀ p, p + 4 ≤ 64 + HDR → (m.put (64 + s - FTR) 4 s).get p 4 = m.get p 4 := fun p hp =>
    Mem.get_put_of_disjoint _ (by simp only [HDR, FTR] at *; omega)
  have hlinked : Linked a' [64] := by
    refine ⟨⟨?_, ?_, trivial⟩, by rw [ha']; rfl, by simp, by decide, fun x hx => ?_, fun x hx y hy =>
      Or.inl ((List.mem_singleton.mp hx).trans (List.mem_singleton.mp hy).symm)⟩
    · rw [prev, hm]
      exact (hdis _ (by simp [HDR])).trans hprev
    · rw [next, hm]
      exact (hdis _ (by simp [HDR])).trans hnext
    · rw [List.mem_singleton.mp hx]
      norm_num
  have hshape : Shape a'.mem ⟨64, s, true⟩ := by
    rw [hm]
    exact ⟨(hdis _ (by simp [HDR])).trans hsz, (hdis _ (by simp [HDR])).trans hfree,
      Mem.get_put _ (by norm_num; omega)⟩
  have hheap : Heap a' [⟨64, s, true⟩] [64] := by
    refine ⟨⟨by rw [ha'], by rw [ha', BNCL_CTL_BYTES], by rw [ha'], by rw [ha']; exact h2⟩, ?_,
      fun b hb => List.mem_singleton.mp hb ▸ hshape, .singleton _, hlinked, fun x => ?_,
      by rw [ha']; rfl⟩
    · rw [ha']
      exact ⟨rfl, by simp only [MIN_BLOCK]; omega, rfl⟩
    · simp only [List.mem_singleton]
      constructor
      · rintro rfl; exact ⟨_, rfl, rfl, rfl⟩
      · rintro ⟨b, rfl, -, rfl⟩; rfl
  rw [e]
  exact ⟨[⟨64, s, true⟩], [64], hheap, ⟨trivial, by rw [ha']; rfl, .nil, by simp⟩, by simp, by simp⟩

theorem init_ok {a : Arena} {mem : Option Mem} {len : Nat} (h : (a.init mem len).1 = true) :
    ∃ m, mem = some m ∧ BNCL_CTL_BYTES + MIN_BLOCK < len := by
  cases mem with
  | none => simp [init] at h
  | some m =>
    refine ⟨m, rfl, ?_⟩
    by_contra hlt
    simp [init, Nat.le_of_not_lt hlt] at h

theorem init_failed {a : Arena} {mem : Option Mem} {len : Nat} (h : (a.init mem len).1 = false) :
    (a.init mem len).2 = a := by
  cases mem with
  | none => rfl
  | some m =>
    by_cases hle : len ≤ BNCL_CTL_BYTES + MIN_BLOCK
    · simp [init, hle]
    · simp [init, hle] at h

theorem Valid.off_notMem (h : w.Valid bs fl rl) {b : Block} (hb : b ∈ bs) (hf : b.free = true) :
    b.off ∉ rl := fun hm => by
  obtain ⟨c, hc, e, hcf, -⟩ := h.list.room _ hm
  rw [h.heap.tiles.off_inj hc hb e, hf] at hcf
  exact Bool.noConfusion hcf

/-- A live pointer is the payload of a block in use that is not retired. -/
theorem Valid.block (h : w.Valid bs fl rl) {p : Nat} (hp : p ∈ w.live) :
    ∃ b ∈ bs, b.free = false ∧ b.off ∉ rl ∧ p = b.off + HDR := (h.live p).mp hp

/-- `alloc` and `put`: a block comes into use whose payload may be written. -/
theorem valid_grant (h : w.Valid bs fl rl) {want p : Nat} {a' a'' : Arena}
    (ha : Allocates w.arena bs want p a') (bytes : Bytes) (hlen : bytes.length + HDR + FTR ≤ want)
    (ha'' : a'' = { a' with mem := a'.mem.write p bytes }) :
    ∃ bs' fl', Valid ⟨a'', p :: w.live, w.retired.filter (· ≠ p)⟩ bs' fl' rl ∧
      ∀ b ∈ bs, b.free = false → Untouched w.arena a'' bs' rl rl b := by
  obtain ⟨⟨pre, b, post, c, post', fl', rfl, hbf, hh, hcf, hco, rfl, hw, -, hu⟩, hrh, -, hk⟩ := ha
  have hcm : c ∈ pre ++ c :: post' := by simp
  have hbd := hh.tiles.bounds c hcm
  simp only [HDR, FTR, MIN_BLOCK] at hlen hbd
  obtain ⟨h1, hm1⟩ := hh.write_payload hcm hcf (c.off + HDR) bytes
    (Nat.le_refl _) (by simp only [HDR, FTR, Block.stop]; omega) ha''
  have huse : ∀ x, x ∈ inUse (pre ++ c :: post') ↔ x = c ∨ x ∈ inUse (pre ++ b :: post) := fun x => by
    rw [inUse_append, inUse_cons_used _ hcf, inUse_append, inUse_cons_free _ hbf, hu]
    simp only [List.mem_append, List.mem_cons]
    exact or_left_comm
  have hbm : b ∈ pre ++ b :: post := by simp
  have hcrl : c.off ∉ rl := hco ▸ h.off_notMem hbm hbf
  have hne : ∀ x ∈ pre ++ b :: post, x.free = false → x.off ≠ c.off := fun x hx hxf e => by
    rw [h.heap.tiles.off_inj hx hbm (e.trans hco), hbf] at hxf
    exact Bool.noConfusion hxf
  -- blocks in use before are there afterwards, byte for byte
  have hold : ∀ x ∈ pre ++ b :: post, x.free = false → x ∈ pre ++ c :: post' ∧
      ∀ i, x.off ≤ i → i < x.stop → a''.mem i = w.arena.mem i := fun x hx hxf => by
    have hx' := (mem_inUse.mp ((huse x).mpr (Or.inr (mem_inUse.mpr ⟨hx, hxf⟩)))).1
    refine ⟨hx', fun i h3 h4 => (hm1 i ?_).trans (hk x hx hxf i h3 h4)⟩
    have := hh.inUse_apart hcm hx' (hne x hx hxf)
    simp only [HDR, Block.stop] at *
    omega
  refine ⟨_, _, ⟨h1, h.list.congr (fun x hx hxf _ => hold x hx hxf) ?_, fun q => ?_, fun x hx hxf => ?_⟩,
    fun x hx hxf => ⟨(hold x hx hxf).1, Iff.rfl, fun i h3 h4 _ => (hold x hx hxf).2 i h3 h4⟩⟩
  · rw [ha'']; exact hrh
  · rw [List.mem_cons, h.live]
    constructor
    · rintro (rfl | ⟨x, hx, hxf, hxr, rfl⟩)
      · exact ⟨c, hcm, hcf, hcrl, rfl⟩
      · exact ⟨x, (hold x hx hxf).1, hxf, hxr, rfl⟩
    · rintro ⟨x, hx, hxf, hxr, rfl⟩
      rcases (huse x).mp (mem_inUse.mpr ⟨hx, hxf⟩) with rfl | hx
      · exact Or.inl rfl
      · exact Or.inr ⟨x, (mem_inUse.mp hx).1, hxf, hxr, rfl⟩
  · rcases (huse x).mp (mem_inUse.mpr ⟨hx, hxf⟩) with rfl | hx
    · simp [hcrl]
    · have hx := (mem_inUse.mp hx).1
      rw [h.retired x hx hxf, List.mem_filter]
      have := hne x hx hxf
      simp only [HDR, decide_eq_true_eq, ne_eq, Nat.add_right_cancel_iff]
      tauto

theorem valid_fill (h : w.Valid bs fl rl) {p i : Nat} {bytes : Bytes} (hp : p ∈ w.live)
    (hlen : i + bytes.length ≤ w.arena.size (p - HDR) - (HDR + FTR)) {a' : Arena}
    (ha' : a' = { w.arena with mem := w.arena.mem.write (p + i) bytes }) :
    Valid { w with arena := a' } bs fl rl ∧
      ∀ b ∈ bs, b.free = false → p ≠ b.off + HDR → Untouched w.arena a' bs rl rl b := by
  obtain ⟨b, hb, hf, hbr, rfl⟩ := h.block hp
  rw [Nat.add_sub_cancel, h.heap.size_eq hb] at hlen
  have hbd := h.heap.tiles.bounds b hb
  simp only [HDR, FTR, MIN_BLOCK] at hlen hbd
  obtain ⟨h1, hm1⟩ := h.heap.write_payload hb hf (b.off + HDR + i) bytes
    (by omega) (by simp only [HDR, FTR, Block.stop]; omega) ha'
  have hold : ∀ x ∈ bs, x.off ≠ b.off → ∀ j, x.off ≤ j → j < x.stop →
      a'.mem j = w.arena.mem j := fun x hx hne j h3 h4 => by
    have := h.heap.inUse_apart hb hx hne
    refine hm1 j ?_
    simp only [HDR, Block.stop] at *
    omega
  refine ⟨⟨h1, h.list.congr (fun x hx _ hxr => ⟨hx, hold x hx fun e => hbr (e ▸ hxr)⟩) (by rw [ha']),
    h.live, h.retired⟩, fun x hx _ hne => ⟨hx, Iff.rfl, fun j h3 h4 _ =>
      hold x hx (fun e => hne (by rw [e])) j h3 h4⟩⟩

/-- `free` of a live block. The ghost list of retired pointers may name the block as well: that is
    how `retire` treats a block too small for its record. -/
theorem valid_free (h : w.Valid bs fl rl) {p : Nat} (hp : p ∈ w.live) (ret : List Nat)
    (hret : ∀ q, q ≠ p → (q ∈ ret ↔ q ∈ w.retired)) :
    ∃ bs' fl', Valid ⟨w.arena.free p, w.live.filter (· ≠ p), ret⟩ bs' fl' rl ∧
      ∀ b ∈ bs, b.free = false → p ≠ b.off + HDR →
        Untouched w.arena (w.arena.free p) bs' rl rl b := by
  obtain ⟨b, hb, hf, hbr, rfl⟩ := h.block hp
  obtain ⟨pre, post, rfl⟩ := List.append_of_mem hb
  obtain ⟨bs', fl', h1, hu, hrh, -, hk, -⟩ := free_spec h.heap hf
  have hu' := hu
  rw [inUse_erase h.heap] at hu
  have hmem : ∀ x, x ∈ bs' ∧ x.free = false ↔
      (x ∈ pre ++ b :: post ∧ x.free = false) ∧ x.off ≠ b.off := fun x => by
    rw [← mem_inUse, hu, List.mem_filter, mem_inUse]
    simp
  have hold : ∀ x ∈ pre ++ b :: post, x.free = false → x.off ≠ b.off → x ∈ bs' ∧
      ∀ i, x.off ≤ i → i < x.stop → (w.arena.free (b.off + HDR)).mem i = w.arena.mem i :=
    fun x hx hxf hne => by
      have hx' := (hmem x).mpr ⟨⟨hx, hxf⟩, hne⟩
      have hx'' := mem_inUse.mpr hx'
      rw [hu'] at hx''
      exact ⟨hx'.1, hk x (mem_inUse.mp hx'').1 hxf⟩
  refine ⟨bs', fl', ⟨h1, h.list.congr (fun x hx hxf hxr => hold x hx hxf fun e => hbr (e ▸ hxr)) hrh,
    fun q => ?_, fun x hx hxf => ?_⟩, fun x hx hxf hne => ?_⟩
  · rw [List.mem_filter, h.live]
    constructor
    · rintro ⟨⟨x, hx, hxf, hxr, rfl⟩, hne⟩
      have hne : x.off ≠ b.off := by simpa [HDR] using hne
      exact ⟨x, (hold x hx hxf hne).1, hxf, hxr, rfl⟩
    · rintro ⟨x, hx, hxf, hxr, rfl⟩
      obtain ⟨⟨hx, -⟩, hne⟩ := (hmem x).mp ⟨hx, hxf⟩
      exact ⟨⟨x, hx, hxf, hxr, rfl⟩, by simpa [HDR] using hne⟩
  · obtain ⟨⟨hx, -⟩, hne⟩ := (hmem x).mp ⟨hx, hxf⟩
    rw [h.retired x hx hxf]
    exact (hret _ (by simpa [HDR] using hne)).symm
  · have hne : x.off ≠ b.off := fun e => hne (by rw [e])
    exact ⟨(hold x hx hxf hne).1, Iff.rfl, fun i h3 h4 _ => (hold x hx hxf hne).2 i h3 h4⟩

/-- `retire` of a live block with room for the record. -/
theorem valid_retire_listed (h : w.Valid bs fl rl) {b : Block} (hb : b ∈ bs) (hf : b.free = false)
    (hbr : b.off ∉ rl) (hr : HDR + RETIRED_BYTES + FTR ≤ b.size) {now : Nat} (hnow : now < 2 ^ 64) :
    Valid ⟨w.arena.retire (b.off + HDR) now, w.live.filter (· ≠ b.off + HDR),
      (b.off + HDR) :: w.retired⟩ bs fl (b.off :: rl) ∧
    ∀ x ∈ bs, x.free = false → b.off + HDR ≠ x.off + HDR →
      Untouched w.arena (w.arena.retire (b.off + HDR) now) bs rl (b.off :: rl) x := by
  obtain ⟨h1, h2, -, -, hm⟩ := retire_spec h.heap h.list hb hf hbr hr hnow
  refine ⟨⟨h1, h2, fun q => ?_, fun x hx hxf => ?_⟩, fun x hx hxf hne => ?_⟩
  · rw [List.mem_filter, h.live]
    constructor
    · rintro ⟨⟨x, hx, hxf, hxr, rfl⟩, hne⟩
      have hne : x.off ≠ b.off := by simpa [HDR] using hne
      exact ⟨x, hx, hxf, by simp [hne, hxr], rfl⟩
    · rintro ⟨x, hx, hxf, hxr, rfl⟩
      rw [List.mem_cons, not_or] at hxr
      exact ⟨⟨x, hx, hxf, hxr.2, rfl⟩, by simpa [HDR] using hxr.1⟩
  · rw [List.mem_cons, List.mem_cons, h.retired x hx hxf]
    exact or_congr_left ⟨fun e => by rw [e], fun e => by simpa [HDR] using e⟩
  · have hne : x.off ≠ b.off := fun e => hne (by rw [e])
    refine ⟨hx, by simp [hne], fun i h3 h4 _ => hm i ?_⟩
    have := h.heap.inUse_apart hb hx hne
    simp only [HDR, RETIRED_BYTES, FTR, Block.stop] at *
    omega

/-- `retire` of a live block: listed, or freed if it is too small. -/
theorem valid_retire (h : w.Valid bs fl rl) {p now : Nat} (hp : p ∈ w.live) (hnow : now < 2 ^ 64) :
    ∃ bs' fl' rl', Valid ⟨w.arena.retire p now, w.live.filter (· ≠ p), p :: w.retired⟩ bs' fl' rl' ∧
      ∀ b ∈ bs, b.free = false → p ≠ b.off + HDR →
        Untouched w.arena (w.arena.retire p now) bs' rl rl' b := by
  obtain ⟨b, hb, hf, hbr, rfl⟩ := h.block hp
  by_cases hr : b.size < HDR + RETIRED_BYTES + FTR
  · obtain ⟨bs', fl', h1, h2⟩ := valid_free h hp ((b.off + HDR) :: w.retired)
      (fun q hq => by simp [hq])
    rw [retire_small h.heap hb hf hr now]
    exact ⟨bs', fl', rl, h1, h2⟩
  · obtain ⟨h1, h2⟩ := valid_retire_listed h hb hf hbr (Nat.le_of_not_lt hr) hnow
    exact ⟨bs, fl, b.off :: rl, h1, h2⟩

theorem valid_reclaim (h : w.Valid bs fl rl) (now : Nat) :
    ∃ bs' fl' rl', Valid { w with arena := w.arena.reclaim now } bs' fl' rl' ∧
      ∀ b ∈ bs, b.free = false → (b.off ∈ rl → w.arena.dueAt now b.off = false) →
        Untouched w.arena (w.arena.reclaim now) bs' rl rl' b := by
  obtain ⟨bs', fl', h1, h2, hu, -, hk⟩ := reclaim_spec h.heap h.list now
  have hmem : ∀ x, x ∈ bs' ∧ x.free = false ↔
      (x ∈ bs ∧ x.free = false) ∧ (x.off ∈ rl → w.arena.dueAt now x.off = false) := fun x => by
    rw [← mem_inUse, hu, List.mem_filter, mem_inUse]
    simp [imp_iff_not_or]
  have hrl : ∀ x, x ∈ (rl.filter fun x => !w.arena.dueAt now x).reverse ↔
      x ∈ rl ∧ w.arena.dueAt now x = false := fun x => by
    rw [List.mem_reverse, List.mem_filter]
    simp
  refine ⟨bs', fl', _, ⟨h1, h2, fun q => ?_, fun x hx hxf => ?_⟩, fun x hx hxf hd => ?_⟩
  · rw [h.live]
    constructor
    · rintro ⟨x, hx, hxf, hxr, rfl⟩
      exact ⟨x, ((hmem x).mpr ⟨⟨hx, hxf⟩, fun hm => absurd hm hxr⟩).1, hxf,
        fun hm => hxr ((hrl _).mp hm).1, rfl⟩
    · rintro ⟨x, hx, hxf, hxr, rfl⟩
      obtain ⟨⟨hx, -⟩, hd⟩ := (hmem x).mp ⟨hx, hxf⟩
      exact ⟨x, hx, hxf, fun hm => hxr ((hrl _).mpr ⟨hm, hd hm⟩), rfl⟩
  · obtain ⟨⟨hx, -⟩, hd⟩ := (hmem x).mp ⟨hx, hxf⟩
    rw [hrl, ← h.retired x hx hxf]
    exact ⟨fun hm => hm.1, fun hm => ⟨hm, hd hm⟩⟩
  · have hx' := (hmem x).mpr ⟨⟨hx, hxf⟩, hd⟩
    exact ⟨hx'.1, (hrl _).trans ⟨fun hm => hm.1, fun hm => ⟨hm, hd hm⟩⟩, hk x hx'.1 hxf⟩

/-! ### Runs -/

/-- One call keeps the invariant and leaves alone what it has nothing to do with. -/
theorem valid_step {w' : World} {c : Call} (h : w.Valid bs fl rl) (hs : w.step c = some w') :
    ∃ bs' fl' rl', w'.Valid bs' fl' rl' ∧
      ∀ b ∈ bs, b.free = false → c.Spares w.arena rl b →
        Untouched w.arena w'.arena bs' rl rl' b := by
  have same : ∃ bs' fl' rl', w.Valid bs' fl' rl' ∧ ∀ b ∈ bs, b.free = false →
      c.Spares w.arena rl b → Untouched w.arena w.arena bs' rl rl' b :=
    ⟨bs, fl, rl, h, fun b hb _ _ => ⟨hb, Iff.rfl, fun _ _ _ _ => rfl⟩⟩
  have nopos : 0 ∉ w.live := fun hm => by
    obtain ⟨b, -, -, -, e⟩ := h.block hm
    simp [HDR] at e
  simp only [step, Option.ite_none_right_eq_some, Option.some.injEq] at hs
  obtain ⟨hc, rfl⟩ := hs
  cases c with
  | init mem len =>
    by_cases hok : (w.arena.init mem len).1 = true
    · obtain ⟨mem, rfl, hlen⟩ := init_ok hok
      obtain ⟨bs', fl', h1⟩ := valid_init (w := w) mem hlen hc
      refine ⟨bs', fl', [], ?_, fun _ _ _ hf => hf.elim⟩
      rw [apply, if_pos hok]
      exact h1
    · refine ⟨bs, fl, rl, ?_, fun _ _ _ hf => hf.elim⟩
      rw [apply, if_neg hok, init_failed (by simpa using hok)]
      exact h
  | alloc n =>
    rcases alloc_spec h.heap n with e | ⟨p, a', e, ha⟩
    · rw [apply, e, grant]
      exact same
    · have hm : a' = { a' with mem := a'.mem.write p [] } := by
        rw [Mem.write_nil]
      obtain ⟨bs', fl', h1, h2⟩ := valid_grant h ha [] (by
        have := min_le_wantOf n
        simp only [MIN_BLOCK, HDR, FTR, List.length_nil] at *
        omega) hm
      rw [apply, e, grant]
      exact ⟨bs', fl', rl, h1, fun b hb hf _ => h2 b hb hf⟩
  | put src =>
    rcases alloc_spec h.heap src.length with e | ⟨p, a', e, ha⟩
    · rw [apply, put, e, grant]
      exact same
    · obtain ⟨bs', fl', h1, h2⟩ := valid_grant h ha src (le_wantOf hc) rfl
      rw [apply, put, e, grant]
      exact ⟨bs', fl', rl, h1, fun b hb hf _ => h2 b hb hf⟩
  | fill p i bytes =>
    obtain ⟨h1, h2⟩ := valid_fill h hc.1 hc.2 rfl
    exact ⟨bs, fl, rl, h1, h2⟩
  | free p =>
    rcases hc with rfl | hp
    · have e : w.apply (.free 0) = w := by
        rw [apply, Arena.free, if_pos (Or.inr rfl), List.filter_eq_self.mpr fun q hq => by
          simpa using fun e : q = 0 => nopos (e ▸ hq)]
      rw [e]
      exact same
    · obtain ⟨bs', fl', h1, h2⟩ := valid_free h hp w.retired fun _ _ => Iff.rfl
      exact ⟨bs', fl', rl, h1, h2⟩
  | retire p now =>
    rcases hc with rfl | hp
    · have e : w.apply (.retire 0 now) = { w with retired := 0 :: w.retired } := by
        rw [apply, Arena.retire, if_pos (Or.inr rfl), List.filter_eq_self.mpr fun q hq => by
          simpa using fun e : q = 0 => nopos (e ▸ hq)]
      rw [e]
      refine ⟨bs, fl, rl, ⟨h.heap, h.list, h.live, fun b hb hf => ?_⟩,
        fun b hb _ _ => ⟨hb, Iff.rfl, fun _ _ _ _ => rfl⟩⟩
      rw [h.retired b hb hf]
      simp [HDR]
    · exact valid_retire h hp now.toNat_lt
  | reclaim now => exact valid_reclaim h now.toNat

/-- Before the first successful `init` every other call does nothing. -/
theorem ok_step {w' : World} {c : Call} (h : w.Ok) (hs : w.step c = some w') : w'.Ok := by
  rcases h with ⟨hok, hl⟩ | ⟨bs, fl, rl, h⟩
  · simp only [step, Option.ite_none_right_eq_some, Option.some.injEq] at hs
    obtain ⟨hc, rfl⟩ := hs
    cases c with
    | init mem len =>
      by_cases hok' : (w.arena.init mem len).1 = true
      · obtain ⟨mem, rfl, hlen⟩ := init_ok hok'
        obtain ⟨bs', fl', h1⟩ := valid_init (w := w) mem hlen hc
        refine Or.inr ⟨bs', fl', [], ?_⟩
        rw [apply, if_pos hok']
        exact h1
      · refine Or.inl ?_
        rw [apply, if_neg hok', init_failed (by simpa using hok')]
        exact ⟨hok, hl⟩
    | alloc n => exact Or.inl (by simp [apply, Arena.alloc, hok, grant, hl])
    | put src => exact Or.inl (by simp [apply, Arena.put, Arena.alloc, hok, grant, hl])
    | fill p i bytes => exact absurd hc.1 (by simp [hl])
    | free p => exact Or.inl (by simp [apply, Arena.free, hok, hl])
    | retire p now => exact Or.inl (by simp [apply, Arena.retire, hok, hl])
    | reclaim now => exact Or.inl (by simp [apply, Arena.reclaim, hok, hl])
  · obtain ⟨bs', fl', rl', h', -⟩ := valid_step h hs
    exact Or.inr ⟨bs', fl', rl', h'⟩

end World

/-- In every state that a run reaches with the heap initialised: the blocks tile the heap, each with
    its size at both ends and none smaller than `MIN_BLOCK`; no two neighbours are free; the free
    list links exactly the free blocks, once each and both ways; `used` adds up the payloads of the
    others; and the retire list holds exactly the blocks in use that have been retired, once each. -/
theorem heap_invariant (calls : List Call) (w : World) (hrun : run World.step {} calls = some w)
    (hok : w.arena.ok = true) :
    ∃ bs fl rl, Heap w.arena bs fl ∧ RetireList w.arena bs rl ∧
      ∀ x, x ∈ rl ↔ ∃ b ∈ bs, b.off = x ∧ b.free = false ∧ b.off + HDR ∈ w.retired := by
  have h : w.Ok := run_inv (I := World.Ok) (fun _ _ _ h hs => World.ok_step h hs)
    (Or.inl ⟨rfl, rfl⟩) hrun
  rcases h with ⟨h, -⟩ | ⟨bs, fl, rl, h⟩
  · rw [h] at hok
    exact Bool.noConfusion hok
  · refine ⟨bs, fl, rl, h.heap, h.list, fun x => ⟨fun hx => ?_, ?_⟩⟩
    · obtain ⟨b, hb, rfl, hf, -⟩ := h.list.room x hx
      exact ⟨b, hb, rfl, hf, (h.retired b hb hf).mp hx⟩
    · rintro ⟨b, hb, rfl, hf, hr⟩
      exact (h.retired b hb hf).mpr hr

theorem heap_invariant_sample :
    ∃ w, run World.step {} [.init (some fun _ => 7) 300, .alloc 40, .put [1, 2, 3], .alloc 24,
        .free 80, .retire 176 9, .reclaim 10, .alloc 500] = some w ∧ w.arena.ok = true ∧
      ∃ bs fl rl, Heap w.arena bs fl ∧ RetireList w.arena bs rl ∧
        ∀ x, x ∈ rl ↔ ∃ b ∈ bs, b.off = x ∧ b.free = false ∧ b.off + HDR ∈ w.retired := by
  refine exists_run_of_map (fun w => w.arena.ok) true (by decide +kernel) ?_
  intro w hw hok
  exact ⟨hok, heap_invariant _ w hw hok⟩

/-! ### The bytes of a retired block -/

/-- Until the block retired at `t` is due: no reclaim comes late enough to free it, and the arena is
    not laid out afresh. -/
def Waits (t : UInt64) (_ : World) : Call → Prop
  | .init .. => False
  | .reclaim now => due now.toNat t.toNat = false
  | _ => True

/-- A block retired at `t` and still waiting, with the bytes `m` past its record. -/
def World.Holds (w : World) (b : Block) (t : UInt64) (m : Mem) : Prop :=
  ∃ bs fl rl, w.Valid bs fl rl ∧ b ∈ bs ∧ b.free = false ∧ b.off ∈ rl ∧
    w.arena.retiredAt b.off = t.toNat ∧ ∀ i, b.off + HDR + 12 ≤ i → i < b.stop → w.arena.mem i = m i

theorem World.holds_step {w w' : World} {b : Block} {t : UInt64} {m : Mem} {c : Call}
    (h : w.Holds b t m) (hc : Waits t w c) (hs : w.step c = some w') : w'.Holds b t m := by
  obtain ⟨bs, fl, rl, hv, hb, hf, hr, hat, hm⟩ := h
  obtain ⟨bs', fl', rl', hv', hk⟩ := World.valid_step hv hs
  have hnl : b.off + HDR ∉ w.live := fun hl => by
    obtain ⟨x, hx, -, hxr, e⟩ := hv.block hl
    have e : b.off = x.off := by simpa [HDR] using e
    exact hxr (e ▸ hr)
  have hne : ∀ p, p = 0 ∨ p ∈ w.live → p ≠ b.off + HDR := by
    rintro p (rfl | hp)
    · simp [HDR]
    · rintro rfl; exact hnl hp
  have hal : c.Allowed w := by
    simp only [World.step, Option.ite_none_right_eq_some] at hs
    exact hs.1
  have hsp : c.Spares w.arena rl b := by
    cases c with
    | init => exact hc.elim
    | alloc | put => trivial
    | fill p => exact hne p (Or.inr hal.1)
    | free p => exact hne p hal
    | retire p => exact hne p hal
    | reclaim now => exact fun _ => by rw [dueAt, hat]; exact hc
  obtain ⟨hb', hr', hmem⟩ := hk b hb hf hsp
  obtain ⟨c', hc', e, hcf, hcr⟩ := hv.list.room _ hr
  obtain rfl := hv.heap.tiles.off_inj hc' hb e
  simp only [HDR, RETIRED_BYTES, FTR] at hcr
  refine ⟨bs', fl', rl', hv', hb', hf, hr'.mpr hr, ?_, fun i h1 h2 =>
    (hmem i (by omega) h2 fun _ => Or.inr h1).trans (hm i h1 h2)⟩
  refine Eq.trans (Mem.get_congr fun i h1 h2 => hmem i (by omega) ?_ fun _ => Or.inl (by omega)) hat
  simp only [HDR, Block.stop] at *
  omega

/-- A live block with room for the record waits from the moment it is retired. -/
theorem World.holds_retire {w : World} {bs : List Block} {fl rl : List Nat} {b : Block}
    (h : w.Valid bs fl rl) (hb : b ∈ bs) (hf : b.free = false) (hbr : b.off ∉ rl)
    (hr : HDR + RETIRED_BYTES + FTR ≤ b.size) (t : UInt64) :
    World.Holds (w.apply (.retire (b.off + HDR) t)) b t w.arena.mem := by
  obtain ⟨h1, -⟩ := World.valid_retire_listed h hb hf hbr hr t.toNat_lt
  obtain ⟨-, -, hat, -, hm⟩ := retire_spec h.heap h.list hb hf hbr hr t.toNat_lt
  exact ⟨bs, fl, b.off :: rl, h1, hb, hf, by simp, hat, fun i h2 _ => hm i (Or.inr h2)⟩

/-- Retiring a block that has room for the record leaves its payload from the twelfth byte on as it
    was, through any later calls, until a reclaim finds it due. -/
theorem retired_payload_kept (before after : List Call) (w w₁ w₂ : World) (p i : Nat) (t : UInt64)
    (hbefore : run World.step {} before = some w) (hp : p ∈ w.live)
    (hretire : w.step (.retire p t) = some w₁)
    (hwaits : Along World.step (Waits t) w₁ after) (hafter : run World.step w₁ after = some w₂)
    (hsize : HDR + RETIRED_BYTES + FTR ≤ w.arena.size (p - HDR)) (hi : 12 ≤ i)
    (hlt : i < w.arena.size (p - HDR) - (HDR + FTR)) :
    w₂.arena.mem (p + i) = w.arena.mem (p + i) := by
  have hw : w.Ok := run_inv (I := World.Ok) (fun _ _ _ h hs => World.ok_step h hs)
    (Or.inl ⟨rfl, rfl⟩) hbefore
  rcases hw with ⟨-, hl⟩ | ⟨bs, fl, rl, hv⟩
  · rw [hl] at hp; simp at hp
  obtain ⟨b, hb, hf, hbr, rfl⟩ := hv.block hp
  rw [Nat.add_sub_cancel, hv.heap.size_eq hb] at hsize hlt
  simp only [World.step, Option.ite_none_right_eq_some, Option.some.injEq] at hretire
  obtain ⟨-, rfl⟩ := hretire
  have h0 := World.holds_retire hv hb hf hbr hsize t
  obtain ⟨_, _, _, _, _, _, _, _, hkeep⟩ := run_inv_along (I := fun v => v.Holds b t w.arena.mem)
    (fun _ _ _ h hc hs => World.holds_step h hc hs) h0 hwaits hafter
  simp only [HDR, FTR] at hlt
  exact hkeep _ (by omega) (by simp only [HDR, Block.stop]; omega)

theorem retired_payload_kept_sample :
    ∃ w w₁ w₂, run World.step {} [.init (some fun _ => 0) 300, .alloc 24,
        .fill 80 0 (List.replicate 24 5)] = some w ∧
      w.step (.retire 80 0) = some w₁ ∧
      run World.step w₁ [.put [1, 2], .reclaim 10, .free 128] = some w₂ ∧
      w₂.arena.mem (80 + 12) = w.arena.mem (80 + 12) := by
  have hb : (run World.step {} [.init (some fun _ => 0) 300, .alloc 24,
      .fill 80 0 (List.replicate 24 5)]).isSome = true := by decide +kernel
  obtain ⟨w, hw⟩ := Option.isSome_iff_exists.mp hb
  have hfacts : (run World.step {} [.init (some fun _ => 0) 300, .alloc 24,
      .fill 80 0 (List.replicate 24 5)]).map (fun w => (w.live, w.arena.size 64)) =
      some ([80], 48) := by decide +kernel
  have hall : ((run World.step {} [.init (some fun _ => 0) 300, .alloc 24,
      .fill 80 0 (List.replicate 24 5)]).bind fun w => (w.step (.retire 80 0)).bind fun w₁ =>
        run World.step w₁ [.put [1, 2], .reclaim 10, .free 128]).isSome = true := by
    decide +kernel
  rw [hw] at hfacts hall
  simp only [Option.map_some, Option.some.injEq, Prod.mk.injEq, Option.bind_some] at hfacts hall
  obtain ⟨w₂, h₂⟩ := Option.isSome_iff_exists.mp hall
  obtain ⟨w₁, h₁, h₂⟩ := Option.bind_eq_some_iff.mp h₂
  have hsz : w.arena.size (80 - HDR) = 48 := hfacts.2
  refine ⟨w, w₁, w₂, hw, h₁, h₂, retired_payload_kept _ _ w w₁ w₂ 80 12 0 hw (by simp [hfacts.1]) h₁
    ?_ h₂ (by rw [hsz]; decide) (by decide) (by rw [hsz]; decide)⟩
  refine ⟨trivial, fun _ _ => ⟨?_, fun _ _ => ⟨trivial, fun _ _ => trivial⟩⟩⟩
  show due 10 0 = false
  decide

/-- The first bytes of the payload are lost the moment a block is retired: the time of retirement is
    written over them. -/
theorem retired_payload_lost :
    ∃ w w₁, run World.step {} [.init (some fun _ => 0) 300, .alloc 24,
        .fill 80 0 (List.replicate 24 5)] = some w ∧
      80 ∈ w.live ∧ w.step (.retire 80 0) = some w₁ ∧ w₁.arena.mem 80 ≠ w.arena.mem 80 := by
  have h : ((run World.step {} [.init (some fun _ => 0) 300, .alloc 24,
      .fill 80 0 (List.replicate 24 5)]).bind fun w => (w.step (.retire 80 0)).map fun w₁ =>
        (w.live, w.arena.mem 80, w₁.arena.mem 80)) = some ([80], 5, 0) := by decide +kernel
  obtain ⟨w, hw, h⟩ := Option.bind_eq_some_iff.mp h
  obtain ⟨w₁, h₁, h⟩ := Option.map_eq_some_iff.mp h
  simp only [Prod.mk.injEq] at h
  exact ⟨w, w₁, hw, by simp [h.1], h₁, by rw [h.2.1, h.2.2]; decide⟩

end Barnacle.Arena
