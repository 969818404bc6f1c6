import Barnacle.Arena.Placement

/-! An arena nobody holds a block of. It is one free block again, whatever has been allocated, retired
    and reclaimed before, so the same requests go through again. -/

namespace Barnacle.Arena
open Barnacle.Lib

namespace Ledger
variable {l l' : Ledger} {c : Call} {n : Nat} {bs : List Block} {fl rl : List Nat}

theorem step_of_allowed (hc : c.Allowed l.world) :
    l.step c = some ⟨l.world.apply c, waits l.world l.waiting c⟩ := by
  rw [step, World.step, if_pos hc, Option.map_some]

/-- With nothing held the whole heap is one run of free bytes. -/
theorem Sound.not_refused_empty (h : l.Sound bs fl rl) (hheld : l.held = []) (hn : 1 ≤ n)
    (hroom : BNCL_CTL_BYTES + wantOf n ≤ l.world.arena.heap_end) : (l.world.arena.alloc n).1 ≠ none := by
  intro e
  have hrun : l.FreeRun l.world.arena.heap l.world.arena.heap_end := by
    refine ⟨Nat.le_refl _, Nat.le_refl _, ?_⟩
    intro i _ _ q hq
    rw [hheld] at hq
    exact absurd hq List.not_mem_nil
  have := h.refused hn e hrun
  rw [h.valid.heap.ctl.heap] at this
  omega

/-- With one block held there is a run of free bytes on each side of it, and one of the two is at least
    half of what is left. -/
theorem Sound.not_refused_one (h : l.Sound bs fl rl) {p : Nat} (hheld : l.held = [p]) (hn : 1 ≤ n)
    (hroom : BNCL_CTL_BYTES + l.world.arena.size (p - HDR) + 2 * wantOf n ≤ l.world.arena.heap_end) :
    (l.world.arena.alloc n).1 ≠ none := by
  intro e
  obtain ⟨b, hb, hf, rfl⟩ := h.mem_held.mp (by rw [hheld]; exact List.mem_cons_self)
  rw [Nat.add_sub_cancel] at hroom
  have hbd := h.valid.heap.tiles.bounds b hb
  rw [Block.stop, ← h.valid.heap.size_eq hb] at hbd
  have hwithin : ∀ i q, q ∈ l.held → Within l.world.arena q i →
      b.off ≤ i ∧ i < b.off + l.world.arena.size b.off := by
    intro i q hq hi
    rw [hheld, List.mem_singleton] at hq
    rw [hq, Within, Nat.add_sub_cancel] at hi
    exact hi
  have hbefore : l.FreeRun l.world.arena.heap b.off := by
    refine ⟨Nat.le_refl _, by omega, ?_⟩
    intro i _ h2 q hq hi
    have := hwithin i q hq hi
    omega
  have hafter : l.FreeRun (b.off + l.world.arena.size b.off) l.world.arena.heap_end := by
    refine ⟨by omega, Nat.le_refl _, ?_⟩
    intro i h1 _ q hq hi
    have := hwithin i q hq hi
    omega
  have h1 := h.refused hn e hbefore
  have h2 := h.refused hn e hafter
  rw [h.valid.heap.ctl.heap] at h1
  omega

end Ledger

namespace World

/-- Nothing is in use and nothing waits. -/
structure Vacant (w : World) (hi : Nat) : Prop where
  sound : ∃ bs fl rl, Ledger.Sound ⟨w, []⟩ bs fl rl
  live : w.live = []
  heap_end : w.arena.heap_end = hi

variable {w : World} {hi n : Nat} {src : Bytes}

theorem vacant_init (mem : Mem) {len : Nat} (hmin : BNCL_CTL_BYTES + MIN_BLOCK < len) (hmax : len < 2 ^ 32) :
    (World.apply {} (.init (some mem) len)).Vacant len := by
  obtain ⟨bs, fl, hv⟩ := valid_init (w := {}) mem hmin hmax
  have e : World.apply {} (.init (some mem) len) = { arena := (Arena.init {} (some mem) len).2 } := by
    rw [apply, if_pos]
    rw [Arena.init]
    simp [Nat.not_le_of_lt hmin]
  rw [e]
  refine ⟨⟨bs, fl, [], Ledger.sound_init hv rfl⟩, rfl, ?_⟩
  rw [hv.heap.ctl.heap_end]
  rw [Arena.init]
  simp [Nat.not_le_of_lt hmin]
  rfl

/-- The block a first request gets, which takes little more than it needs. -/
theorem Vacant.put (h : w.Vacant hi) (h0 : src ≠ []) (hlen : src.length < 2 ^ 63)
    (hroom : BNCL_CTL_BYTES + wantOf src.length ≤ hi) :
    ∃ p, (w.put src).1 = some p ∧ p ≠ 0 ∧ (w.put src).2.live = [p] ∧
      (w.put src).2.arena.size (p - HDR) < wantOf src.length + MIN_BLOCK := by
  obtain ⟨bs, fl, rl, hs⟩ := h.sound
  have hpos : 1 ≤ src.length := List.length_pos_of_ne_nil h0
  have hnot := hs.not_refused_empty (by simp [Ledger.held, h.live]) hpos (by rw [h.heap_end]; exact hroom)
  rcases alloc_cases hs.valid.heap src.length with ⟨e, -⟩ | ⟨p, a', e, ha, -, hsize, -⟩
  · rw [e] at hnot
    exact absurd rfl hnot
  · obtain ⟨-, hne, -, hle⟩ := granted hs.valid ha hlen
    have e1 : w.put src = (some p, ⟨{ a' with mem := a'.mem.write p src }, p :: w.live,
        w.retired.filter (· ≠ p)⟩) := by
      have e2 : w.arena.put src = (some p, { a' with mem := a'.mem.write p src }) := by
        rw [Arena.put, e]
      rw [World.put, apply, e2, grant]
    rw [e1]
    refine ⟨p, rfl, hne, by rw [h.live], ?_⟩
    rw [size_write a' hle src]
    exact hsize

/-- What is retired together is due together. -/
theorem waits_retire {l : List (Nat × UInt64)} {now : UInt64} (h : ∀ x ∈ l, x.2 = now) (p : Nat) :
    ∀ x ∈ waits w l (.retire p now), x.2 = now := by
  intro x hx
  rw [waits] at hx
  split at hx
  · exact h x hx
  · rcases List.mem_cons.mp hx with rfl | hx
    · rfl
    · exact h x hx

theorem waits_reclaim {l : List (Nat × UInt64)} {now late : UInt64} (h : ∀ x ∈ l, x.2 = now)
    (hdue : due late.toNat now.toNat = true) : waits w l (.reclaim late) = [] := by
  rw [waits, List.filter_eq_nil_iff]
  intro x hx
  rw [h x hx, hdue]
  decide

/-- A text and a record are allocated, retired and, once their grace period is over, reclaimed: both
    requests go through, and the arena is vacant again. -/
theorem Vacant.cycle (h : w.Vacant hi) (h0 : src ≠ []) (hlen : src.length < 2 ^ 63) (hn : 1 ≤ n)
    (hn' : n < 2 ^ 63) (hroom : BNCL_CTL_BYTES + (wantOf src.length + MIN_BLOCK) + 2 * wantOf n ≤ hi)
    {now late : UInt64} (hdue : due late.toNat now.toNat = true) :
    ∃ txt p, (w.put src).1 = some txt ∧ ((w.put src).2.alloc n).1 = some p ∧ txt ≠ 0 ∧
      (((((w.put src).2.alloc n).2.retire txt now).retire p now).reclaim late).Vacant hi := by
  obtain ⟨txt, e1, h1, hl1, hsize⟩ := h.put h0 hlen (by omega)
  obtain ⟨bs, fl, rl, hs⟩ := h.sound
  obtain ⟨bs, fl, rl, hs, hend1⟩ := hs.step (c := .put src) (Ledger.step_of_allowed hlen) (by simp)
  have hend : (w.put src).2.arena.heap_end = hi := hend1.trans h.heap_end
  have hnot := hs.not_refused_one (p := txt) (n := n) (by rw [Ledger.held]; exact congrArg (· ++ []) hl1) hn
    (by
      show BNCL_CTL_BYTES + (w.put src).2.arena.size (txt - HDR) + 2 * wantOf n ≤ (w.put src).2.arena.heap_end
      rw [hend]
      omega)
  rcases alloc_grants hs.valid hn' with e2 | ⟨p, e2, hne, -, hl2⟩
  · exact absurd (congrArg Prod.fst e2) hnot
  have hl1' : (w.apply (.put src)).live = [txt] := hl1
  rw [hl1'] at hl2 hne
  have hne : p ≠ txt := by simpa using hne
  obtain ⟨bs, fl, rl, hs, hend2⟩ := hs.step (c := .alloc n) (Ledger.step_of_allowed hn') (by simp)
  have hl2' : ((w.put src).2.alloc n).2.live = [p, txt] := hl2
  -- the three calls that give both blocks back
  have hl3 : (((w.put src).2.alloc n).2.retire txt now).live = [p] := by
    rw [retire, apply]
    simp [hl2', hne]
  obtain ⟨bs, fl, rl, hs, hend3⟩ := hs.step (c := .retire txt now)
    (Ledger.step_of_allowed (Or.inr (by show txt ∈ ((w.put src).2.alloc n).2.live; rw [hl2']; simp))) (by simp)
  have hl4 : ((((w.put src).2.alloc n).2.retire txt now).retire p now).live = [] := by
    rw [retire, apply]
    simp [hl3]
  obtain ⟨bs, fl, rl, hs, hend4⟩ := hs.step (c := .retire p now) (Ledger.step_of_allowed
    (Or.inr (by show p ∈ (((w.put src).2.alloc n).2.retire txt now).live; rw [hl3]; simp))) (by simp)
  obtain ⟨bs, fl, rl, hs, hend5⟩ := hs.step (c := .reclaim late) (Ledger.step_of_allowed trivial) (by simp)
  refine ⟨txt, p, e1, e2, h1, ⟨bs, fl, rl, ?_⟩, hl4,
    hend5.trans (hend4.trans (hend3.trans (hend2.trans (hend1.trans h.heap_end))))⟩
  have hnil : ∀ x ∈ ([] : List (Nat × UInt64)), x.2 = now := fun x hx => absurd hx List.not_mem_nil
  have hwait := waits_retire (w := ((w.put src).2.alloc n).2.retire txt now)
    (waits_retire (w := ((w.put src).2.alloc n).2) hnil txt) p
  rw [← waits_reclaim (w := (((w.put src).2.alloc n).2.retire txt now).retire p now) hwait hdue]
  exact hs

end World

end Barnacle.Arena
