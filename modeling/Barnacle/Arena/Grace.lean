import Barnacle.Arena.Placement

/-! Retired memory is kept apart until its grace period is over, if the block has room for the record
    that keeps it: a smaller block goes straight back to the free list, where the next request can
    have it. -/

namespace Barnacle.Arena
open Barnacle.Lib

variable {w w' w₁ : World} {bs : List Block} {fl rl : List Nat} {b : Block}

/-- The pointer the call hands out. -/
def World.returned (w : World) : Call → Option Nat
  | .alloc n => (w.arena.alloc n).1
  | .put src => (w.arena.put src).1
  | _ => none

/-- What a call hands out lies in a block that was free. -/
theorem World.returned_within (h : w.Valid bs fl rl) {c : Call} {q : Nat}
    (hs : w.step c = some w') (hq : w.returned c = some q) :
    ∃ x ∈ bs, x.free = true ∧ ∀ i, Within w'.arena q i → x.off ≤ i ∧ i < x.stop := by
  simp only [World.step, Option.ite_none_right_eq_some, Option.some.injEq] at hs
  obtain ⟨-, rfl⟩ := hs
  have key : ∀ {n : Nat} {bytes : Bytes} {r : Option Nat × Arena}, Returns w.arena bs n bytes r →
      r.1 = some q → ∃ x ∈ bs, x.free = true ∧
        ∀ i, Within (w.grant r).arena q i → x.off ≤ i ∧ i < x.stop := by
    rintro n bytes r (rfl | ⟨p, a', ha, -, rfl⟩) e
    · simp at e
    · obtain rfl : p = q := by simpa using e
      obtain ⟨x, hx, hxf, -, hin⟩ := ha.within bytes rfl
      exact ⟨x, hx, hxf, hin⟩
  cases c with
  | alloc n => exact key (alloc_returns h.heap n) hq
  | put src => exact key (put_returns h.heap src) hq
  | init | fill | free | retire | reclaim => simp [World.returned] at hq

/-- A block that waits shares no byte with what is handed out. -/
theorem World.holds_apart {t : UInt64} {m : Mem} {c : Call} {q : Nat} (h : w.Holds b t m)
    (hs : w.step c = some w') (hq : w.returned c = some q) :
    ∀ i, Within w'.arena q i → ¬(b.off ≤ i ∧ i < b.stop) := by
  intro i hi hbi
  obtain ⟨bs, fl, rl, hv, hb, hf, -, -, -⟩ := h
  obtain ⟨x, hx, hxf, hin⟩ := World.returned_within hv hs hq
  have hxi := hin i hi
  rcases hv.heap.tiles.apart hb hx with rfl | hap
  · rw [hf] at hxf
    exact Bool.noConfusion hxf
  · simp only [Block.Apart] at hap
    omega

/-! ### Small blocks -/

/-- Every block size a request can ask for exactly. -/
theorem wantOf_exact {s : Nat} (h : wantOf 1 ≤ s) (hs : s < 2 ^ 32) :
    wantOf (s / 8 * 8 - 24) = s / 8 * 8 := by
  have h1 : wantOf 1 = 32 := by decide
  simp only [wantOf_eq_max, align8, add64, HDR, FTR, MIN_BLOCK]
  omega

/-- A freed block is the first a request finds, and there is one that takes all of it. -/
theorem World.reused (h : w.Valid bs fl rl) (hb : b ∈ bs) (hf : b.free = false)
    (hmin : wantOf 1 ≤ b.size) {a : Arena} (ha : a = w.arena.free (b.off + HDR)) :
    ∃ n q a', n < 2 ^ 63 ∧ a.alloc n = (some q, a') ∧ Within a' q b.off := by
  obtain ⟨pre, post, rfl⟩ := List.append_of_mem hb
  obtain ⟨bs', fl', h1, -, -, -, -, c, hc, hcf, hhead, hlo, hhi, -⟩ := free_spec h.heap hf
  rw [← ha] at h1 hhead
  have hbd := h1.tiles.bounds c hc
  have hend := h1.ctl.heap_end ▸ h1.ctl.cap
  have hone : wantOf 1 = 32 := by decide
  simp only [Block.stop, MIN_BLOCK] at hbd hhi
  have hwant := wantOf_exact (s := c.size) (by omega) (by omega)
  refine ⟨c.size / 8 * 8 - 24, ?_⟩
  rcases alloc_cases h1 (c.size / 8 * 8 - 24) with ⟨-, hsmall⟩ | ⟨q, a', e, -, hfit, -⟩
  · have := hsmall (by omega) c hc hcf
    rw [hwant] at this
    omega
  -- the walk stops at the head of the list
  have hcap : ∃ k, a.cap = k + 1 := ⟨a.cap - 1, by rw [← h1.ctl.heap_end]; omega⟩
  obtain ⟨k, hk⟩ := hcap
  have hq : q - HDR = c.off := by
    have hfirst := hfit.first
    have hpos : c.off ≠ NIL := by
      have := h1.ctl.heap
      simp only [BNCL_CTL_BYTES, NIL] at *
      omega
    rw [hk, hhead, fit, if_neg hpos, h1.size_eq hc, hwant, if_neg (by omega)] at hfirst
    simpa using hfirst.symm
  have hcut := hfit.cut
  rw [hq, hwant, h1.size_eq hc] at hcut
  refine ⟨q, a', by omega, e, ?_⟩
  rw [Within, hq]
  omega

/-! ### Every run -/

/-- The ledger only looks on. -/
theorem Ledger.run_world : ∀ {calls : List Call} {l : Ledger}, run World.step l.world calls = some w →
    ∃ l', run Ledger.step l calls = some l' ∧ l'.world = w := by
  intro calls
  induction calls with
  | nil =>
    intro l h
    rw [run, Option.some.injEq] at h
    exact ⟨l, rfl, h⟩
  | cons c calls ih =>
    intro l h
    rw [run, Option.bind_eq_some_iff] at h
    obtain ⟨w₁, hs, h⟩ := h
    obtain ⟨l', hl, e⟩ := ih (l := ⟨w₁, waits l.world l.waiting c⟩) h
    refine ⟨l', ?_, e⟩
    rw [run, Ledger.step, hs]
    exact hl

/-- From the moment a block is retired until a reclaim finds it due, nothing is handed out that
    overlaps it, whatever the calls: exactly if the block has room for the record. -/
theorem retired_kept_apart (before : List Call) (w w₁ : World) (p : Nat) (t : UInt64)
    (hbefore : run World.step {} before = some w) (hp : p ∈ w.live)
    (hretire : w.step (.retire p t) = some w₁) :
    (∀ after w₂ c w₃ q, Along World.step (Waits t) w₁ after → run World.step w₁ after = some w₂ →
      w₂.step c = some w₃ → w₂.returned c = some q →
      ∀ i, Within w₃.arena q i → ¬Within w.arena p i) ↔
    HDR + RETIRED_BYTES + FTR ≤ w.arena.size (p - HDR) := by
  obtain ⟨l, hl, rfl⟩ := Ledger.run_world (l := {}) hbefore
  have hok : l.Ok := run_inv (I := Ledger.Ok) (fun _ _ _ h hs => Ledger.ok_step h hs)
    (Or.inl ⟨rfl, rfl, rfl⟩) hl
  rcases hok with ⟨-, hnil, -⟩ | ⟨bs, fl, rl, h⟩
  · rw [hnil] at hp; simp at hp
  obtain ⟨b, hb, hf, hbr, rfl⟩ := h.valid.block hp
  have hwithin : ∀ i, Within l.world.arena (b.off + HDR) i ↔ b.off ≤ i ∧ i < b.stop := by
    intro i
    rw [Within, Nat.add_sub_cancel, h.valid.heap.size_eq hb, Block.stop]
  rw [Nat.add_sub_cancel, h.valid.heap.size_eq hb]
  simp only [World.step, Option.ite_none_right_eq_some, Option.some.injEq] at hretire
  obtain ⟨-, rfl⟩ := hretire
  constructor
  · intro hapart
    by_contra hsmall
    have e := retire_small h.valid.heap hb hf (Nat.lt_of_not_le hsmall) t.toNat
    obtain ⟨n, q, a', hn, ha, hin⟩ := World.reused h.valid hb hf (h.grid b hb hf).1 e
    refine hapart [] _ (.alloc n) _ q trivial rfl (if_pos hn) ?_ b.off ?_ ((hwithin _).mpr ?_)
    · exact congrArg Prod.fst ha
    · rw [World.apply, World.apply, ha]
      exact hin
    · have := (h.grid b hb hf).1
      have hone : wantOf 1 = 32 := by decide
      rw [Block.stop]
      omega
  · intro hroom after w₂ c w₃ q hwaits hafter hs hq i hi
    rw [hwithin]
    exact World.holds_apart (run_inv_along (I := fun v => v.Holds b t l.world.arena.mem)
      (fun _ _ _ h hc hs => World.holds_step h hc hs)
      (World.holds_retire h.valid hb hf hbr hroom t) hwaits hafter) hs hq i hi

theorem retired_kept_apart_sample :
    ∃ w w₁, run World.step {} [.init (some fun _ => 0) 300, .alloc 24] = some w ∧
      w.step (.retire 80 7) = some w₁ ∧
      ∀ after w₂ c w₃ q, Along World.step (Waits 7) w₁ after → run World.step w₁ after = some w₂ →
        w₂.step c = some w₃ → w₂.returned c = some q →
        ∀ i, Within w₃.arena q i → ¬Within w.arena 80 i := by
  have h : ((run World.step {} [.init (some fun _ => 0) 300, .alloc 24]).bind fun w =>
      (w.step (.retire 80 7)).map fun _ => (w.live, w.arena.size 64)) = some ([80], 48) := by
    decide +kernel
  obtain ⟨w, hw, h⟩ := Option.bind_eq_some_iff.mp h
  obtain ⟨w₁, hw₁, h⟩ := Option.map_eq_some_iff.mp h
  simp only [Prod.mk.injEq] at h
  have hsz : w.arena.size (80 - HDR) = 48 := h.2
  exact ⟨w, w₁, hw, hw₁, (retired_kept_apart _ w w₁ 80 7 hw (by simp [h.1]) hw₁).mpr
    (by rw [hsz]; decide)⟩

/-- A block of 32 bytes is handed out again at once, with no time gone by. -/
theorem retired_reused_at_once :
    ∃ w w₁ w₂, run World.step {} [.init (some fun _ => 0) 300, .alloc 8] = some w ∧ 80 ∈ w.live ∧
      w.step (.retire 80 7) = some w₁ ∧ w₁.step (.alloc 8) = some w₂ ∧
      w₁.returned (.alloc 8) = some 80 ∧ Within w₂.arena 80 80 ∧ Within w.arena 80 80 := by
  have h : ((run World.step {} [.init (some fun _ => 0) 300, .alloc 8]).bind fun w =>
      (w.step (.retire 80 7)).bind fun w₁ => (w₁.step (.alloc 8)).map fun w₂ =>
        ((w.live, w₁.returned (.alloc 8)), w.arena.size 64, w₂.arena.size 64)) =
      some (([80], some 80), 32, 32) := by decide +kernel
  obtain ⟨w, hw, h⟩ := Option.bind_eq_some_iff.mp h
  obtain ⟨w₁, hw₁, h⟩ := Option.bind_eq_some_iff.mp h
  obtain ⟨w₂, hw₂, h⟩ := Option.map_eq_some_iff.mp h
  simp only [Prod.mk.injEq] at h
  obtain ⟨⟨hlive, hq⟩, h1, h2⟩ := h
  have hin : ∀ a : Arena, a.size 64 = 32 → Within a 80 80 := by
    intro a ha
    refine ⟨by decide, ?_⟩
    rw [show 80 - HDR = 64 from rfl, ha]
    decide
  exact ⟨w, w₁, w₂, hw, by simp [hlive], hw₁, hw₂, hq, hin _ h2, hin _ h1⟩

end Barnacle.Arena
