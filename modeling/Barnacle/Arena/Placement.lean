import Barnacle.Arena.Held

/-! Where `alloc` puts what it hands out, over whole runs.

    A ledger stands beside the arena: the pointers granted and not yet freed or retired, and the ones
    retired and not yet freed, with the time of retirement. It is kept from the calls alone. A block is
    freed by `free`, by `retire` if it is too small for the record, and by the first `reclaim` that
    finds it due. -/

namespace Barnacle.Arena
open Barnacle.Lib

variable {a a' : Arena} {bs bs' : List Block} {fl fl' rl rl' : List Nat} {b : Block}

/-! ### One memory, one tiling -/

theorem Tiles.unique {m : Mem} {lo hi : Nat} {cs : List Block} (hb : Tiles lo hi bs)
    (hc : Tiles lo hi cs) (hbs : ∀ b ∈ bs, Shape m b) (hcs : ∀ c ∈ cs, Shape m c) : bs = cs := by
  induction bs generalizing lo cs with
  | nil =>
    cases cs with
    | nil => rfl
    | cons c cs =>
      have hlo : lo = hi := hb
      have := (hc.bounds c (by simp)).2
      have := hc.1
      simp only [MIN_BLOCK, Block.stop] at *
      omega
  | cons b bs ih =>
    cases cs with
    | nil =>
      have hlo : lo = hi := hc
      have := (hb.bounds b (by simp)).2
      have := hb.1
      simp only [MIN_BLOCK, Block.stop] at *
      omega
    | cons c cs =>
      obtain ⟨hbo, -, hb⟩ := hb
      obtain ⟨hco, -, hc⟩ := hc
      have sb := hbs b (by simp)
      have sc := hcs c (by simp)
      have hoff : b.off = c.off := hbo.trans hco.symm
      have hsize : b.size = c.size := by rw [← sb.size, ← sc.size, hoff]
      have hfree : b.free = c.free := by
        have h1 : b.free.toNat = c.free.toNat := by rw [← sb.flag, ← sc.flag, hoff]
        revert h1
        cases b.free <;> cases c.free <;> simp
      have hbc : b = c := by
        cases b
        cases c
        simp only [Block.mk.injEq]
        exact ⟨hoff, hsize, hfree⟩
      rw [hbc, ih hb (hsize ▸ hc) (fun x hx => hbs x (by simp [hx])) fun x hx => hcs x (by simp [hx])]

theorem Heap.unique (h : Heap a bs fl) (h' : Heap a bs' fl') : bs = bs' :=
  h.tiles.unique h'.tiles h.shape h'.shape

/-! ### The grid of eight bytes -/

/-- Blocks in use begin on the grid, end on it or where the heap ends, and are no smaller than the
    smallest request makes them. -/
def Grid (hi : Nat) (bs : List Block) : Prop :=
  ∀ b ∈ bs, b.free = false →
    wantOf 1 ≤ b.size ∧ b.off % 8 = 0 ∧ (b.stop % 8 = 0 ∨ b.stop = hi)

/-- The free ones, which lie between them, are on the grid as well. -/
theorem Grid.all (hg : Grid a.heap_end bs) (h : Heap a bs fl) (hb : b ∈ bs) :
    b.off % 8 = 0 ∧ (b.stop % 8 = 0 ∨ b.stop = a.heap_end) := by
  cases hf : b.free with
  | false => exact (hg b hb hf).2
  | true =>
    have hbd := h.tiles.bounds b hb
    simp only [MIN_BLOCK, Block.stop] at hbd
    constructor
    · rcases h.tiles.before_free h.coalesced hb hf with he | ⟨c, hc, hcf, he⟩
      · rw [he, h.ctl.heap]; rfl
      · rcases (hg c hc hcf).2.2 with hs | hs
        · rw [← he]; exact hs
        · omega
    · rcases h.tiles.after_free h.coalesced hb hf with he | ⟨c, hc, hcf, he⟩
      · exact Or.inr he
      · exact Or.inl (by rw [← he]; exact (hg c hc hcf).2.1)

/-! ### What a call brings into use -/

/-- A free block or the front of one, cut on the grid. -/
def Cut (bs : List Block) (b : Block) : Prop :=
  wantOf 1 ≤ b.size ∧ ∃ x ∈ bs, x.free = true ∧ x.off = b.off ∧ (b.size % 8 = 0 ∨ b.size = x.size)

theorem Allocates.back {n p : Nat} {a'' : Arena} (ha : Allocates a bs (wantOf n) p a')
    (hfit : FirstFit a n p a') (h : Heap a bs fl) (hn : n < 2 ^ 63)
    (bytes : Bytes) (hlen : bytes.length + HDR + FTR ≤ wantOf n)
    (ha'' : a'' = { a' with mem := a'.mem.write p bytes }) :
    ∃ bs' fl', Heap a'' bs' fl' ∧ a''.heap_end = a.heap_end ∧
      ∀ x ∈ bs', x.free = false → x ∈ bs ∨ (x.off + HDR = p ∧ Cut bs x) := by
  obtain ⟨⟨pre, b, post, c, post', fl', rfl, hbf, hh, hcf, hco, rfl, hw, -, hu⟩, -, hcap, -⟩ := ha
  have hcm : c ∈ pre ++ c :: post' := by simp
  have hbm : b ∈ pre ++ b :: post := by simp
  have hbd := hh.tiles.bounds c hcm
  simp only [HDR, FTR, MIN_BLOCK] at hlen hbd
  obtain ⟨h1, -⟩ := hh.write_payload hcm hcf (c.off + HDR) bytes
    (Nat.le_refl _) (by simp only [HDR, FTR, Block.stop]; omega) ha''
  have hcut := hfit.cut
  rw [Nat.add_sub_cancel, hh.size_eq hcm, hco, h.size_eq hbm] at hcut
  refine ⟨_, _, h1, ?_, fun x hx hxf => ?_⟩
  · rw [h1.ctl.heap_end, h.ctl.heap_end, ← hcap, ha'']
  · have hx := mem_inUse.mpr ⟨hx, hxf⟩
    rw [inUse_append, inUse_cons_used _ hcf, hu] at hx
    rcases List.mem_append.mp hx with hx | hx
    · exact Or.inl (List.mem_append_left _ (mem_inUse.mp hx).1)
    · rcases List.mem_cons.mp hx with rfl | hx
      · refine Or.inr ⟨rfl, (wantOf_one_le hfit.pos hn).trans hw, b, hbm, hbf, hco.symm, ?_⟩
        exact hcut.imp_left fun e => by rw [e]; exact wantOf_mod n
      · exact Or.inl (List.mem_append_right _ (List.mem_cons_of_mem _ (mem_inUse.mp hx).1))

/-- A byte of the block behind the pointer `q`. -/
def Within (a : Arena) (q i : Nat) : Prop := q - HDR ≤ i ∧ i < q - HDR + a.size (q - HDR)

/-- What is handed out lies in a block that was free, at its front. -/
theorem Allocates.within {want p : Nat} {a'' : Arena} (ha : Allocates a bs want p a') (bytes : Bytes)
    (ha'' : a'' = { a' with mem := a'.mem.write p bytes }) :
    ∃ x ∈ bs, x.free = true ∧ x.off + HDR = p ∧ ∀ i, Within a'' p i → x.off ≤ i ∧ i < x.stop := by
  obtain ⟨⟨pre, b, post, c, post', fl', rfl, hbf, hh, hcf, hco, rfl, hw, hcb, -⟩, -, -, -⟩ := ha
  have hsz : a''.size (c.off + HDR - HDR) = c.size := by
    rw [Nat.add_sub_cancel, ← hh.size_eq (b := c) (by simp), ha'']
    exact Mem.get_congr fun i h1 h2 => Mem.write_out _ (by simp only [HDR] at *; omega)
  refine ⟨b, by simp, hbf, by rw [hco], fun i hi => ?_⟩
  rw [Within, hsz, Nat.add_sub_cancel] at hi
  rw [Block.stop]
  omega

/-- What `alloc` and `put` return: nothing and no change, or a block with `bytes` written into it. -/
def Returns (a : Arena) (bs : List Block) (n : Nat) (bytes : Bytes) (r : Option Nat × Arena) : Prop :=
  r = (none, a) ∨ ∃ p a', Allocates a bs (wantOf n) p a' ∧ FirstFit a n p a' ∧
    r = (some p, { a' with mem := a'.mem.write p bytes })

theorem alloc_returns (h : Heap a bs fl) (n : Nat) : Returns a bs n [] (a.alloc n) := by
  rcases alloc_cases h n with ⟨e, -⟩ | ⟨p, a', e, ha, hcut, -⟩
  · exact Or.inl e
  · exact Or.inr ⟨p, a', ha, hcut, by rw [e, Mem.write_nil]⟩

theorem put_returns (h : Heap a bs fl) (src : Bytes) : Returns a bs src.length src (a.put src) := by
  rcases alloc_cases h src.length with ⟨e, -⟩ | ⟨p, a', e, ha, hcut, -⟩
  · exact Or.inl (by rw [put, e])
  · exact Or.inr ⟨p, a', ha, hcut, by rw [put, e]⟩

namespace World
variable {w w' : World} {c : Call}

/-- A block in use after a call was in use before it and not due for reclaiming, or it has just been
    handed out. -/
def Before (w w' : World) (bs : List Block) (rl : List Nat) (c : Call) (b : Block) : Prop :=
  (b ∈ bs ∧ ∀ now, c = .reclaim now → b.off ∈ rl → w.arena.dueAt now.toNat b.off = false) ∨
  (b.off + HDR ∈ w'.live ∧ Cut bs b)

theorem before_free (h : w.Valid bs fl rl) {p : Nat} (hp : p ∈ w.live) :
    ∃ bs' fl', Heap (w.arena.free p) bs' fl' ∧ (w.arena.free p).heap_end = w.arena.heap_end ∧
      ∀ x ∈ bs', x.free = false → x ∈ bs := by
  obtain ⟨b, hb, hf, -, rfl⟩ := h.block hp
  obtain ⟨pre, post, rfl⟩ := List.append_of_mem hb
  obtain ⟨bs', fl', h1, hu, -, hcap, -, -⟩ := free_spec h.heap hf
  refine ⟨bs', fl', h1, by rw [h1.ctl.heap_end, h.heap.ctl.heap_end, hcap], fun x hx hxf => ?_⟩
  have hx := mem_inUse.mpr ⟨hx, hxf⟩
  rw [hu] at hx
  exact List.perm_middle.mem_iff.mpr (List.mem_cons_of_mem _ (mem_inUse.mp hx).1)

/-- `alloc` and `put` alike: nothing changes, or a block comes into use. -/
theorem before_grant (h : w.Valid bs fl rl) {n : Nat} {bytes : Bytes} {r : Option Nat × Arena}
    (hn : n < 2 ^ 63) (hlen : bytes.length + HDR + FTR ≤ wantOf n)
    (hr : Returns w.arena bs n bytes r)
    (h' : (w.grant r).Valid bs' fl' rl') :
    (w.grant r).arena.heap_end = w.arena.heap_end ∧
      ∀ b ∈ bs', b.free = false → b ∈ bs ∨ (b.off + HDR ∈ (w.grant r).live ∧ Cut bs b) := by
  rcases hr with rfl | ⟨p, a', ha, hcut, rfl⟩
  · have e : w.grant (none, w.arena) = w := rfl
    rw [e] at h' ⊢
    rw [h'.heap.unique h.heap]
    exact ⟨rfl, fun b hb _ => Or.inl hb⟩
  · obtain ⟨bs₁, fl₁, h1, hend, hback⟩ := ha.back hcut h.heap hn bytes hlen rfl
    rw [grant] at h' ⊢
    rw [h'.heap.unique h1]
    refine ⟨hend, fun b hb hf => (hback b hb hf).imp_right ?_⟩
    rintro ⟨hp, hcut⟩
    exact ⟨by simp [hp], hcut⟩

/-- One call: the heap ends where it did, and what is in use came from somewhere. -/
theorem before_step (h : w.Valid bs fl rl) (hs : w.step c = some w')
    (hc : ∀ mem len, c ≠ .init mem len) (h' : w'.Valid bs' fl' rl') :
    w'.arena.heap_end = w.arena.heap_end ∧
      ∀ b ∈ bs', b.free = false → Before w w' bs rl c b := by
  have same : ∀ {fl₀}, Heap w'.arena bs fl₀ → (∀ now, c ≠ .reclaim now) →
      ∀ b ∈ bs', b.free = false → Before w w' bs rl c b := fun hh hn b hb _ =>
    Or.inl ⟨h'.heap.unique hh ▸ hb, fun now e => absurd e (hn now)⟩
  simp only [step, Option.ite_none_right_eq_some, Option.some.injEq] at hs
  obtain ⟨hal, rfl⟩ := hs
  cases c with
  | init mem len => exact absurd rfl (hc mem len)
  | alloc n =>
    have hmin := min_le_wantOf n
    simp only [MIN_BLOCK] at hmin
    obtain ⟨hend, hback⟩ := before_grant h hal (by simp only [HDR, FTR, List.length_nil]; omega)
      (alloc_returns h.heap n) h'
    exact ⟨hend, fun b hb hf => (hback b hb hf).imp_left fun hb => ⟨hb, by simp⟩⟩
  | put src =>
    obtain ⟨hend, hback⟩ := before_grant h hal (le_wantOf hal) (put_returns h.heap src) h'
    exact ⟨hend, fun b hb hf => (hback b hb hf).imp_left fun hb => ⟨hb, by simp⟩⟩
  | fill p i bytes =>
    obtain ⟨h1, -⟩ := valid_fill h hal.1 hal.2 rfl
    exact ⟨rfl, same h1.heap (by simp)⟩
  | free p =>
    rcases hal with rfl | hp
    · have e : (w.apply (.free 0)).arena = w.arena := by
        rw [apply, Arena.free, if_pos (Or.inr rfl)]
      rw [e] at same ⊢
      exact ⟨rfl, same h.heap (by simp)⟩
    · obtain ⟨bs₁, fl₁, h1, hend, hback⟩ := before_free h hp
      rw [h'.heap.unique h1]
      exact ⟨hend, fun b hb hf => Or.inl ⟨hback b hb hf, by simp⟩⟩
  | retire p now =>
    rcases hal with rfl | hp
    · have e : (w.apply (.retire 0 now)).arena = w.arena := by
        rw [apply, Arena.retire, if_pos (Or.inr rfl)]
      rw [e] at same ⊢
      exact ⟨rfl, same h.heap (by simp)⟩
    · obtain ⟨b, hb, hf, hbr, rfl⟩ := h.block hp
      by_cases hr : b.size < HDR + RETIRED_BYTES + FTR
      · obtain ⟨bs₁, fl₁, h1, hend, hback⟩ := before_free h hp
        have e : (w.apply (.retire (b.off + HDR) now)).arena = w.arena.free (b.off + HDR) :=
          retire_small h.heap hb hf hr now.toNat
        rw [← e] at h1 hend
        rw [h'.heap.unique h1]
        exact ⟨hend, fun x hx hxf => Or.inl ⟨hback x hx hxf, by simp⟩⟩
      · obtain ⟨h1, -⟩ := valid_retire_listed h hb hf hbr (Nat.le_of_not_lt hr) now.toNat_lt
        obtain ⟨-, -, -, hcap, -⟩ := retire_spec h.heap h.list hb hf hbr (Nat.le_of_not_lt hr)
          now.toNat_lt
        refine ⟨?_, same h1.heap (by simp)⟩
        rw [h'.heap.ctl.heap_end, h.heap.ctl.heap_end]
        exact hcap
  | reclaim now =>
    obtain ⟨bs₁, fl₁, h1, -, hu, hcap, -⟩ := reclaim_spec h.heap h.list now.toNat
    rw [h'.heap.unique h1]
    refine ⟨?_, fun b hb hf => Or.inl ?_⟩
    · rw [h'.heap.ctl.heap_end, h.heap.ctl.heap_end]
      exact hcap
    · have hb := mem_inUse.mpr ⟨hb, hf⟩
      rw [hu, List.mem_filter] at hb
      refine ⟨(mem_inUse.mp hb.1).1, fun now' e hr => ?_⟩
      obtain rfl : now = now' := by simpa using e
      simpa [hr] using hb.2

theorem grid_step (h : w.Valid bs fl rl) (hg : Grid w.arena.heap_end bs) (hs : w.step c = some w')
    (hc : ∀ mem len, c ≠ .init mem len) (h' : w'.Valid bs' fl' rl') :
    Grid w'.arena.heap_end bs' := by
  obtain ⟨hend, hback⟩ := before_step h hs hc h'
  intro b hb hf
  rw [hend]
  rcases hback b hb hf with ⟨hb, -⟩ | ⟨-, hmin, x, hx, hxf, hxo, hsz⟩
  · exact hg b hb hf
  · obtain ⟨h1, h2⟩ := hg.all h.heap hx
    rw [hxo] at h1
    simp only [Block.stop] at h2 ⊢
    refine ⟨hmin, h1, ?_⟩
    rcases hsz with hsz | hsz
    · exact Or.inl (by omega)
    · rw [hsz, ← hxo]
      exact h2

end World

/-! ### The ledger -/

/-- The arena with its callers, and what waits out its grace period: each pointer with the time it
    was retired at. -/
structure Ledger where
  world : World := {}
  waiting : List (Nat × UInt64) := []

/-- What is retired and not yet freed after the call. -/
def waits (w : World) (l : List (Nat × UInt64)) : Call → List (Nat × UInt64)
  | .init mem len => if (w.arena.init mem len).1 then [] else l
  | .retire p now =>
    if p = 0 ∨ w.arena.size (p - HDR) < HDR + RETIRED_BYTES + FTR then l else (p, now) :: l
  | .reclaim now => l.filter fun x => !due now.toNat x.2.toNat
  | _ => l

namespace Ledger

def step (l : Ledger) (c : Call) : Option Ledger :=
  (l.world.step c).map fun w => ⟨w, waits l.world l.waiting c⟩

/-- The pointers whose blocks are allocated or retired, and not yet freed. -/
def held (l : Ledger) : List Nat := l.world.live ++ l.waiting.map Prod.fst

/-- What ties the ledger to the heap. -/
structure Sound (l : Ledger) (bs : List Block) (fl rl : List Nat) : Prop where
  valid : l.world.Valid bs fl rl
  grid : Grid l.world.arena.heap_end bs
  placed : ∀ x ∈ l.waiting, ∃ b m, x.1 = b.off + HDR ∧ l.world.Holds b x.2 m
  listed : ∀ b ∈ bs, b.free = false → b.off + HDR ∈ l.world.retired →
    ∃ t, (b.off + HDR, t) ∈ l.waiting

/-- Before the first successful `init` there is no heap, and the ledger is empty. -/
def Ok (l : Ledger) : Prop :=
  (l.world.arena = {} ∧ l.world.live = [] ∧ l.waiting = []) ∨ ∃ bs fl rl, l.Sound bs fl rl

variable {l l' : Ledger} {c : Call} {w w' : World}

/-- A fresh heap has nothing in use. -/
theorem sound_init (h : w.Valid bs fl []) (hl : w.live = []) : Sound ⟨w, []⟩ bs fl [] := by
  have hnone : ∀ b ∈ bs, b.free ≠ false := by
    intro b hb hf
    have := (h.live (b.off + HDR)).mpr ⟨b, hb, hf, by simp, rfl⟩
    rw [hl] at this
    simp at this
  exact ⟨h, fun b hb hf => absurd hf (hnone b hb), by simp, fun b hb hf => absurd hf (hnone b hb)⟩

/-- The waiting blocks still wait after a call, but for those a reclaim finds due. -/
theorem placed_step (h : l.Sound bs fl rl) (hs : l.world.step c = some w')
    (hc : ∀ mem len, c ≠ .init mem len) :
    ∀ x ∈ waits l.world l.waiting c, ∃ b m, x.1 = b.off + HDR ∧ w'.Holds b x.2 m := by
  have old : ∀ x ∈ l.waiting, Waits x.2 l.world c → ∃ b m, x.1 = b.off + HDR ∧ w'.Holds b x.2 m := by
    intro x hx hw
    obtain ⟨b, m, e, hh⟩ := h.placed x hx
    exact ⟨b, m, e, World.holds_step hh hw hs⟩
  intro x hx
  cases c with
  | init mem len => exact absurd rfl (hc mem len)
  | alloc n => exact old x hx trivial
  | put src => exact old x hx trivial
  | fill p i bytes => exact old x hx trivial
  | free p => exact old x hx trivial
  | retire p now =>
    simp only [waits] at hx
    by_cases hsmall : p = 0 ∨ l.world.arena.size (p - HDR) < HDR + RETIRED_BYTES + FTR
    · rw [if_pos hsmall] at hx
      exact old x hx trivial
    · rw [if_neg hsmall] at hx
      rcases List.mem_cons.mp hx with rfl | hx
      · simp only [World.step, Option.ite_none_right_eq_some, Option.some.injEq] at hs
        obtain ⟨hal, rfl⟩ := hs
        rw [not_or, Nat.not_lt] at hsmall
        obtain ⟨b, hb, hf, hbr, rfl⟩ := h.valid.block (hal.resolve_left hsmall.1)
        rw [Nat.add_sub_cancel, h.valid.heap.size_eq hb] at hsmall
        exact ⟨b, _, rfl, World.holds_retire h.valid hb hf hbr hsmall.2 now⟩
      · exact old x hx trivial
  | reclaim now =>
    simp only [waits, List.mem_filter] at hx
    exact old x hx.1 (by simpa [Waits] using hx.2)

/-- A block that waits is a block in use, retired when the ledger says. -/
theorem Sound.block (h : l.Sound bs fl rl) {x : Nat × UInt64} (hx : x ∈ l.waiting) :
    ∃ b ∈ bs, b.free = false ∧ b.off ∈ rl ∧ x.1 = b.off + HDR ∧
      l.world.arena.retiredAt b.off = x.2.toNat := by
  obtain ⟨b, m, e, bs₁, fl₁, rl₁, hv, hb, hf, hr, hat, -⟩ := h.placed x hx
  have hbs := hv.heap.unique h.valid.heap
  subst hbs
  exact ⟨b, hb, hf, (h.valid.retired b hb hf).mpr ((hv.retired b hb hf).mp hr), e, hat⟩

theorem listed_step (h : l.Sound bs fl rl) (hs : l.world.step c = some w')
    (hc : ∀ mem len, c ≠ .init mem len) (h' : w'.Valid bs' fl' rl') :
    ∀ b ∈ bs', b.free = false → b.off + HDR ∈ w'.retired →
      ∃ t, (b.off + HDR, t) ∈ waits l.world l.waiting c := by
  intro b hb hf hret
  have hrl := (h'.retired b hb hf).mpr hret
  obtain ⟨-, hback⟩ := World.before_step h.valid hs hc h'
  -- what has just been handed out is live, not retired
  rcases hback b hb hf with ⟨hbo, hdue⟩ | ⟨hlive, -⟩
  swap
  · obtain ⟨x, hx, hxf, hxr, e⟩ := h'.block hlive
    have e : b.off = x.off := by simpa [HDR] using e
    exact absurd (e ▸ hrl) hxr
  have old := h.listed b hbo hf
  simp only [World.step, Option.ite_none_right_eq_some, Option.some.injEq] at hs
  obtain ⟨hal, rfl⟩ := hs
  have granted : ∀ r : Option Nat × Arena, b.off + HDR ∈ (l.world.grant r).retired →
      b.off + HDR ∈ l.world.retired := by
    intro r hr
    obtain ⟨_ | p, a⟩ := r
    · exact hr
    · exact (List.mem_filter.mp hr).1
  cases c with
  | init mem len => exact absurd rfl (hc mem len)
  | alloc n => exact old (granted _ hret)
  | put src => exact old (granted _ hret)
  | fill p i bytes => exact old hret
  | free p => exact old hret
  | retire p now =>
    rw [waits]
    rcases List.mem_cons.mp hret with rfl | hret
    · obtain ⟨x, hx, e, -, hroom⟩ := h'.list.room _ hrl
      obtain rfl := h'.heap.tiles.off_inj hx hb e
      rw [if_neg (by
        rw [Nat.add_sub_cancel, h.valid.heap.size_eq hbo]
        simp only [HDR, RETIRED_BYTES, FTR] at *
        omega)]
      exact ⟨now, by simp⟩
    · obtain ⟨t, ht⟩ := old hret
      refine ⟨t, ?_⟩
      split
      · exact ht
      · exact List.mem_cons_of_mem _ ht
  | reclaim now =>
    obtain ⟨t, ht⟩ := old hret
    obtain ⟨x, hx, hxf, hxr, e, hat⟩ := h.block ht
    have e : b.off = x.off := by simpa [HDR] using e
    have hd := hdue now rfl (e ▸ hxr)
    rw [dueAt, e, hat] at hd
    exact ⟨t, List.mem_filter.mpr ⟨ht, by simp [hd]⟩⟩

/-- One call on a heap that is laid out. -/
theorem Sound.step (h : l.Sound bs fl rl) (hs : l.step c = some l') (hc : ∀ mem len, c ≠ .init mem len) :
    ∃ bs' fl' rl', l'.Sound bs' fl' rl' ∧ l'.world.arena.heap_end = l.world.arena.heap_end := by
  rw [Ledger.step, Option.map_eq_some_iff] at hs
  obtain ⟨w', hs, rfl⟩ := hs
  obtain ⟨bs', fl', rl', h', -⟩ := World.valid_step h.valid hs
  exact ⟨bs', fl', rl', ⟨h', World.grid_step h.valid h.grid hs hc h', placed_step h hs hc,
    listed_step h hs hc h'⟩, (World.before_step h.valid hs hc h').1⟩

theorem ok_step (h : l.Ok) (hs : l.step c = some l') : l'.Ok := by
  have hs0 := hs
  rw [step, Option.map_eq_some_iff] at hs
  obtain ⟨w', hs, rfl⟩ := hs
  by_cases hi : ∃ mem len, c = .init mem len
  · obtain ⟨mem, len, rfl⟩ := hi
    simp only [World.step, Option.ite_none_right_eq_some, Option.some.injEq] at hs
    obtain ⟨hal, rfl⟩ := hs
    by_cases hok : (l.world.arena.init mem len).1 = true
    · obtain ⟨mem, rfl, hlen⟩ := World.init_ok hok
      obtain ⟨bs, fl, hv⟩ := World.valid_init (w := l.world) mem hlen hal
      rw [waits, if_pos hok, World.apply, if_pos hok]
      exact Or.inr ⟨bs, fl, [], sound_init hv rfl⟩
    · rw [waits, if_neg hok, World.apply, if_neg hok, World.init_failed (by simpa using hok)]
      exact h
  · have hc : ∀ mem len, c ≠ .init mem len := fun mem len e => hi ⟨mem, len, e⟩
    rcases h with ⟨ha, hl, hwt⟩ | ⟨bs, fl, rl, h⟩
    · simp only [World.step, Option.ite_none_right_eq_some, Option.some.injEq] at hs
      obtain ⟨hal, rfl⟩ := hs
      refine Or.inl ?_
      cases c with
      | init mem len => exact absurd rfl (hc mem len)
      | alloc n => simp [World.apply, Arena.alloc, World.grant, waits, ha, hl, hwt]
      | put src => simp [World.apply, Arena.put, Arena.alloc, World.grant, waits, ha, hl, hwt]
      | fill p i bytes => exact absurd hal.1 (by simp [hl])
      | free p => simp [World.apply, Arena.free, waits, ha, hl, hwt]
      | retire p now =>
        have hp : p = 0 := hal.resolve_right (by simp [hl])
        simp [World.apply, Arena.retire, waits, ha, hl, hwt, hp]
      | reclaim now => simp [World.apply, Arena.reclaim, waits, ha, hl, hwt]
    · obtain ⟨bs', fl', rl', h', -⟩ := h.step hs0 hc
      exact Or.inr ⟨bs', fl', rl', h'⟩

/-- What is held is what is in use. -/
theorem Sound.mem_held (h : l.Sound bs fl rl) {q : Nat} :
    q ∈ l.held ↔ ∃ b ∈ bs, b.free = false ∧ q = b.off + HDR := by
  rw [held, List.mem_append, List.mem_map]
  constructor
  · rintro (hq | ⟨x, hx, rfl⟩)
    · obtain ⟨b, hb, hf, -, e⟩ := h.valid.block hq
      exact ⟨b, hb, hf, e⟩
    · obtain ⟨b, hb, hf, -, e, -⟩ := h.block hx
      exact ⟨b, hb, hf, e⟩
  · rintro ⟨b, hb, hf, rfl⟩
    by_cases hr : b.off ∈ rl
    · obtain ⟨t, ht⟩ := h.listed b hb hf ((h.valid.retired b hb hf).mp hr)
      exact Or.inr ⟨_, ht, rfl⟩
    · exact Or.inl ((h.valid.live _).mpr ⟨b, hb, hf, hr, rfl⟩)

end Ledger

/-! ### Every run -/

/-- Bytes of the heap in a row, none of which belongs to a block held. -/
def Ledger.FreeRun (l : Ledger) (lo hi : Nat) : Prop :=
  l.world.arena.heap ≤ lo ∧ hi ≤ l.world.arena.heap_end ∧
  ∀ i, lo ≤ i → i < hi → ∀ q ∈ l.held, ¬Within l.world.arena q i

/-- A block handed out for `n` bytes: `a'` is the arena afterwards. -/
structure Ledger.Placed (l : Ledger) (n p : Nat) (a' : Arena) : Prop where
  aligned : p % 8 = 0
  room : n + HDR + FTR ≤ a'.size (p - HDR)
  inside : HDR ≤ p ∧ ∀ i, Within a' p i → l.world.arena.heap ≤ i ∧ i < l.world.arena.heap_end
  control : ∀ i, Within a' p i → BNCL_CTL_BYTES ≤ i
  apart : ∀ q ∈ l.held, ∀ i, Within a' p i → ¬Within l.world.arena q i

namespace Ledger
variable {l l' : Ledger} {c : Call} {n p : Nat}

theorem Sound.placed_alloc (h : l.Sound bs fl rl) (hn : n < 2 ^ 63)
    (e : l.world.arena.alloc n = (some p, a')) : l.Placed n p a' := by
  rcases alloc_spec h.valid.heap n with e' | ⟨p', a'', e', ha⟩
  · simp [e] at e'
  obtain ⟨rfl, rfl⟩ : p = p' ∧ a' = a'' := by simpa [e] using e'
  obtain ⟨-, -, hroom, hge⟩ := World.granted h.valid ha hn
  obtain ⟨b, hbm, hbf, rfl, hin⟩ := ha.within [] (show a' = _ by rw [Mem.write_nil])
  have hbd := h.valid.heap.tiles.bounds b hbm
  refine ⟨?_, hroom, ⟨hge, fun i hi => ?_⟩, fun i hi => ?_, fun q hq i hi hqi => ?_⟩
  · have := (h.grid.all h.valid.heap hbm).1
    simp only [HDR]
    omega
  · have := hin i hi
    omega
  · have := hin i hi
    rw [← h.valid.heap.ctl.heap]
    omega
  · obtain ⟨x, hx, hxf, rfl⟩ := h.mem_held.mp hq
    rw [Within, Nat.add_sub_cancel, h.valid.heap.size_eq hx] at hqi
    rcases h.valid.heap.tiles.apart hx hbm with rfl | hap
    · rw [hxf] at hbf
      exact Bool.noConfusion hbf
    · have := hin i hi
      simp only [Block.Apart, Block.stop] at hap this
      omega

theorem Sound.frame (h : l.Sound bs fl rl) (hs : l.step c = some l') {q : Nat} (hc : c.Avoids q)
    (hq : q ∈ l.world.live) : ∀ i, Within l.world.arena q i →
      l'.world.arena.mem i = l.world.arena.mem i := by
  intro i hi
  rw [Ledger.step, Option.map_eq_some_iff] at hs
  obtain ⟨w', hs, rfl⟩ := hs
  obtain ⟨b, hb, hf, hbr, rfl⟩ := h.valid.block hq
  obtain ⟨_, _, _, -, hk⟩ := World.valid_step h.valid hs
  have hsp : c.Spares l.world.arena rl b := by
    cases c with
    | init => exact hc.elim
    | alloc | put => trivial
    | fill | free | retire => exact hc
    | reclaim => exact fun hm => absurd hm hbr
  rw [Within, Nat.add_sub_cancel, h.valid.heap.size_eq hb] at hi
  exact (hk b hb hf hsp).2.2 i hi.1 hi.2 fun hm => absurd hm hbr

theorem Sound.refused (h : l.Sound bs fl rl) (hn : 1 ≤ n) (e : (l.world.arena.alloc n).1 = none)
    {lo hi : Nat} (hr : l.FreeRun lo hi) : hi - lo < wantOf n := by
  obtain ⟨hlo, hhi, hfree⟩ := hr
  rcases alloc_cases h.valid.heap n with ⟨-, hsmall⟩ | ⟨p', a'', e', -⟩
  swap
  · simp [e'] at e
  by_cases hlt : lo < hi
  · obtain ⟨b, hb, hf, h1, h2⟩ := h.valid.heap.tiles.free_range h.valid.heap.coalesced hlo hhi hlt
      fun k hk1 hk2 x hx hxf hxk => hfree k hk1 hk2 (x.off + HDR) (h.mem_held.mpr ⟨x, hx, hxf, rfl⟩)
        (by rwa [Within, Nat.add_sub_cancel, h.valid.heap.size_eq hx])
    have := hsmall (by omega) b hb hf
    rw [Block.stop] at h2
    omega
  · have := min_le_wantOf n
    simp only [MIN_BLOCK] at this
    omega

end Ledger

/-- In every state a run reaches: what `alloc` hands out begins on the grid of eight bytes, has room
    for the request, lies in the heap past the control block, and shares no byte with a block that is
    allocated or retired and not yet freed; no call changes a byte of a live block that it does not
    name; and a request is refused only if no run of free bytes is as large as its rounded size. -/
theorem allocations_placed (calls : List Call) (l : Ledger)
    (hrun : run Ledger.step {} calls = some l) :
    (∀ n p a', n < 2 ^ 63 → l.world.arena.alloc n = (some p, a') → l.Placed n p a') ∧
    (∀ c q l', l.step c = some l' → c.Avoids q → q ∈ l.world.live →
      ∀ i, Within l.world.arena q i → l'.world.arena.mem i = l.world.arena.mem i) ∧
    (∀ n, 1 ≤ n → (l.world.arena.alloc n).1 = none → ∀ lo hi, l.FreeRun lo hi → hi - lo < wantOf n) := by
  have h : l.Ok := run_inv (I := Ledger.Ok) (fun _ _ _ h hs => Ledger.ok_step h hs)
    (Or.inl ⟨rfl, rfl, rfl⟩) hrun
  rcases h with ⟨ha, hl, -⟩ | ⟨bs, fl, rl, h⟩
  · refine ⟨fun n p a' _ e => ?_, fun c q l' _ _ hq => ?_, fun n _ _ lo hi hr => ?_⟩
    · simp [ha, alloc] at e
    · simp [hl] at hq
    · have hend := hr.2.1
      rw [ha] at hend
      have := min_le_wantOf n
      simp only [MIN_BLOCK] at this hend
      omega
  · exact ⟨fun n p a' hn e => h.placed_alloc hn e, fun c q l' hs hc hq => h.frame hs hc hq,
      fun n hn e lo hi hr => h.refused hn e hr⟩

theorem allocations_placed_sample :
    ∃ l, run Ledger.step {} [.init (some fun _ => 7) 301, .alloc 40, .put [1, 2, 3], .alloc 24,
        .free 80, .retire 176 9, .reclaim 10, .put [4]] = some l ∧
      l.held = [80, 144, 176] ∧ l.Placed 20 224 (l.world.arena.alloc 20).2 ∧
      ∀ lo hi, l.FreeRun lo hi → hi - lo < wantOf 200 := by
  refine exists_run_of_map (fun l => (l.held, (l.world.arena.alloc 20).1, (l.world.arena.alloc 200).1))
    ([80, 144, 176], some 224, none) (by decide +kernel) ?_
  intro l hl h
  simp only [Prod.mk.injEq] at h
  obtain ⟨hplaced, -, hrefused⟩ := allocations_placed _ l hl
  refine ⟨h.1, hplaced 20 224 _ (by norm_num) ?_, hrefused 200 (by norm_num) h.2.2⟩
  rw [← h.2.1]

/-! ### Requests at the top of the range -/

/-- The last thirty-one numbers of `size_t` wrap round to the smallest block. -/
theorem wantOf_wrapped {n : Nat} (h : 2 ^ 64 - 32 < n) (hn : n < 2 ^ 64) : wantOf n = MIN_BLOCK := by
  simp only [wantOf_eq_max, align8, add64, HDR, FTR, MIN_BLOCK]
  omega

/-- The payload of a block that has been handed out. -/
theorem Allocates.payload {want p : Nat} (h : Allocates a bs want p a') :
    a'.payload (p - HDR) = a'.size (p - HDR) - (HDR + FTR) ∧ want ≤ a'.size (p - HDR) := by
  obtain ⟨pre, b, post, c, post', fl', -, -, hheap, -, -, rfl, hwant, -⟩ := h.heap
  have hc : c ∈ pre ++ c :: post' := by simp
  rw [Nat.add_sub_cancel, HeapBut.payload_eq hheap hc, hheap.size_eq hc]
  exact ⟨rfl, hwant⟩

/-- What `alloc` returns has room for the request, for every request of the type, exactly if the request
    does not wrap in the rounding or there is no free block. -/
theorem alloc_room_iff (h : Heap a bs fl) {n : Nat} (hn : n < 2 ^ 64) :
    (∀ p a', a.alloc n = (some p, a') → n ≤ a'.payload (p - HDR)) ↔
      n ≤ 2 ^ 64 - 32 ∨ a.free_head = NIL := by
  rcases alloc_cases h n with ⟨e, hsmall⟩ | ⟨p, a', e, ha, hfirst, hcut, -⟩
  · -- refused: no request that wraps is, where there is a free block
    refine iff_of_true (fun p a' e' => by rw [e] at e'; cases e') ?_
    rw [or_iff_not_imp_left, Nat.not_le]
    intro hwrap
    rw [h.linked.head]
    rcases hfl : fl with _ | ⟨x, fl⟩
    · rfl
    · obtain ⟨b, hb, hf, -⟩ := (h.listed x).mp (by rw [hfl]; exact List.mem_cons_self)
      have hlt := hsmall (by omega) b hb hf
      rw [wantOf_wrapped hwrap hn] at hlt
      exact absurd (h.tiles.bounds b hb).2.1 (by omega)
  · obtain ⟨hpay, hwant⟩ := ha.payload
    have hhead : a.free_head ≠ NIL := by
      intro hnil
      have hfit := hfirst.first
      rw [hnil] at hfit
      rcases hcap : a.cap with _ | cap <;> rw [hcap] at hfit <;> simp [fit] at hfit
    simp only [hhead, or_false]
    refine ⟨?_, ?_⟩
    · intro hroom
      by_contra hwrap
      rw [wantOf_wrapped (by omega) hn] at hcut
      have hle := hroom p a' e
      rw [hpay] at hle
      simp only [MIN_BLOCK] at hcut
      omega
    · intro hle p' a'' e'
      rw [e] at e'
      cases e'
      have := le_wantOf_of_le hle
      rw [hpay]
      omega

/-- The heap that `init` lays out in 300 bytes. -/
def smallHeap : Arena := (({} : Arena).init (some fun _ => 0) 300).2

theorem alloc_room_small :
    (smallHeap.alloc 40).1 = some 80 ∧ 40 ≤ (smallHeap.alloc 40).2.payload (80 - HDR) := by
  obtain ⟨bs, fl, h⟩ := World.valid_init (w := {}) (fun _ => 0) (by decide : BNCL_CTL_BYTES + MIN_BLOCK < 300)
    (by decide)
  have hp : (smallHeap.alloc 40).1 = some 80 := by decide +kernel
  exact ⟨hp, (alloc_room_iff h.heap (by decide)).mpr (.inl (by decide)) 80 _ (Prod.ext hp rfl)⟩

/-- A request for every byte there could be gets a block of twenty-four, with four bytes of payload. -/
theorem alloc_wraps :
    (smallHeap.alloc (2 ^ 64 - 1)).1 = some 80 ∧ (smallHeap.alloc (2 ^ 64 - 1)).2.payload (80 - HDR) = 4 ∧
      ¬2 ^ 64 - 1 ≤ (smallHeap.alloc (2 ^ 64 - 1)).2.payload (80 - HDR) := by
  decide +kernel

end Barnacle.Arena
