import Barnacle.Arena.Placement

/-! Freeing a pointer twice.

    `free` looks at one word, the flag in the header that stood in front of the payload, and that
    header may have become the inside of a larger free block:

        │ A: free │ B: in use │        free B, and the header of A speaks for both:
        │ A …        ┆ 0 ┆      │        the flag of B still says "in use"

    The flag tells the truth as long as it was set when the block was freed, which the backward merge
    does not do, and as long as no later request cuts the free block around it within that header.
    `Marked` is what then holds through every call: the header lies in one free block, clear of its
    own header or at its front, and its flag is up. -/

namespace Barnacle.Arena
open Barnacle.Lib

variable {a a' : Arena} {bs bs' : List Block} {fl fl' rl : List Nat} {b x : Block} {off : Nat}

/-! ### Free blocks only grow, unless a request is served from them -/

/-- Between two free blocks there is one in use. -/
theorem Tiles.free_apart {lo hi : Nat} (h : Tiles lo hi bs) (hco : Coalesced bs) (hb : b ∈ bs)
    (hx : x ∈ bs) (hbf : b.free = true) (hxf : x.free = true) (hne : b ≠ x) (hle : b.off ≤ x.off) :
    b.stop + MIN_BLOCK ≤ x.off := by
  have hbx := (h.apart hb hx).resolve_left hne
  have hbb := h.bounds b hb
  have hxb := h.bounds x hx
  simp only [Block.Apart, Block.stop, MIN_BLOCK] at hbx hbb hxb ⊢
  rcases h.after_free hco hb hbf with he | ⟨c, hc, hcf, he⟩
  · rw [Block.stop] at he
    omega
  · have hcx := (h.apart hc hx).resolve_left fun e => by rw [e, hxf] at hcf; exact Bool.noConfusion hcf
    have hcb := h.bounds c hc
    simp only [Block.Apart, Block.stop, MIN_BLOCK] at hcx hcb he
    omega

/-- A free block from which nothing is taken stays free, in a block that may reach further. -/
theorem Tiles.free_grows {lo hi : Nat} (h : Tiles lo hi bs) (hco : Coalesced bs) (h' : Tiles lo hi bs')
    (hco' : Coalesced bs') (hb : b ∈ bs) (hf : b.free = true)
    (hback : ∀ y ∈ bs', y.free = false →
      y ∈ bs ∨ ∃ z ∈ bs, z.free = true ∧ z ≠ b ∧ z.off ≤ y.off ∧ y.stop ≤ z.stop) :
    ∃ b' ∈ bs', b'.free = true ∧ b.stop ≤ b'.stop ∧ (b'.off = b.off ∨ b'.off + MIN_BLOCK ≤ b.off) := by
  have hbb := h.bounds b hb
  simp only [MIN_BLOCK, Block.stop] at hbb
  -- a block in use afterwards shares no byte with a block it is not made from
  have hclear : ∀ y ∈ bs', y.free = false → ∀ c ∈ bs, c ≠ y → (c = b ∨ c.free = false) → y.Apart c := by
    intro y hy hyf c hc hcy hcb
    rcases hback y hy hyf with hyb | ⟨z, hz, hzf, hzb, h1, h2⟩
    · exact (h.apart hyb hc).resolve_left hcy.symm
    · have hzc : z ≠ c := by
        rintro rfl
        rcases hcb with rfl | hcf
        · exact hzb rfl
        · rw [hzf] at hcf
          exact Bool.noConfusion hcf
      have hzc := (h.apart hz hc).resolve_left hzc
      simp only [Block.Apart] at hzc ⊢
      omega
  obtain ⟨b', hb', hbf', hlo, hhi⟩ := h'.free_range hco' hbb.1 hbb.2.2 (by omega) fun k h1 h2 y hy hyf => by
    have hne : b ≠ y := fun e => by rw [e, hyf] at hf; exact Bool.noConfusion hf
    have := hclear y hy hyf b hb hne (Or.inl rfl)
    simp only [Block.Apart, Block.stop] at this ⊢
    omega
  refine ⟨b', hb', hbf', hhi, ?_⟩
  by_cases heq : b'.off = b.off
  · exact Or.inl heq
  · right
    have hbb' := h'.bounds b' hb'
    rcases h.before_free hco hb hf with he | ⟨e, he, hef, hstop⟩
    · omega
    · -- the block in front has been swallowed whole
      have heb := h.bounds e he
      simp only [MIN_BLOCK, Block.stop] at heb hstop hbb' ⊢
      by_contra hlt
      rcases h'.before_free hco' hb' hbf' with hd | ⟨d, hd, hdf, hds⟩
      · omega
      · have hdb := h'.bounds d hd
        have hne : e ≠ d := fun e' => by rw [e'] at hstop; rw [Block.stop] at hds; omega
        have := hclear d hd hdf e he hne (Or.inr hef)
        simp only [Block.Apart, Block.stop, MIN_BLOCK] at this hdb hds
        omega

/-! ### What a second `free` looks at -/

/-- The test of the backward merge: is the block that ends at `off` free? -/
def frontFree (a : Arena) (off : Nat) : Bool :=
  let prev_off := sub32 off (a.mem.get (off - FTR) 4)
  decide (off > a.heap) && decide (prev_off ≥ a.heap) && decide (a.isFree prev_off ≠ 0)

theorem front_inUse (h : Heap a bs fl) (hb : b ∈ bs) (hf : a.frontFree b.off = false) :
    b.off = a.heap ∨ ∃ x ∈ bs, x.free = false ∧ x.stop = b.off := by
  obtain ⟨pre, post, rfl⟩ := List.append_of_mem hb
  have hpre := h.tiles.mid.1
  cases pre using List.reverseRecOn with
  | nil => exact Or.inl hpre.symm
  | append_singleton pre pb _ =>
    have hpm : pb ∈ pre ++ [pb] ++ b :: post := by simp
    have hstop : pb.stop = b.off := hpre.last
    have hpb := h.tiles.bounds pb hpm
    have hbb := h.tiles.bounds b hb
    have hcap := h.ctl.cap
    rw [← h.ctl.heap_end] at hcap
    refine Or.inr ⟨pb, hpm, ?_, hstop⟩
    simp only [MIN_BLOCK, Block.stop] at hpb hbb
    have hprev := (h.shape pb hpm).prev_off hstop (by omega)
    have hgt : b.off > a.heap := by rw [← hstop, Block.stop]; omega
    simp only [frontFree, hprev, h.isFree_eq hpm, hgt, hpb.1, decide_true, Bool.true_and] at hf
    revert hf
    cases pb.free <;> simp

/-- The header at `off` lies in a free block, at its front or behind its header, and says so. -/
structure Marked (a : Arena) (bs : List Block) (off : Nat) : Prop where
  inside : ∃ b ∈ bs, b.free = true ∧ (b.off = off ∨ b.off + HDR ≤ off) ∧ off + MIN_BLOCK ≤ b.stop
  flag : a.isFree off ≠ 0

namespace Marked

/-- The second `free` returns at once. -/
theorem refused (hm : Marked a bs off) (h : Heap a bs fl) : a.free (off + HDR) = a := by
  obtain ⟨b, hb, -, -, hstop⟩ := hm.inside
  have hbb := h.tiles.bounds b hb
  have hcap := h.ctl.cap
  rw [← h.ctl.heap_end] at hcap
  have hoff : sub32 (off + HDR) HDR = off := by
    simp only [MIN_BLOCK, HDR] at *
    rw [sub32_eq (by omega) (by omega)]
    omega
  rw [free, if_neg (by simp [h.ctl.ok, HDR]), hoff]
  exact if_pos hm.flag

/-- The word is where it was, or it is the flag of a free block. -/
theorem keep (hm : Marked a bs off) (h' : Heap a' bs' fl') (hb : b ∈ bs') (hf : b.free = true)
    (hpos : b.off = off ∨ b.off + HDR ≤ off) (hstop : off + MIN_BLOCK ≤ b.stop)
    (hbytes : b.off ≠ off → ∀ i, off + 4 ≤ i → i < off + 8 → a'.mem i = a.mem i) : Marked a' bs' off := by
  refine ⟨⟨b, hb, hf, hpos, hstop⟩, ?_⟩
  by_cases he : b.off = off
  · rw [← he, h'.isFree_eq hb, hf]
    decide
  · have hflag : a'.isFree off = a.isFree off := Mem.get_congr fun i h1 h2 => hbytes he i h1 h2
    rw [hflag]
    exact hm.flag

theorem same (hm : Marked a bs off) (hbytes : ∀ i, off + 4 ≤ i → i < off + 8 → a'.mem i = a.mem i) :
    Marked a' bs off := by
  refine ⟨hm.inside, ?_⟩
  have hflag : a'.isFree off = a.isFree off := Mem.get_congr fun i h1 h2 => hbytes i h1 h2
  rw [hflag]
  exact hm.flag

/-- A block in use has no byte of the header. -/
theorem outside (hm : Marked a bs off) (h : Heap a bs fl) (hx : x ∈ bs) (hxf : x.free = false) :
    x.stop ≤ off ∨ off + MIN_BLOCK ≤ x.off := by
  obtain ⟨b, hb, hf, hpos, hstop⟩ := hm.inside
  have hne : x ≠ b := fun e => by rw [e, hf] at hxf; exact Bool.noConfusion hxf
  have := (h.tiles.apart hx hb).resolve_left hne
  simp only [Block.Apart, HDR] at this hpos
  omega

/-- Nor is the word among the links of the free list. -/
theorem links (hm : Marked a bs off) (h : Heap a bs fl) {i : Nat} (h1 : off + 4 ≤ i) (h2 : i < off + 8) :
    ∀ y ∈ fl, i < y + 8 ∨ y + HDR ≤ i := by
  intro y hy
  obtain ⟨b, hb, hf, hpos, hstop⟩ := hm.inside
  obtain ⟨c, hc, hcf, rfl⟩ := (h.listed y).mp hy
  have hcb := h.tiles.bounds c hc
  simp only [HDR, MIN_BLOCK] at *
  rcases h.tiles.apart hc hb with rfl | hap
  · omega
  · simp only [Block.Apart, Block.stop] at *
    omega

/-! ### One lemma for each write -/

/-- A write into the payload of a block in use. -/
theorem write (hm : Marked a bs off) (h : Heap a bs fl) (hx : x ∈ bs) (hxf : x.free = false) {p : Nat}
    {bytes : Bytes} (h1 : x.off + HDR ≤ p) (h2 : p + bytes.length ≤ x.stop - FTR)
    (ha' : a' = { a with mem := a.mem.write p bytes }) : Marked a' bs off := by
  obtain ⟨-, hbytes⟩ := h.write_payload hx hxf p bytes h1 h2 ha'
  have hout := hm.outside h hx hxf
  refine hm.same fun i h3 h4 => hbytes i ?_
  simp only [MIN_BLOCK, HDR, FTR] at *
  omega

/-- Another block is freed. -/
theorem free_other (hm : Marked a bs off) (h : Heap a bs fl) (hx : x ∈ bs) (hxf : x.free = false) :
    ∃ bs' fl', Heap (a.free (x.off + HDR)) bs' fl' ∧ Marked (a.free (x.off + HDR)) bs' off := by
  obtain ⟨pre, post, rfl⟩ := List.append_of_mem hx
  obtain ⟨bs', fl', h1, hu, -, hcap, -, c, hc, hcf, -, -, -, hw⟩ := free_spec h hxf
  obtain ⟨b, hb, hf, hpos, hstop⟩ := hm.inside
  have hout := hm.outside h hx hxf
  have ht : Tiles a.heap a.heap_end bs' := by
    have := h1.tiles
    rwa [h1.ctl.heap, h1.ctl.heap_end, hcap, ← h.ctl.heap, ← h.ctl.heap_end] at this
  obtain ⟨b', hb', hbf', hle, hgrown⟩ := h.tiles.free_grows h.coalesced ht h1.coalesced hb hf fun y hy hyf => by
    have hy := mem_inUse.mpr ⟨hy, hyf⟩
    rw [hu] at hy
    exact Or.inl (List.perm_middle.mem_iff.mpr (List.mem_cons_of_mem _ (mem_inUse.mp hy).1))
  have hbb' := h1.tiles.bounds b' hb'
  have hcb := h1.tiles.bounds c hc
  refine ⟨bs', fl', h1, hm.keep h1 hb' hbf' ?_ (by omega) fun hne i h3 h4 => ?_⟩
  · simp only [HDR, MIN_BLOCK] at *
    omega
  · refine hw i ?_ (hm.links h h3 h4)
    have hcb' := h1.tiles.apart hc hb'
    simp only [HDR, FTR, MIN_BLOCK, Block.Apart, Block.stop] at *
    rcases hcb' with rfl | hap <;> omega

end Marked

/-- A block with no free block in front is marked once it is freed. -/
theorem marked_free (h : Heap a bs fl) (hb : b ∈ bs) (hf : b.free = false)
    (hfront : a.frontFree b.off = false) :
    ∃ bs' fl', Heap (a.free (b.off + HDR)) bs' fl' ∧ Marked (a.free (b.off + HDR)) bs' b.off := by
  have hfr := front_inUse h hb hfront
  obtain ⟨pre, post, rfl⟩ := List.append_of_mem hb
  obtain ⟨bs', fl', h1, hu, -, hcap, -, c, hc, hcf, -, hlo, hhi, -⟩ := free_spec h hf
  have hbb := h.tiles.bounds b hb
  have hcb := h1.tiles.bounds c hc
  have hheap : (a.free (b.off + HDR)).heap = a.heap := by rw [h1.ctl.heap, h.ctl.heap]
  have hoff : c.off = b.off := by
    rcases hfr with he | ⟨y, hy, hyf, hstop⟩
    · omega
    · -- the block in front is in use as before
      have hyb := h.tiles.bounds y hy
      have hy' : y ∈ bs' := by
        have hne : y ≠ b := fun e => by
          rw [e] at hstop
          simp only [Block.stop, MIN_BLOCK] at *
          omega
        have hm : y ∈ inUse (pre ++ post) := mem_inUse.mpr ⟨by simpa [hne] using hy, hyf⟩
        rw [← hu] at hm
        exact (mem_inUse.mp hm).1
      have hne : y ≠ c := fun e => by rw [e, hcf] at hyf; exact Bool.noConfusion hyf
      have := (h1.tiles.apart hy' hc).resolve_left hne
      simp only [Block.Apart, Block.stop, MIN_BLOCK] at *
      omega
  refine ⟨bs', fl', h1, ⟨c, hc, hcf, Or.inl hoff, ?_⟩, ?_⟩
  · simp only [Block.stop, MIN_BLOCK] at *
    omega
  · have hflag := h1.isFree_eq hc
    rw [hoff, hcf] at hflag
    rw [hflag]
    decide

/-! ### Requests -/

/-- A request of `n` bytes, where it is served in front of `p`, is given a piece that ends at the header
    of `p` or at least a header's length before it. -/
def Clears (a : Arena) (n p : Nat) : Prop :=
  n ≠ 0 → ∀ x ∈ a.fit (wantOf n) a.cap a.free_head, x + HDR < p →
    x + a.piece n x + HDR = p ∨ x + a.piece n x + 2 * HDR ≤ p

instance (a : Arena) (n p : Nat) : Decidable (Clears a n p) :=
  inferInstanceAs (Decidable (n ≠ 0 → ∀ x ∈ _, _))

/-- A request that neither returns the pointer nor cuts into its header. -/
theorem Marked.alloc (hm : Marked a bs off) (h : Heap a bs fl) {n p : Nat}
    (ha : Allocates a bs (wantOf n) p a') (hfit : FirstFit a n p a') (hs : Served fl a n p a')
    (hp : p ≠ off + HDR) (hc : Clears a n (off + HDR)) :
    ∃ bs' fl', Heap a' bs' fl' ∧ Marked a' bs' off ∧ ∃ c ∈ bs', c.free = false ∧ c.off + HDR = p ∧
      wantOf n ≤ c.size := by
  have hcut := hc hfit.pos _ hfit.first
  obtain ⟨⟨pre, b, post, c, post', fl', rfl, hbf, hh, hcf, hco, rfl, hwant, hle, hu⟩, -, hcap, -⟩ := ha
  rw [Nat.add_sub_cancel] at hcut
  rw [Served, Nat.add_sub_cancel] at hs
  obtain ⟨hsize, hw⟩ := hs
  have hbm : b ∈ pre ++ b :: post := by simp
  have hcm : c ∈ pre ++ c :: post' := by simp
  rw [hh.size_eq hcm] at hsize
  rw [← hsize] at hcut hw
  have hsz : a.size c.off = b.size := by rw [hco, h.size_eq hbm]
  rw [hsz] at hw
  have ht : Tiles a.heap a.heap_end (pre ++ c :: post') := by
    have := hh.tiles
    rwa [hh.ctl.heap, hh.ctl.heap_end, hcap, ← h.ctl.heap, ← h.ctl.heap_end] at this
  have hbb := h.tiles.bounds b hbm
  have hcb := ht.bounds c hcm
  -- what is in use afterwards
  have hback : ∀ y ∈ pre ++ c :: post', y.free = false → y = c ∨ (y ∈ pre ++ b :: post ∧ y ≠ b) := by
    intro y hy hyf
    have hy := mem_inUse.mpr ⟨hy, hyf⟩
    rw [inUse_append, inUse_cons_used _ hcf, hu, List.mem_append, List.mem_cons] at hy
    have hyb : y ≠ b := fun e => by rw [e, hbf] at hyf; exact Bool.noConfusion hyf
    rcases hy with hy | rfl | hy
    · exact Or.inr ⟨by simp [(mem_inUse.mp hy).1], hyb⟩
    · exact Or.inl rfl
    · exact Or.inr ⟨by simp [(mem_inUse.mp hy).1], hyb⟩
  obtain ⟨f, hfm, hff, hpos, hstop⟩ := hm.inside
  have hfb := h.tiles.bounds f hfm
  refine ⟨_, fl', hh, ?_, c, hcm, hcf, rfl, hwant⟩
  simp only [HDR, FTR, MIN_BLOCK, Block.stop] at *
  by_cases hfe : f = b
  · -- cut from the block around the header: what is left of it starts at the cut
    subst hfe
    obtain ⟨f', hf', hff', hlo, hhi⟩ := ht.free_range hh.coalesced (i := c.off + c.size) (j := f.off + f.size)
      (by omega) (by omega) (by omega) fun k h1 h2 y hy hyf => by
        rcases hback y hy hyf with rfl | ⟨hyb, hne⟩
        · simp only [Block.stop]
          omega
        · have := (h.tiles.apart hyb hbm).resolve_left hne
          simp only [Block.Apart, Block.stop] at this ⊢
          omega
    have hne : f' ≠ c := fun e => by rw [e, hcf] at hff'; exact Bool.noConfusion hff'
    have hap := (ht.apart hf' hcm).resolve_left hne
    simp only [Block.Apart, Block.stop] at hap hhi
    have hoff : f'.off = c.off + c.size := by omega
    refine hm.keep hh hf' hff' (by simp only [HDR]; omega) (by simp only [MIN_BLOCK, Block.stop]; omega)
      fun hne i h3 h4 => hw i (by omega) ?_
    exact hm.links h h3 h4
  · obtain ⟨f', hf', hff', hgle, hgrown⟩ := h.tiles.free_grows h.coalesced ht hh.coalesced hfm hff
      fun y hy hyf => by
        rcases hback y hy hyf with rfl | ⟨hyb, -⟩
        · exact Or.inr ⟨b, hbm, hbf, fun e => hfe e.symm, by omega, by simp only [Block.stop]; omega⟩
        · exact Or.inl hyb
    simp only [MIN_BLOCK, Block.stop] at hgle hgrown
    refine hm.keep hh hf' hff' (by simp only [HDR]; omega) (by simp only [MIN_BLOCK, Block.stop]; omega)
      fun hne i h3 h4 => hw i ?_ (hm.links h h3 h4)
    rcases Nat.le_total b.off f.off with hbf' | hbf'
    · have := h.tiles.free_apart h.coalesced hbm hfm hbf hff (fun e => hfe e.symm) hbf'
      simp only [MIN_BLOCK, Block.stop] at this
      omega
    · have := h.tiles.free_apart h.coalesced hfm hbm hff hbf hfe hbf'
      simp only [MIN_BLOCK, Block.stop] at this
      omega

/-! ### The walk of the retire list -/

/-- The calls of `free` that the walk makes, each with the arena it finds. -/
def walkFrees (now : Nat) : Nat → Arena → Nat → Nat → List (Arena × Nat)
  | 0, _, _, _ => []
  | fuel + 1, a, off, keep =>
    if off = NIL then []
    else
      let nxt := a.retiredNext off
      if due now (a.retiredAt off) then
        (a, off + HDR) :: walkFrees now fuel (a.free (off + HDR)) nxt keep
      else walkFrees now fuel (a.setRetiredNext off keep) nxt off

theorem le_of_mem_walkFrees {now : Nat} {a₀ : Arena} {p : Nat} : ∀ {fuel : Nat} {a : Arena} {off keep : Nat},
    (a₀, p) ∈ walkFrees now fuel a off keep → HDR ≤ p
  | 0, _, _, _, h => absurd h List.not_mem_nil
  | fuel + 1, a, off, keep, h => by
    rw [walkFrees] at h
    split_ifs at h with h1 h2
    · exact absurd h List.not_mem_nil
    · rcases List.mem_cons.mp h with he | h
      · simp only [Prod.mk.injEq] at he
        omega
      · exact le_of_mem_walkFrees h
    · exact le_of_mem_walkFrees h

/-- The link of a retired block is rewritten. -/
theorem Marked.setRetiredNext (hm : Marked a bs off) (h : Heap a bs fl) (hx : x ∈ bs)
    (hxf : x.free = false) (hr : HDR + RETIRED_BYTES + FTR ≤ x.size) (v : Nat) :
    Marked (a.setRetiredNext x.off v) bs off := by
  have hout := hm.outside h hx hxf
  refine hm.same fun i h1 h2 => Mem.put_out _ ?_
  simp only [HDR, MIN_BLOCK, RETIRED_BYTES, FTR, Block.stop] at *
  omega

/-- The walk keeps what is marked, and marks what it frees with no free block in front. -/
theorem reclaimLoop_marked (now : Nat) : ∀ {rs : List Nat} {fuel : Nat} {a : Arena} {bs : List Block}
    {fl ks : List Nat}, Heap a bs fl → Walk a bs rs ks → rs.length < fuel →
    (Marked a bs off ∨ ∃ a₀, (a₀, off + HDR) ∈ walkFrees now fuel a (rs.headD NIL) (ks.headD NIL) ∧
      a₀.frontFree off = false) →
    ∃ bs' fl', Heap (reclaimLoop now fuel a (rs.headD NIL) (ks.headD NIL)).1 bs' fl' ∧
      Marked (reclaimLoop now fuel a (rs.headD NIL) (ks.headD NIL)).1 bs' off
  | _, 0, _, _, _, _, _, _, hl, _ => absurd hl (Nat.not_lt_zero _)
  | [], fuel + 1, a, bs, fl, ks, h, w, _, hm => by
    rcases hm with hm | ⟨a₀, ha₀, -⟩
    · exact ⟨bs, fl, h, hm⟩
    · simp [walkFrees] at ha₀
  | x :: rs, fuel + 1, a, bs, fl, ks, h, w, hl, hm => by
    have hl' : rs.length < fuel := by simpa using hl
    have hnext : a.retiredNext x = rs.headD NIL := w.rest.1
    obtain ⟨c, hc, rfl, hcf, hcr⟩ := w.room x (by simp)
    rw [List.headD_cons, walkFrees, if_neg (w.ne_nil h), hnext] at hm
    rw [List.headD_cons, reclaimLoop, if_neg (w.ne_nil h), hnext]
    by_cases hd : due now (a.retiredAt c.off) = true
    · rw [if_pos hd] at hm ⊢
      obtain ⟨bs₁, fl₁, h1, w1, -⟩ := walk_due h w
      refine reclaimLoop_marked now h1 w1 hl' ?_
      rcases hm with hm | ⟨a₀, ha₀, hfront⟩
      · obtain ⟨bs₂, fl₂, h2, hm2⟩ := hm.free_other h hc hcf
        exact Or.inl (h1.unique h2 ▸ hm2)
      · rcases List.mem_cons.mp ha₀ with he | ha₀
        · simp only [Prod.mk.injEq, Nat.add_right_cancel_iff] at he
          obtain ⟨rfl, rfl⟩ := he
          obtain ⟨bs₂, fl₂, h2, hm2⟩ := marked_free h hc hcf hfront
          exact Or.inl (h1.unique h2 ▸ hm2)
        · exact Or.inr ⟨a₀, ha₀, hfront⟩
    · rw [if_neg hd] at hm ⊢
      obtain ⟨h1, w1, -⟩ := walk_keep h w
      refine reclaimLoop_marked now h1 w1 hl' ?_
      exact hm.imp_left fun hm => hm.setRetiredNext h hc hcf hcr _

/-! ### Whole runs -/

/-- The calls of `free` that a call makes, each with the arena it finds. -/
def Call.frees (a : Arena) : Call → List (Arena × Nat)
  | .free p => [(a, p)]
  | .retire p _ =>
    if !a.ok ∨ p = 0 then []
    else if a.isFree (sub32 p HDR) ≠ 0 then []
    else if a.size (sub32 p HDR) < HDR + RETIRED_BYTES + FTR then [(a, p)]
    else []
  | .reclaim now =>
    if !a.ok then [] else walkFrees now.toNat a.cap { a with retire_head := NIL } a.retire_head NIL
  | _ => []

/-- The call does not hand `p` out, and does not lay the arena out afresh. -/
def Call.Withholds (p : Nat) (w : World) : Call → Prop
  | .init mem len => (w.arena.init mem len).1 = false
  | .alloc n => (w.arena.alloc n).1 ≠ some p
  | .put src => (w.arena.put src).1 ≠ some p
  | _ => True

instance (p : Nat) (w : World) : (c : Call) → Decidable (c.Withholds p w)
  | .init .. => inferInstanceAs (Decidable (_ = _))
  | .alloc _ | .put _ => inferInstanceAs (Decidable (_ ≠ _))
  | .fill .. | .free _ | .retire .. | .reclaim _ => .isTrue trivial

/-- The call gives out nothing that reaches into the header of `p`, nor a header that would. -/
def Call.Leaves (p : Nat) (w : World) : Call → Prop
  | .alloc n => Clears w.arena n p
  | .put src => Clears w.arena src.length p
  | _ => True

instance (p : Nat) (w : World) : (c : Call) → Decidable (c.Leaves p w)
  | .alloc _ | .put _ => inferInstanceAs (Decidable (Clears ..))
  | .init .. | .fill .. | .free _ | .retire .. | .reclaim _ => .isTrue trivial

namespace World
variable {w w' : World} {c : Call}

/-- The header at `off` is marked. -/
def Marks (off : Nat) (w : World) : Prop := ∃ bs fl rl, w.Valid bs fl rl ∧ Marked w.arena bs off

theorem reclaim_marked (h : w.Valid bs fl rl) (now : Nat)
    (hm : Marked w.arena bs off ∨ ∃ a₀, (a₀, off + HDR) ∈ walkFrees now w.arena.cap
      { w.arena with retire_head := NIL } w.arena.retire_head NIL ∧ a₀.frontFree off = false) :
    ∃ bs' fl', Heap (w.arena.reclaim now) bs' fl' ∧ Marked (w.arena.reclaim now) bs' off := by
  rw [Arena.reclaim, if_neg (by simp [h.heap.ctl.ok]), h.list.head]
  rw [h.list.head] at hm
  obtain ⟨bs', fl', h1, hm1⟩ := reclaimLoop_marked now
    (h.heap.of_retire_head NIL) h.list.walk (h.list.length_lt h.heap) (hm.imp_left fun hm => ⟨hm.1, hm.2⟩)
  exact ⟨bs', fl', h1.of_retire_head _, hm1.1, hm1.2⟩

/-- `alloc` and `put` alike. -/
theorem grant_marked (h : Heap w.arena bs fl) (hm : Marked w.arena bs off) (n : Nat) (bytes : Bytes)
    {r : Option Nat × Arena} (hlen : bytes.length + HDR + FTR ≤ wantOf n)
    (hr : r = (none, w.arena) ∨ ∃ p a', Allocates w.arena bs (wantOf n) p a' ∧ FirstFit w.arena n p a' ∧
      Served fl w.arena n p a' ∧ r = (some p, { a' with mem := a'.mem.write p bytes }))
    (hp : r.1 ≠ some (off + HDR)) (hc : Clears w.arena n (off + HDR)) :
    ∃ bs' fl', Heap (w.grant r).arena bs' fl' ∧ Marked (w.grant r).arena bs' off := by
  rcases hr with rfl | ⟨p, a', ha, hfit, hs, rfl⟩
  · exact ⟨bs, fl, h, hm⟩
  · obtain ⟨bs', fl', h1, hm1, c, hcm, hcf, rfl, hsize⟩ :=
      hm.alloc h ha hfit hs (fun e => hp (congrArg some e)) hc
    have hcb := h1.tiles.bounds c hcm
    simp only [HDR, FTR, MIN_BLOCK] at hlen hcb
    have hroom : c.off + HDR + bytes.length ≤ c.stop - FTR := by
      simp only [HDR, FTR, Block.stop]
      omega
    exact ⟨bs', fl', (h1.write_payload hcm hcf _ bytes (Nat.le_refl _) hroom rfl).1,
      hm1.write h1 hcm hcf (Nat.le_refl _) hroom rfl⟩

theorem free_marked (h : w.Valid bs fl rl) (hm : Marked w.arena bs off) {p : Nat} (hp : p ∈ w.live) :
    ∃ bs' fl', Heap (w.arena.free p) bs' fl' ∧ Marked (w.arena.free p) bs' off := by
  obtain ⟨b, hb, hf, -, rfl⟩ := h.block hp
  exact hm.free_other h.heap hb hf

/-- One call keeps what is marked. -/
theorem marked_step (h : w.Valid bs fl rl) (hm : Marked w.arena bs off) (hs : w.step c = some w')
    (hw : c.Withholds (off + HDR) w) (hl : c.Leaves (off + HDR) w) :
    ∃ bs' fl', Heap w'.arena bs' fl' ∧ Marked w'.arena bs' off := by
  simp only [step, Option.ite_none_right_eq_some, Option.some.injEq] at hs
  obtain ⟨hc, rfl⟩ := hs
  cases c with
  | init mem len =>
    have hinit : (w.arena.init mem len).1 = false := hw
    rw [apply, if_neg (by simp [hinit]), init_failed hinit]
    exact ⟨bs, fl, h.heap, hm⟩
  | alloc n =>
    have hmin := min_le_wantOf n
    simp only [MIN_BLOCK] at hmin
    refine grant_marked h.heap hm n [] (by simp only [HDR, FTR, List.length_nil]; omega) ?_ hw hl
    rcases alloc_cases h.heap n with ⟨e, -⟩ | ⟨p, a', e, ha, hfit, -, hs⟩
    · exact Or.inl e
    · exact Or.inr ⟨p, a', ha, hfit, hs, by rw [e, Mem.write_nil]⟩
  | put src =>
    refine grant_marked h.heap hm src.length src (le_wantOf hc) ?_ hw hl
    rcases alloc_cases h.heap src.length with ⟨e, -⟩ | ⟨p, a', e, ha, hfit, -, hs⟩
    · exact Or.inl (by rw [Arena.put, e])
    · exact Or.inr ⟨p, a', ha, hfit, hs, by rw [Arena.put, e]⟩
  | fill p i bytes =>
    obtain ⟨h1, -⟩ := valid_fill h hc.1 hc.2 rfl
    obtain ⟨b, hb, hf, -, rfl⟩ := h.block hc.1
    have hlen := hc.2
    have hbb := h.heap.tiles.bounds b hb
    rw [Nat.add_sub_cancel, h.heap.size_eq hb] at hlen
    simp only [HDR, FTR, MIN_BLOCK] at hlen hbb
    refine ⟨bs, fl, h1.heap, hm.write h.heap hb hf (Nat.le_add_right _ i) ?_ rfl⟩
    simp only [HDR, FTR, Block.stop]
    omega
  | free p =>
    rcases hc with rfl | hp
    · rw [apply, Arena.free, if_pos (Or.inr rfl)]
      exact ⟨bs, fl, h.heap, hm⟩
    · exact free_marked h hm hp
  | retire p now =>
    rcases hc with rfl | hp
    · rw [apply, Arena.retire, if_pos (Or.inr rfl)]
      exact ⟨bs, fl, h.heap, hm⟩
    · obtain ⟨b, hb, hf, hbr, rfl⟩ := h.block hp
      by_cases hr : b.size < HDR + RETIRED_BYTES + FTR
      · rw [apply, retire_small h.heap hb hf hr]
        exact free_marked h hm hp
      · obtain ⟨h1, -, -, -, hbytes⟩ := retire_spec h.heap h.list hb hf hbr (Nat.le_of_not_lt hr) now.toNat_lt
        refine ⟨bs, fl, h1, hm.same fun i h3 h4 => hbytes i ?_⟩
        have hout := hm.outside h.heap hb hf
        simp only [HDR, MIN_BLOCK, RETIRED_BYTES, FTR, Block.stop] at *
        omega
  | reclaim now => exact reclaim_marked h now.toNat (Or.inl hm)

theorem marks_step (h : w.Marks off) (hc : c.Withholds (off + HDR) w ∧ c.Leaves (off + HDR) w)
    (hs : w.step c = some w') : w'.Marks off := by
  obtain ⟨bs, fl, rl, hv, hm⟩ := h
  obtain ⟨bs', fl', rl', hv', -⟩ := valid_step hv hs
  obtain ⟨bs₁, fl₁, h1, hm1⟩ := marked_step hv hm hs hc.1 hc.2
  exact ⟨bs', fl', rl', hv', hv'.heap.unique h1 ▸ hm1⟩

/-- A block that a call frees with no free block in front of it is marked. -/
theorem marks_freed {a₀ : Arena} {p : Nat} (h : w.Valid bs fl rl) (hs : w.step c = some w')
    (hp : (a₀, p) ∈ c.frees w.arena) (h0 : p ≠ 0) (hfront : a₀.frontFree (p - HDR) = false) :
    w'.Marks (p - HDR) ∧ HDR ≤ p := by
  obtain ⟨bs', fl', rl', hv', -⟩ := valid_step h hs
  have key : HDR ≤ p ∧ ∃ bs₁ fl₁, Heap w'.arena bs₁ fl₁ ∧ Marked w'.arena bs₁ (p - HDR) := by
    simp only [step, Option.ite_none_right_eq_some, Option.some.injEq] at hs
    obtain ⟨hc, rfl⟩ := hs
    cases c with
    | init | alloc | put | fill => simp [Call.frees] at hp
    | free q =>
      obtain ⟨rfl, rfl⟩ : a₀ = w.arena ∧ p = q := by simpa [Call.frees] using hp
      obtain ⟨b, hb, hf, -, rfl⟩ := h.block (hc.resolve_left h0)
      rw [Nat.add_sub_cancel] at hfront ⊢
      exact ⟨Nat.le_add_left .., marked_free h.heap hb hf hfront⟩
    | retire q now =>
      rw [Call.frees] at hp
      split_ifs at hp with h1 h2 h3
      · exact absurd hp List.not_mem_nil
      · exact absurd hp List.not_mem_nil
      · obtain ⟨rfl, rfl⟩ : a₀ = w.arena ∧ p = q := by simpa using hp
        obtain ⟨b, hb, hf, -, rfl⟩ := h.block (hc.resolve_left h0)
        rw [h.heap.off_of_ptr hb, h.heap.size_eq hb] at h3
        rw [Nat.add_sub_cancel] at hfront ⊢
        rw [apply, retire_small h.heap hb hf h3]
        exact ⟨Nat.le_add_left .., marked_free h.heap hb hf hfront⟩
      · exact absurd hp List.not_mem_nil
    | reclaim now =>
      rw [Call.frees, if_neg (by simp [h.heap.ctl.ok])] at hp
      have hle : HDR ≤ p := le_of_mem_walkFrees hp
      refine ⟨hle, reclaim_marked h now.toNat (Or.inr ⟨a₀, ?_, hfront⟩)⟩
      rwa [Nat.sub_add_cancel hle]
  obtain ⟨hle, bs₁, fl₁, h1, hm1⟩ := key
  exact ⟨⟨bs', fl', rl', hv', hv'.heap.unique h1 ▸ hm1⟩, hle⟩

end World

/-- A pointer that is freed while no free block stands in front of its block: as long as it is not
    handed out again and no request cuts into the header it had, freeing it a second time leaves the
    arena as it is. -/
theorem double_free_refused (before after : List Call) (c : Call) (w w₁ w₂ : World) (a₀ : Arena) (p : Nat)
    (hbefore : run World.step {} before = some w) (hstep : w.step c = some w₁)
    (hfreed : (a₀, p) ∈ c.frees w.arena) (hfront : a₀.frontFree (p - HDR) = false)
    (hafter : run World.step w₁ after = some w₂)
    (hwithheld : Along World.step (Call.Withholds p) w₁ after)
    (hleft : Along World.step (Call.Leaves p) w₁ after) : w₂.arena.free p = w₂.arena := by
  by_cases h0 : p = 0
  · rw [h0, free, if_pos (Or.inr rfl)]
  have hok : w.Ok := run_inv (I := World.Ok) (fun _ _ _ h hs => World.ok_step h hs)
    (Or.inl ⟨rfl, rfl⟩) hbefore
  rcases hok with ⟨hok, hlive⟩ | ⟨bs, fl, rl, hv⟩
  · -- without a heap nothing is freed
    have hal : c.Allowed w := by
      simp only [World.step, Option.ite_none_right_eq_some] at hstep
      exact hstep.1
    cases c with
    | init | alloc | put | fill => simp [Call.frees] at hfreed
    | free q =>
      obtain ⟨-, rfl⟩ : a₀ = w.arena ∧ p = q := by simpa [Call.frees] using hfreed
      have hq : p = 0 ∨ p ∈ w.live := hal
      rw [hlive] at hq
      simp [h0] at hq
    | retire | reclaim => simp [Call.frees, hok] at hfreed
  · obtain ⟨hm, hle⟩ := World.marks_freed hv hstep hfreed h0 hfront
    have hp : p - HDR + HDR = p := Nat.sub_add_cancel hle
    have hboth : Along World.step (fun w c => c.Withholds (p - HDR + HDR) w ∧ c.Leaves (p - HDR + HDR) w)
        w₁ after := by
      rw [hp]
      exact hwithheld.and hleft
    obtain ⟨bs', fl', rl', hv', hm'⟩ := run_inv_along (I := World.Marks (p - HDR))
      (fun _ _ _ h hc hs => World.marks_step h hc hs) hm hboth hafter
    have := hm'.refused hv'.heap
    rwa [hp] at this

/-- The first of two neighbours is freed last, and a request is then cut off in front of the other. -/
theorem double_free_refused_sample :
    ∃ w w₁ w₂, run World.step {} [.init (some fun _ => 0) 300, .alloc 8, .alloc 8, .alloc 8] = some w ∧
      w.step (.free 112) = some w₁ ∧ run World.step w₁ [.free 80, .alloc 8] = some w₂ ∧
      w₂.arena.free 112 = w₂.arena := by
  have h : ((run World.step {} [.init (some fun _ => 0) 300, .alloc 8, .alloc 8, .alloc 8]).bind fun w =>
      (w.step (.free 112)).bind fun w₁ => (run World.step w₁ [.free 80, .alloc 8]).map fun _ =>
        (w.arena.frontFree 96, decide (Along World.step (Call.Withholds 112) w₁ [.free 80, .alloc 8]),
          decide (Along World.step (Call.Leaves 112) w₁ [.free 80, .alloc 8]))) =
      some (false, true, true) := by decide +kernel
  obtain ⟨w, hw, h⟩ := Option.bind_eq_some_iff.mp h
  obtain ⟨w₁, h₁, h⟩ := Option.bind_eq_some_iff.mp h
  obtain ⟨w₂, h₂, h⟩ := Option.map_eq_some_iff.mp h
  simp only [Prod.mk.injEq, decide_eq_true_eq] at h
  exact ⟨w, w₁, w₂, hw, h₁, h₂, double_free_refused _ _ (.free 112) w w₁ w₂ w.arena 112 hw h₁
    (List.mem_singleton.mpr rfl) h.1 h₂ h.2.1 h.2.2⟩

/-- Freed behind a free block, the pointer is not known as free: the second `free` takes what its old
    header says off `used` once more. -/
theorem double_free_accepted :
    ∃ w w₁, run World.step {} [.init (some fun _ => 0) 300, .alloc 8, .alloc 8, .free 80] = some w ∧
      112 ∈ w.live ∧ w.step (.free 112) = some w₁ ∧ w₁.arena.used = 0 ∧
      (w₁.arena.free 112).used = 2 ^ 64 - 184 ∧ w₁.arena.free 112 ≠ w₁.arena := by
  have h : ((run World.step {} [.init (some fun _ => 0) 300, .alloc 8, .alloc 8, .free 80]).bind fun w =>
      (w.step (.free 112)).map fun w₁ => (w.live, w₁.arena.used, (w₁.arena.free 112).used)) =
      some ([112], 0, 2 ^ 64 - 184) := by decide +kernel
  obtain ⟨w, hw, h⟩ := Option.bind_eq_some_iff.mp h
  obtain ⟨w₁, h₁, h⟩ := Option.map_eq_some_iff.mp h
  simp only [Prod.mk.injEq] at h
  refine ⟨w, w₁, hw, by simp [h.1], h₁, h.2.1, h.2.2, ?_⟩
  intro e
  have hused := h.2.2
  rw [e, h.2.1] at hused
  exact absurd hused (by decide)

end Barnacle.Arena
