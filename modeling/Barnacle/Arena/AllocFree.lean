import Barnacle.Arena.Heap

/-! `alloc`, `put` and `free` as moves on the gap: each keeps the heap invariant, changes the blocks
    in use by exactly its own block, and leaves every byte of the others alone. -/

namespace Barnacle.Arena
open Barnacle.Lib

variable {a : Arena} {pre post bs : List Block} {b c : Block} {fl : List Nat}

/-! ### Coalescing -/

theorem add32_eq {x y : Nat} (h : x + y < 2 ^ 32) : add32 x y = x + y := Nat.mod_eq_of_lt h

theorem sub32_eq {x y : Nat} (h : y ≤ x) (hx : x < 2 ^ 32) : sub32 x y = x - y := by
  simp only [sub32]; omega

theorem toNat_ne_zero {f : Bool} : f.toNat ≠ 0 ↔ f = true := by cases f <;> simp

/-- What `unlink` writes, whatever else is written. -/
theorem unlink_writes {gap : List Block} (h : HeapBut a pre gap post fl) (hb : b ∈ pre ++ post)
    (hf : b.free = true) : LinksOnly fl a (a.unlink b.off) := by
  obtain ⟨-, hm⟩ := h.linked.unlink ((h.listed _).mpr ⟨b, hb, hf, rfl⟩)
  exact fun i hi => hm i fun x hx => hi x (List.mem_of_mem_erase hx)

theorem LinksOnly.setSize {a a' : Arena} {l : List Nat} (h : LinksOnly l a a') (x v : Nat) :
    Writes l (fun i => x ≤ i ∧ i < x + 4) a (a'.setSize x v) := by
  intro i hi hx
  rw [mem_setSize]
  exact (Mem.put_out _ (by omega)).trans (h i hx)

/-- The size of the one block of the gap is put in its header. -/
theorem HeapBut.setSize_gap {o n : Nat} (h : HeapBut a pre [⟨o, n, false⟩] post fl) :
    HeapBut (a.setSize o n) pre [⟨o, n, false⟩] post fl ∧ (a.setSize o n).size o = n ∧
      Keeps (pre ++ post) a (a.setSize o n) := by
  have hb := h.bounds (b := ⟨o, n, false⟩) (by simp)
  simp only at hb
  obtain ⟨h', hk⟩ := h.inside (setSize_sameCtl a o n) (free_head_setSize a o n) fun i hi => by
    have := hi _ (List.mem_singleton_self _)
    simp only [Block.stop] at this
    rw [mem_setSize]
    exact Mem.put_out _ (by omega)
  exact ⟨h', size_setSize _ _ (by norm_num; omega), hk⟩

/-- A block of the gap swallows the free block after it; the header is the only byte written. -/
theorem merge_after {nb : Block} (h : HeapBut a pre [c] (nb :: post) fl) (hf : nb.free = true)
    (hsz : a.size c.off = c.size) {a' : Arena}
    (ha' : a' = (a.unlink nb.off).setSize c.off
      (add32 ((a.unlink nb.off).size c.off) ((a.unlink nb.off).size nb.off))) :
    HeapBut a' pre [⟨c.off, c.size + nb.size, false⟩] post (fl.erase nb.off) ∧
    a'.size c.off = c.size + nb.size ∧ SameCtl a a' ∧ Keeps (pre ++ post) a a' ∧
    Writes fl (fun i => c.off ≤ i ∧ i < c.off + 4) a a' := by
  have hcm : c ∈ [c] := by simp
  have hcf := h.taken c hcm
  obtain ⟨hs, hk, hsh, -, -, -⟩ := h.unlink_rest (p := pre) (q := post) rfl hf
  have hlinks := unlink_writes h (b := nb) (by simp) hf
  have ht := h.tiles
  rw [List.singleton_append] at ht
  obtain ⟨-, -, ho, hn, ht3⟩ := ht.mid
  have hc := h.bounds (HeapBut.mem_gap hcm)
  have hb := h.bounds (b := nb) (by simp)
  have e1 : (a.unlink nb.off).size c.off = c.size :=
    (hk.get (HeapBut.mem_gap hcm) hcf (Nat.le_refl _) (by rw [Block.stop]; omega)).trans hsz
  have e2 : (a.unlink nb.off).size nb.off = nb.size := (hsh nb (by simp)).size
  simp only [Block.stop] at ho
  rw [e1, e2, add32_eq (by omega)] at ha'
  have h2 := (h.take_next hf).regap [⟨c.off, c.size + nb.size, false⟩] (by simp)
    (by simp) (by simp) (fun lo hi ht => by
      simp only [List.singleton_append, Tiles] at ht ⊢
      exact ⟨ht.1, by omega, by omega⟩)
  obtain ⟨h3, hsize, hk3⟩ := h2.setSize_gap
  rw [← ha'] at h3 hsize hk3
  have hsub : inUse (pre ++ post) ⊆ inUse (pre ++ ([c] ++ (nb :: post))) := by
    simp only [inUse_append, inUse_cons_free _ hf]
    exact List.append_subset.mpr ⟨List.subset_append_left .., fun x hx => by simp [hx]⟩
  refine ⟨h3, hsize, ?_, (hk.of_inUse hsub).trans hk3, ?_⟩
  · rw [ha']; exact hs.trans (setSize_sameCtl ..)
  · rw [ha']; exact hlinks.setSize _ _

/-- The free block before a block of the gap swallows it. -/
theorem merge_before {pb : Block} (h : HeapBut a (pre ++ [pb]) [c] post fl) (hf : pb.free = true)
    (hsz : a.size c.off = c.size) {a' : Arena}
    (ha' : a' = (a.unlink pb.off).setSize pb.off
      (add32 ((a.unlink pb.off).size pb.off) ((a.unlink pb.off).size c.off))) :
    HeapBut a' pre [⟨pb.off, pb.size + c.size, false⟩] post (fl.erase pb.off) ∧
    a'.size pb.off = pb.size + c.size ∧ SameCtl a a' ∧ Keeps (pre ++ post) a a' ∧
    Writes fl (fun i => pb.off ≤ i ∧ i < pb.off + 4) a a' := by
  have hcm : c ∈ [c] := by simp
  have hcf := h.taken c hcm
  obtain ⟨hs, hk, hsh, -, -, -⟩ := h.unlink_rest (p := pre) (q := post) (by simp) hf
  have hlinks := unlink_writes h (b := pb) (by simp) hf
  have ht := h.tiles
  rw [List.singleton_append] at ht
  have ho := ht.mid.1.last
  have hc := h.bounds (HeapBut.mem_gap hcm)
  have hb := h.bounds (b := pb) (by simp)
  have e1 : (a.unlink pb.off).size c.off = c.size :=
    (hk.get (HeapBut.mem_gap hcm) hcf (Nat.le_refl _) (by rw [Block.stop]; omega)).trans hsz
  have e2 : (a.unlink pb.off).size pb.off = pb.size := (hsh pb (by simp)).size
  simp only [Block.stop] at ho
  rw [e1, e2, add32_eq (by omega)] at ha'
  have h2 := (h.take_prev hf).regap [⟨pb.off, pb.size + c.size, false⟩] (by simp)
    (by simp) (by simp) (fun lo hi ht => by
      simp only [Tiles] at ht ⊢
      exact ⟨ht.1, by omega, by omega⟩)
  obtain ⟨h3, hsize, hk3⟩ := h2.setSize_gap
  rw [← ha'] at h3 hsize hk3
  have hsub : inUse (pre ++ post) ⊆ inUse ((pre ++ [pb]) ++ ([c] ++ post)) := by
    simp only [inUse_append]
    exact List.append_subset.mpr ⟨fun x hx => by simp [hx], fun x hx => by simp [hx]⟩
  refine ⟨h3, hsize, ?_, (hk.of_inUse hsub).trans hk3, ?_⟩
  · rw [ha']; exact hs.trans (setSize_sameCtl ..)
  · rw [ha']; exact hlinks.setSize _ _

/-- After the forward merge the block after the gap is not free. -/
theorem mergeNext_spec (h : HeapBut a pre [c] post fl) (hsz : a.size c.off = c.size) :
    ∃ c' post' fl', HeapBut (a.mergeNext c.off) pre [c'] post' fl' ∧ c'.off = c.off ∧
      c.stop ≤ c'.stop ∧
      (a.mergeNext c.off).size c.off = c'.size ∧ (∀ x ∈ post'.head?, x.free = false) ∧
      inUse post' = inUse post ∧ SameCtl a (a.mergeNext c.off) ∧
      Keeps (pre ++ post) a (a.mergeNext c.off) ∧ fl' ⊆ fl ∧
      Writes fl (fun i => c.off ≤ i ∧ i < c.off + 4) a (a.mergeNext c.off) := by
  have hc := h.bounds (b := c) (by simp)
  have ht := h.tiles
  rw [List.singleton_append] at ht
  have h3 := ht.mid.2.2
  have hafter : add32 c.off (a.size c.off) = c.stop := by
    rw [hsz, add32_eq (by omega), Block.stop]
  cases post with
  | nil =>
    have hstop : c.stop = a.heap_end := h3
    have e : a.mergeNext c.off = a := by
      rw [mergeNext]
      simp only [hafter]
      rw [if_neg fun hh => absurd hh.1 (by omega)]
    rw [e]
    exact ⟨c, [], fl, h, rfl, Nat.le_refl _, hsz, by simp, rfl, .refl a, .refl _ a, fun _ hx => hx,
      .same rfl⟩
  | cons nb post =>
    have hnb := h.bounds (b := nb) (by simp)
    have hoff : nb.off = c.stop := h3.1
    have hflag : a.isFree nb.off = nb.free.toNat := (h.shape nb (by simp)).flag
    have hin : c.stop < a.heap_end := by rw [← hoff]; omega
    by_cases hf : nb.free = true
    · have e : a.mergeNext c.off = (a.unlink nb.off).setSize c.off
          (add32 ((a.unlink nb.off).size c.off) ((a.unlink nb.off).size nb.off)) := by
        rw [mergeNext]
        simp only [hafter]
        rw [if_pos ⟨hin, by rw [← hoff, hflag]; exact toNat_ne_zero.mpr hf⟩, ← hoff]
      obtain ⟨h4, h5, h6, h7, h8⟩ := merge_after h hf hsz e
      refine ⟨_, _, _, h4, rfl, by simp only [Block.stop]; omega, h5, ?_,
        (inUse_cons_free _ hf).symm, h6, h7.of_inUse ?_, List.erase_subset, h8⟩
      · have hco := h.coalesced
        rw [← List.append_assoc, coalesced_mid] at hco
        exact (hco.2.2 hf).2
      · simp [inUse_cons_free _ hf]
    · have e : a.mergeNext c.off = a := by
        rw [mergeNext]
        simp only [hafter]
        rw [if_neg fun hh => hf (toNat_ne_zero.mp (by rw [← hflag, hoff]; exact hh.2))]
      rw [e]
      exact ⟨c, nb :: post, fl, h, rfl, Nat.le_refl _, hsz, by simpa using hf, rfl, .refl a,
        .refl _ a, fun _ hx => hx, .same rfl⟩

/-- The block in front is found through its footer. -/
theorem Shape.prev_off {m : Mem} (h : Shape m b) {off : Nat} (hstop : b.stop = off) (hlt : off < 2 ^ 32) :
    sub32 off (m.get (off - FTR) 4) = b.off := by
  have hft := h.foot
  rw [show b.off + b.size = off from hstop] at hft
  rw [hft, sub32_eq (by rw [← hstop, Block.stop]; omega) hlt, ← hstop, Block.stop, Nat.add_sub_cancel]

/-- After the backward merge the block before the gap is not free. -/
theorem mergePrev_spec (h : HeapBut a pre [c] post fl) (hsz : a.size c.off = c.size) :
    ∃ pre' c' fl', HeapBut (a.mergePrev c.off).1 pre' [c'] post fl' ∧
      (a.mergePrev c.off).2 = c'.off ∧ c'.off ≤ c.off ∧ c'.stop = c.stop ∧
      (a.mergePrev c.off).1.size c'.off = c'.size ∧
      (∀ x ∈ pre'.getLast?, x.free = false) ∧ inUse pre' = inUse pre ∧
      SameCtl a (a.mergePrev c.off).1 ∧ Keeps (pre ++ post) a (a.mergePrev c.off).1 ∧ fl' ⊆ fl ∧
      Writes fl (fun i => c'.off ≤ i ∧ i < c'.off + 4) a (a.mergePrev c.off).1 := by
  have hc := h.bounds (b := c) (by simp)
  have ht := h.tiles
  rw [List.singleton_append] at ht
  have h1 := ht.mid.1
  cases pre using List.reverseRecOn with
  | nil =>
    have e : a.mergePrev c.off = (a, c.off) := by
      rw [mergePrev, if_neg (by rw [show a.heap = c.off from h1]; omega)]
    rw [e]
    exact ⟨[], c, fl, h, rfl, Nat.le_refl _, rfl, hsz, by simp, rfl, .refl a, .refl _ a,
      fun _ hx => hx, .same rfl⟩
  | append_singleton pre pb _ =>
    have hpb := h.bounds (b := pb) (by simp)
    have hsh := h.shape pb (by simp)
    have hstop : pb.stop = c.off := h1.last
    have hflag : a.isFree pb.off = pb.free.toNat := hsh.flag
    have hgt : c.off > a.heap := by rw [h.ctl.heap, BNCL_CTL_BYTES, ← hstop, Block.stop]; omega
    have hprev := hsh.prev_off hstop (by omega)
    have hge : pb.off ≥ a.heap := by rw [h.ctl.heap]; exact hpb.1
    by_cases hf : pb.free = true
    · have e : a.mergePrev c.off = ((a.unlink pb.off).setSize pb.off
          (add32 ((a.unlink pb.off).size pb.off) ((a.unlink pb.off).size c.off)), pb.off) := by
        rw [mergePrev, if_pos hgt]
        simp only [hprev]
        rw [if_pos ⟨hge, by rw [hflag]; exact toNat_ne_zero.mpr hf⟩]
      obtain ⟨h4, h5, h6, h7, h8⟩ := merge_before h hf hsz rfl
      rw [e]
      simp only [Block.stop] at hstop
      refine ⟨_, _, _, h4, rfl, show pb.off ≤ c.off by omega,
        show pb.off + (pb.size + c.size) = c.off + c.size by omega, h5, ?_, ?_, h6, h7.of_inUse ?_,
        List.erase_subset, h8⟩
      · have hco := h.coalesced
        rw [List.append_assoc, List.singleton_append, coalesced_mid] at hco
        exact (hco.2.2 hf).1
      · rw [inUse_append, inUse_cons_free _ hf, inUse_nil, List.append_nil]
      · simp [inUse_cons_free _ hf]
    · have e : a.mergePrev c.off = (a, c.off) := by
        rw [mergePrev, if_pos hgt]
        simp only [hprev]
        rw [if_neg fun hh => hf (toNat_ne_zero.mp (by rw [← hflag]; exact hh.2))]
      rw [e]
      exact ⟨pre ++ [pb], c, fl, h, rfl, Nat.le_refl _, rfl, hsz, by simpa using hf, rfl, .refl a,
        .refl _ a, fun _ hx => hx, .same rfl⟩

/-- `free` of a block in use: the others stay as they are, byte for byte, and the free list now begins
    with a block that covers it. Besides links it writes headers and the footer of that block. -/
theorem free_spec (h : Heap a (pre ++ b :: post) fl) (hf : b.free = false) :
    ∃ bs' fl', Heap (a.free (b.off + HDR)) bs' fl' ∧ inUse bs' = inUse (pre ++ post) ∧
      (a.free (b.off + HDR)).retire_head = a.retire_head ∧ (a.free (b.off + HDR)).cap = a.cap ∧
      Keeps (pre ++ post) a (a.free (b.off + HDR)) ∧
      ∃ c ∈ bs', c.free = true ∧ (a.free (b.off + HDR)).free_head = c.off ∧ c.off ≤ b.off ∧
        b.stop ≤ c.stop ∧
        Writes fl (fun i => (b.off ≤ i ∧ i < b.off + 4) ∨ (c.off ≤ i ∧ i < c.off + HDR) ∨
          (c.stop - FTR ≤ i ∧ i < c.stop)) a (a.free (b.off + HDR)) := by
  have hsz : a.size b.off = b.size := (h.shape b (by simp)).size
  have hflag : a.isFree b.off = 0 := by
    have := (h.shape b (by simp)).flag
    rwa [hf] at this
  obtain ⟨a₀, ha₀⟩ : ∃ x : Arena, x = { a with used := sub64 a.used (a.payload b.off) } := ⟨_, rfl⟩
  have hmem : a₀.mem = a.mem := by rw [ha₀]
  have h0 : HeapBut a₀ pre [b] post fl := ha₀ ▸ HeapBut.take_live h hf
  obtain ⟨-, -, hb3, hb4⟩ := h0.bounds (b := b) (by simp)
  have hoff : sub32 (b.off + HDR) HDR = b.off := by
    have := h0.bounds (b := b) (by simp)
    simp only [HDR]
    rw [sub32_eq (by omega) (by omega)]; omega
  obtain ⟨c', post', fl₁, h1, ho1, hst1, hs1, hn1, hu1, hc1, hk1, hsub1, hw1⟩ :=
    mergeNext_spec h0 (by rw [size, hmem]; exact hsz)
  have hs1 : (a₀.mergeNext b.off).size c'.off = c'.size := by rw [ho1]; exact hs1
  obtain ⟨pre', c'', fl₂, h2, ho2, hle2, hst2, hs2, hn2, hu2, hc2, hk2, hsub2, hw2⟩ := mergePrev_spec h1 hs1
  obtain ⟨h3, hc3, hk3, hw3⟩ := h2.give_free [] hs2 hn1 (fun _ => hn2)
  have e : a.free (b.off + HDR) =
      (((a₀.mergeNext b.off).mergePrev c'.off).1.linkFront c''.off).setFoot c''.off := by
    rw [free, if_neg (by simp [h.ctl.ok, HDR])]
    simp only [hoff, hflag]
    rw [if_neg (by simp), ← ho2, ho1, ha₀]
  rw [e]
  have h4 := heapBut_nil.mp h3
  refine ⟨_, _, h4, ?_, ?_, ?_, ?_, ⟨c''.off, c''.size, true⟩, by simp, rfl, h4.linked.head,
    ho1 ▸ hle2, ?_, ?_⟩
  · simp [inUse_cons_free, hu1, hu2]
  · rw [hc3.retire_head, hc2.retire_head, hc1.retire_head, ha₀]
  · rw [hc3.cap, hc2.cap, hc1.cap, ha₀]
  · have k0 : Keeps (pre ++ post) a a₀ := fun _ _ _ _ _ _ => by rw [hmem]
    have k2 : Keeps (pre ++ post) _ _ := hk2.of_inUse (by simp [hu1])
    have k3 : Keeps (pre ++ post) _ _ := hk3.of_inUse (by simp [hu1, hu2])
    exact ((k0.trans hk1).trans k2).trans k3
  · exact hst1.trans (Nat.le_of_eq hst2.symm)
  · have hw0 : Writes fl (fun i => b.off ≤ i ∧ i < b.off + 4) a (a₀.mergeNext b.off) := fun i hi hx =>
      (hw1 i hi hx).trans (by rw [hmem])
    have hall := (hw0.trans hw2 hsub1).trans hw3 fun x hx => hsub1 (hsub2 hx)
    refine hall.mono fun i hi => ?_
    simp only [Block.stop, HDR, FTR] at hi ⊢
    omega

/-! ### First fit -/

theorem fit_list {want : Nat} : ∀ {fuel p : Nat} {l : List Nat}, DList a.next a.prev p l → NIL ∉ l →
    l.length < fuel →
    (a.fit want fuel (l.headD NIL) = none ∧ ∀ x ∈ l, a.size x < want) ∨
    ∃ x ∈ l, a.fit want fuel (l.headD NIL) = some x ∧ want ≤ a.size x
  | 0, _, _, _, _, hl => absurd hl (Nat.not_lt_zero _)
  | fuel + 1, _, [], _, _, _ => Or.inl ⟨rfl, by simp⟩
  | fuel + 1, p, x :: xs, ⟨_, hn, hd⟩, h0, hl => by
    have hx : x ≠ NIL := fun e => h0 (by simp [e])
    rw [List.headD_cons, fit, if_neg hx]
    by_cases hlt : a.size x < want
    · rw [if_pos hlt, hn]
      have hl' : xs.length < fuel := by simpa using hl
      rcases fit_list hd (fun hm => h0 (by simp [hm])) hl' with ⟨h1, h2⟩ | ⟨y, hy, h1, h2⟩
      · exact Or.inl ⟨h1, by simpa [hlt] using h2⟩
      · exact Or.inr ⟨y, by simp [hy], h1, h2⟩
    · rw [if_neg hlt]
      exact Or.inr ⟨x, by simp, rfl, by omega⟩

/-- The walk never runs out of fuel: there are fewer blocks than bytes. -/
theorem Heap.length_lt (h : Heap a bs fl) : fl.length < a.cap := by
  have h1 := h.tiles.length_le
  rw [h.ctl.heap_end, h.ctl.heap] at h1
  simp only [MIN_BLOCK, BNCL_CTL_BYTES] at h1
  have h2 : fl ⊆ bs.map Block.off := fun x hx => by
    obtain ⟨b, hb, -, rfl⟩ := (h.listed x).mp hx
    exact List.mem_map_of_mem hb
  have h3 := (List.subperm_of_subset h.linked.nodup h2).length_le
  rw [List.length_map] at h3
  omega

/-- First fit finds a free block that is large enough, if there is one. -/
theorem fit_spec (h : Heap a bs fl) (want : Nat) :
    (a.fit want a.cap a.free_head = none ∧ ∀ b ∈ bs, b.free = true → b.size < want) ∨
    ∃ b ∈ bs, b.free = true ∧ a.fit want a.cap a.free_head = some b.off ∧ want ≤ b.size := by
  rw [h.linked.head]
  rcases fit_list h.linked.links h.linked.pos h.length_lt with ⟨h1, h2⟩ | ⟨x, hx, h1, h2⟩
  · refine Or.inl ⟨h1, fun b hb hf => ?_⟩
    have := h2 b.off ((h.listed _).mpr ⟨b, hb, hf, rfl⟩)
    rwa [size, (h.shape b hb).size] at this
  · obtain ⟨b, hb, hf, rfl⟩ := (h.listed x).mp hx
    rw [size, (h.shape b hb).size] at h2
    exact Or.inr ⟨b, hb, hf, h1, h2⟩

/-! ### Splitting -/

theorem split_spec {want : Nat} (h : HeapBut a pre [c] post fl) (hsz : a.size c.off = c.size)
    (hw : MIN_BLOCK ≤ want) (hrest : want + MIN_BLOCK ≤ c.size)
    (hpost : ∀ x ∈ post.head?, x.free = false) :
    HeapBut (a.split c.off want) pre [⟨c.off, want, false⟩]
      (⟨c.off + want, c.size - want, true⟩ :: post) ((c.off + want) :: fl) ∧
    (a.split c.off want).size c.off = want ∧
    (a.split c.off want).mem.get (c.off + want - FTR) 4 = want ∧
    SameCtl a (a.split c.off want) ∧ Keeps (pre ++ post) a (a.split c.off want) ∧
    Writes fl (fun i => (c.off ≤ i ∧ i < c.off + want + HDR) ∨ (c.stop - FTR ≤ i ∧ i < c.stop)) a
      (a.split c.off want) := by
  simp only [MIN_BLOCK] at hw hrest
  obtain ⟨hb1, hb2, hb3, hb4⟩ := h.bounds (b := c) (by simp)
  have hr : add32 c.off want = c.off + want := add32_eq (by omega)
  have hs : sub32 (a.size c.off) want = c.size - want := by rw [hsz, sub32_eq (by omega) (by omega)]
  -- cut the gap in two and size the second part
  have h1 := h.regap ([⟨c.off, want, false⟩] ++ [⟨c.off + want, c.size - want, false⟩])
    (by simp) (by simp) (by simp) fun lo hi ht => by
      simp only [Tiles, List.singleton_append, MIN_BLOCK] at ht ⊢
      omega
  obtain ⟨a₁, ha₁⟩ : ∃ x, x = a.setSize (c.off + want) (c.size - want) := ⟨_, rfl⟩
  have hsame1 : SameCtl a a₁ := ha₁ ▸ setSize_sameCtl ..
  obtain ⟨h2, hk2⟩ := h1.inside hsame1 (by rw [ha₁, free_head_setSize]) fun i hi => by
    have := hi ⟨c.off + want, c.size - want, false⟩ (by simp)
    simp only [Block.stop] at this
    rw [ha₁, mem_setSize]
    exact Mem.put_out _ (by omega)
  -- the second part becomes a free block
  obtain ⟨h3, hsame3, hk3, hw3⟩ := h2.give_free _ (c := ⟨c.off + want, c.size - want, false⟩)
    (by rw [ha₁]; exact size_setSize _ _ (by norm_num; omega)) hpost (by simp)
  dsimp only at h3 hsame3 hk3
  obtain ⟨a₂, ha₂⟩ : ∃ x, x = (a₁.linkFront (c.off + want)).setFoot (c.off + want) := ⟨_, rfl⟩
  rw [← ha₂] at h3 hsame3 hk3 hw3
  -- and the first part takes its new size and footer
  obtain ⟨a₃, ha₃⟩ : ∃ x, x = a₂.setSize c.off want := ⟨_, rfl⟩
  have hsz3 : a₃.size c.off = want := by rw [ha₃]; exact size_setSize _ _ (by norm_num; omega)
  have hm4 : (a₃.setFoot c.off).mem = a₃.mem.put (c.off + want - FTR) 4 want := by
    rw [mem_setFoot, hsz3]
  have e : a.split c.off want = a₃.setFoot c.off := by
    simp only [split, hr, hs]
    rw [ha₃, ha₂, ha₁]
  have hsame4 : SameCtl a₂ (a₃.setFoot c.off) :=
    (ha₃ ▸ setSize_sameCtl a₂ c.off want).trans (setFoot_sameCtl ..)
  obtain ⟨h5, hk5⟩ := h3.inside hsame4 (by rw [free_head_setFoot, ha₃, free_head_setSize])
    fun i hi => by
      have := hi ⟨c.off, want, false⟩ (by simp)
      simp only [Block.stop] at this
      rw [hm4, ha₃, mem_setSize]
      exact (Mem.put_out _ (by simp only [FTR]; omega)).trans (Mem.put_out _ (by omega))
  rw [e]
  refine ⟨h5, ?_, by rw [hm4]; exact Mem.get_put _ (by norm_num; omega),
    (hsame1.trans hsame3).trans hsame4, ?_, fun i hi hx => ?_⟩
  · rw [size, hm4]
    exact (Mem.get_put_of_disjoint _ (by simp only [FTR]; omega)).trans hsz3
  · have k3 : Keeps (pre ++ post) _ _ := hk3.of_inUse fun x hx => by
      simp only [inUse_append, List.mem_append] at hx ⊢
      rcases hx with hx | hx <;> simp [hx]
    have k5 : Keeps (pre ++ post) _ _ := hk5.of_inUse (by simp [inUse_cons_free])
    exact (hk2.trans k3).trans k5
  · simp only [Block.stop, FTR, HDR] at hi
    rw [hm4, ha₃, mem_setSize, Mem.put_out _ (by simp only [FTR]; omega), Mem.put_out _ (by omega),
      hw3 i (by simp only [Block.stop, FTR, HDR]; omega) hx, ha₁, mem_setSize]
    exact Mem.put_out _ (by omega)

/-! ### Allocation -/

/-- What a successful `alloc` does: a free block, or the front of one, comes into use. -/
structure Allocates (a : Arena) (bs : List Block) (want p : Nat) (a' : Arena) : Prop where
  heap : ∃ pre b post c post' fl', bs = pre ++ b :: post ∧ b.free = true ∧
    Heap a' (pre ++ c :: post') fl' ∧ c.free = false ∧ c.off = b.off ∧ p = c.off + HDR ∧
    want ≤ c.size ∧ c.size ≤ b.size ∧ inUse post' = inUse post
  retire_head : a'.retire_head = a.retire_head
  cap : a'.cap = a.cap
  keeps : Keeps bs a a'

theorem min_le_wantOf (n : Nat) : MIN_BLOCK ≤ wantOf n := by
  simp only [wantOf]
  split <;> omega

theorem wantOf_eq_max (n : Nat) :
    wantOf n = max MIN_BLOCK (align8 (add64 (align8 n) (HDR + FTR))) := by
  simp only [wantOf]
  split <;> omega

/-- The rounded size has room for the request, the header and the footer, if the request is not among the
    last thirty-one numbers of `size_t`. -/
theorem le_wantOf_of_le {n : Nat} (h : n ≤ 2 ^ 64 - 32) : n + HDR + FTR ≤ wantOf n := by
  simp only [wantOf_eq_max, align8, add64, HDR, FTR, MIN_BLOCK]
  omega

theorem le_wantOf {n : Nat} (h : n < 2 ^ 63) : n + HDR + FTR ≤ wantOf n := le_wantOf_of_le (by omega)

theorem wantOf_mod (n : Nat) : wantOf n % 8 = 0 := by
  simp only [wantOf_eq_max, align8, MIN_BLOCK]
  omega

/-- The smallest block that is ever handed out. -/
theorem wantOf_one_le {n : Nat} (h0 : n ≠ 0) (h : n < 2 ^ 63) : wantOf 1 ≤ wantOf n := by
  simp only [wantOf_eq_max, align8, add64, HDR, FTR, MIN_BLOCK]
  omega

/-- Which block a request gets: the first of the list that is large enough, cut to the rounded size
    or taken whole. -/
structure FirstFit (a : Arena) (n p : Nat) (a' : Arena) : Prop where
  pos : n ≠ 0
  first : a.fit (wantOf n) a.cap a.free_head = some (p - HDR)
  cut : a'.size (p - HDR) = wantOf n ∨ a'.size (p - HDR) = a.size (p - HDR)

/-- What a request takes of the free block at `x`. -/
def piece (a : Arena) (n x : Nat) : Nat :=
  if a.size x - wantOf n ≥ MIN_BLOCK then wantOf n else a.size x

/-- What a served request writes besides links: the piece it takes and the header behind it, and the
    footer of the block it was cut from. -/
def Served (fl : List Nat) (a : Arena) (n p : Nat) (a' : Arena) : Prop :=
  a'.size (p - HDR) = a.piece n (p - HDR) ∧
  Writes fl (fun i => (p - HDR ≤ i ∧ i < p - HDR + a.piece n (p - HDR) + HDR) ∨
    (p - HDR + a.size (p - HDR) - FTR ≤ i ∧ i < p - HDR + a.size (p - HDR))) a a'

/-- A request is refused only if no free block is large enough, and then nothing changes. -/
theorem alloc_cases (h : Heap a bs fl) (n : Nat) :
    (a.alloc n = (none, a) ∧ (n ≠ 0 → ∀ b ∈ bs, b.free = true → b.size < wantOf n)) ∨
    ∃ p a', a.alloc n = (some p, a') ∧ Allocates a bs (wantOf n) p a' ∧ FirstFit a n p a' ∧
      a'.size (p - HDR) < wantOf n + MIN_BLOCK ∧ Served fl a n p a' := by
  rw [alloc]
  by_cases hn : n = 0
  · rw [if_pos (Or.inr hn)]; exact Or.inl ⟨rfl, fun h0 => absurd hn h0⟩
  rw [if_neg (by simp [h.ctl.ok, hn])]
  dsimp only
  by_cases hcap : wantOf n > a.cap
  · rw [if_pos hcap]
    refine Or.inl ⟨rfl, fun _ b hb _ => ?_⟩
    have := (h.tiles.bounds b hb).2.2
    rw [h.ctl.heap_end, Block.stop] at this
    omega
  rw [if_neg hcap]
  have hw := min_le_wantOf n
  rcases fit_spec h (wantOf n) with ⟨h1, hsmall⟩ | ⟨b, hb, hf, h1, h2⟩
  · rw [h1]; exact Or.inl ⟨rfl, fun _ => hsmall⟩
  have hfit : ∀ {a'}, (a'.size b.off = wantOf n ∨ a'.size b.off = a.size b.off) →
      FirstFit a n (b.off + HDR) a' := by
    intro a' hcut
    rw [← Nat.add_sub_cancel b.off HDR] at h1 hcut
    exact ⟨hn, h1, hcut⟩
  have hserved : ∀ {a' : Arena} {s : Nat}, a.piece n b.off = s → a'.size b.off = s →
      Writes fl (fun i => (b.off ≤ i ∧ i < b.off + s + HDR) ∨
        (b.off + a.size b.off - FTR ≤ i ∧ i < b.off + a.size b.off)) a a' →
      Served fl a n (b.off + HDR) a' := by
    intro a' s hs hsize hw
    rw [Served, Nat.add_sub_cancel, hs]
    exact ⟨hsize, hw⟩
  have hpiece : a.piece n b.off =
      if a.size b.off - wantOf n ≥ MIN_BLOCK then wantOf n else a.size b.off := rfl
  rw [h1]
  dsimp only
  right
  generalize wantOf n = want at *
  obtain ⟨pre, post, rfl⟩ := List.append_of_mem hb
  have h0 : HeapBut a (pre ++ [b]) [] post fl := heapBut_nil.mpr (by simpa using h)
  obtain ⟨hs1, hk1, hsh1, -, -, -⟩ := h0.unlink_rest (p := pre) (q := post) (by simp) hf
  have h1 := h0.take_prev hf
  have hlinks := unlink_writes h0 (b := b) (by simp) hf
  have hsh := hsh1 b (by simp)
  have hk1 : Keeps (pre ++ b :: post) a (a.unlink b.off) := by simpa using hk1
  have hpost : ∀ x ∈ post.head?, x.free = false := ((coalesced_mid.mp h.coalesced).2.2 hf).2
  generalize a.unlink b.off = a₁ at *
  have hsz : a₁.size b.off = b.size := hsh.size
  have hsz0 : a.size b.off = b.size := (h.shape b (by simp)).size
  have hkeep : ∀ {a'}, Keeps (pre ++ post) a₁ a' → Keeps (pre ++ b :: post) a a' := fun hk =>
    hk1.trans (hk.of_inUse (by simp [inUse_cons_free _ hf]))
  by_cases hsplit : a₁.size b.off - want ≥ MIN_BLOCK
  · rw [if_pos hsplit]
    rw [hsz] at hsplit
    obtain ⟨h2, hsz2, hft2, hs2, hk2, hw2⟩ := split_spec h1 hsz hw
      (by simp only [MIN_BLOCK] at *; omega) hpost
    dsimp only at h2 hsz2 hft2 hs2 hk2 hw2
    generalize a₁.split b.off want = a₂ at *
    obtain ⟨h3, hs3, hk3⟩ := h2.give_live hsz2 hft2 rfl
    refine ⟨_, _, rfl, ⟨⟨pre, b, post, ⟨b.off, want, false⟩, _, _, rfl, hf, h3, rfl, rfl, rfl,
      Nat.le_refl _, by omega, inUse_cons_free _ rfl⟩, ?_, ?_, ?_⟩, hfit (Or.inl ?_), ?_,
      hserved (s := want) ?_ ?_ ?_⟩
    · exact hs3.retire_head.trans (hs2.retire_head.trans hs1.retire_head)
    · exact hs3.cap.trans (hs2.cap.trans hs1.cap)
    · have k3 : Keeps (pre ++ post) _ _ := hk3.of_inUse (by simp [inUse_cons_free])
      exact fun x hx hxf i h1 h2 => hkeep (hk2.trans k3) x hx hxf i h1 h2
    · exact (h3.shape ⟨b.off, want, false⟩ (by simp)).size
    · rw [Nat.add_sub_cancel]
      exact lt_of_eq_of_lt (h3.shape ⟨b.off, want, false⟩ (by simp)).size
        (Nat.lt_add_of_pos_right (by decide))
    · rw [hpiece, hsz0, if_pos hsplit]
    · exact (h3.shape ⟨b.off, want, false⟩ (by simp)).size
    · have hall := (hlinks.writes (fun _ hx => hx) fun _ => False).trans hw2 List.erase_subset
      intro i hi hx
      rw [hsz0] at hi
      simp only [HDR, FTR] at hi
      refine Eq.trans (Mem.put_out _ (by omega)) (hall i ?_ hx)
      simpa only [Block.stop, HDR, FTR, false_or] using hi
  · rw [if_neg hsplit]
    obtain ⟨h3, hs3, hk3⟩ := h1.give_live hsz hsh.foot rfl
    refine ⟨_, _, rfl, ⟨⟨pre, b, post, ⟨b.off, b.size, false⟩, _, _, rfl, hf, h3, rfl, rfl, rfl,
      h2, Nat.le_refl _, rfl⟩, ?_, ?_, ?_⟩, hfit (Or.inr ?_), ?_, hserved (s := b.size) ?_ ?_ ?_⟩
    · exact hs3.retire_head.trans hs1.retire_head
    · exact hs3.cap.trans hs1.cap
    · exact fun x hx hxf i h1 h2 => hkeep hk3 x hx hxf i h1 h2
    · rw [hsz0]
      exact (h3.shape ⟨b.off, b.size, false⟩ (by simp)).size
    · rw [Nat.add_sub_cancel]
      rw [hsz] at hsplit
      have hlt : b.size < want + MIN_BLOCK := by omega
      exact lt_of_eq_of_lt (h3.shape ⟨b.off, b.size, false⟩ (by simp)).size hlt
    · rw [hsz] at hsplit
      rw [hpiece, hsz0, if_neg hsplit]
    · exact (h3.shape ⟨b.off, b.size, false⟩ (by simp)).size
    · intro i hi hx
      simp only [HDR, FTR] at hi
      exact Eq.trans (Mem.put_out _ (by omega)) (hlinks i hx)

/-- A request that is refused changes nothing. -/
theorem alloc_spec (h : Heap a bs fl) (n : Nat) :
    a.alloc n = (none, a) ∨
    ∃ p a', a.alloc n = (some p, a') ∧ Allocates a bs (wantOf n) p a' := by
  rcases alloc_cases h n with ⟨e, -⟩ | ⟨p, a', e, ha, -⟩
  · exact Or.inl e
  · exact Or.inr ⟨p, a', e, ha⟩

end Barnacle.Arena
