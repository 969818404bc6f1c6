import Barnacle.Arena.FreeList

/-! The heap invariant, and what each part of `alloc` and `free` does to it.

    While an operation runs, the heap is well formed except for a gap: a few blocks whose own bytes
    are not settled yet. A free block enters the gap by being unlinked, blocks in the gap are merged
    or cut without touching anything else, and a block leaves the gap by being linked back as a free
    block or by being handed out. `alloc` and `free` are short sequences of these moves. -/

namespace Barnacle.Arena
open Barnacle.Lib

/-- The words a block keeps about itself. -/
structure Shape (m : Mem) (b : Block) : Prop where
  size : m.get b.off 4 = b.size
  flag : m.get (b.off + 4) 4 = b.free.toNat
  foot : m.get (b.off + b.size - FTR) 4 = b.size

/-- The control block of an initialised arena shorter than 2^32 bytes. -/
structure Ctl (a : Arena) : Prop where
  ok : a.ok = true
  heap : a.heap = BNCL_CTL_BYTES
  heap_end : a.heap_end = a.cap
  cap : a.cap < 2 ^ 32

/-- The heap invariant: `bs` are the blocks in address order, `fl` the free list from its head. -/
structure Heap (a : Arena) (bs : List Block) (fl : List Nat) : Prop where
  ctl : Ctl a
  tiles : Tiles a.heap a.heap_end bs
  shape : ∀ b ∈ bs, Shape a.mem b
  coalesced : Coalesced bs
  linked : Linked a fl
  listed : ∀ x, x ∈ fl ↔ ∃ b ∈ bs, b.free = true ∧ b.off = x
  used : a.used = usedOf bs

/-- The same with `gap` taken out: its blocks hold their place in the tiling and nothing more. -/
structure HeapBut (a : Arena) (pre gap post : List Block) (fl : List Nat) : Prop where
  ctl : Ctl a
  tiles : Tiles a.heap a.heap_end (pre ++ (gap ++ post))
  taken : ∀ c ∈ gap, c.free = false
  shape : ∀ b ∈ pre ++ post, Shape a.mem b
  coalesced : Coalesced (pre ++ (gap ++ post))
  linked : Linked a fl
  listed : ∀ x, x ∈ fl ↔ ∃ b ∈ pre ++ post, b.free = true ∧ b.off = x
  used : a.used = usedOf (pre ++ post)

theorem heapBut_nil {a : Arena} {pre post : List Block} {fl : List Nat} :
    HeapBut a pre [] post fl ↔ Heap a (pre ++ post) fl :=
  ⟨fun h => ⟨h.ctl, h.tiles, h.shape, h.coalesced, h.linked, h.listed, h.used⟩,
    fun h => ⟨h.ctl, h.tiles, by simp, h.shape, h.coalesced, h.linked, h.listed, h.used⟩⟩

/-- Every byte of the blocks of `bs` that are in use is as it was. -/
def Keeps (bs : List Block) (a a' : Arena) : Prop :=
  ∀ b ∈ bs, b.free = false → ∀ i, b.off ≤ i → i < b.stop → a'.mem i = a.mem i

theorem Keeps.refl (bs : List Block) (a : Arena) : Keeps bs a a := fun _ _ _ _ _ _ => rfl

theorem Keeps.trans {bs : List Block} {a b c : Arena} (h : Keeps bs a b) (g : Keeps bs b c) :
    Keeps bs a c :=
  fun x hx hf i h1 h2 => (g x hx hf i h1 h2).trans (h x hx hf i h1 h2)

theorem Keeps.of_inUse {bs bs' : List Block} {a a' : Arena} (h : Keeps bs a a')
    (hs : inUse bs' ⊆ inUse bs) : Keeps bs' a a' := fun b hb hf =>
  h b (mem_inUse.mp (hs (mem_inUse.mpr ⟨hb, hf⟩))).1 hf

theorem Keeps.get {bs : List Block} {a a' : Arena} (h : Keeps bs a a') {b : Block} (hb : b ∈ bs)
    (hf : b.free = false) {p w : Nat} (h1 : b.off ≤ p) (h2 : p + w ≤ b.stop) :
    a'.mem.get p w = a.mem.get p w :=
  Mem.get_congr fun i _ _ => h b hb hf i (by omega) (by omega)

theorem Shape.congr {m m' : Mem} {b : Block} (h : Shape m b) (hs : MIN_BLOCK ≤ b.size)
    (hh : ∀ i, b.off ≤ i → i < b.off + 8 → m' i = m i)
    (hf : ∀ i, b.stop - FTR ≤ i → i < b.stop → m' i = m i) : Shape m' b := by
  simp only [MIN_BLOCK] at hs
  simp only [FTR, Block.stop] at hf
  exact ⟨(Mem.get_congr fun i h1 h2 => hh i (by omega) (by omega)).trans h.size,
    (Mem.get_congr fun i h1 h2 => hh i (by omega) (by omega)).trans h.flag,
    (Mem.get_congr fun i h1 h2 => hf i (by simp only [FTR] at h1; omega)
      (by simp only [FTR] at h2; omega)).trans h.foot⟩

theorem Linked.congr {a a' : Arena} {l : List Nat} (h : Linked a l)
    (hm : ∀ x ∈ l, ∀ i, x + 8 ≤ i → i < x + HDR → a'.mem i = a.mem i)
    (hh : a'.free_head = a.free_head) : Linked a' l := by
  refine ⟨DList.congr (fun x hx => ⟨?_, ?_⟩) h.links, hh.trans h.head, h.nodup, h.pos, h.lt, h.clear⟩
  · exact Mem.get_congr fun i h1 h2 => hm x hx i (by omega) (by simp only [HDR]; omega)
  · exact Mem.get_congr fun i h1 h2 => hm x hx i (by omega) (by simp only [HDR]; omega)

theorem Ctl.congr {a a' : Arena} (h : Ctl a) (hs : SameCtl a a') : Ctl a' :=
  ⟨hs.ok.trans h.ok, hs.heap.trans h.heap, hs.heap_end.trans (h.heap_end.trans hs.cap.symm),
    hs.cap ▸ h.cap⟩

namespace HeapBut

variable {a a' : Arena} {pre gap post : List Block} {fl : List Nat}

/-! ### Reading the tiling -/

theorem bounds (h : HeapBut a pre gap post fl) {b : Block} (hb : b ∈ pre ++ (gap ++ post)) :
    64 ≤ b.off ∧ 24 ≤ b.size ∧ b.off + b.size ≤ a.heap_end ∧ a.heap_end < 2 ^ 32 := by
  have hb := h.tiles.bounds b hb
  rw [h.ctl.heap] at hb
  exact ⟨hb.1, hb.2.1, hb.2.2, h.ctl.heap_end ▸ h.ctl.cap⟩

theorem mem_all {b : Block} (hb : b ∈ pre ++ post) : b ∈ pre ++ (gap ++ post) := by
  rcases List.mem_append.mp hb with hb | hb
  · exact List.mem_append_left _ hb
  · exact List.mem_append_right _ (List.mem_append_right _ hb)

theorem mem_gap {c : Block} (hc : c ∈ gap) : c ∈ pre ++ (gap ++ post) :=
  List.mem_append_right _ (List.mem_append_left _ hc)

/-- A listed block against any block: the same one, or its header is clear of it. -/
theorem listed_apart (h : HeapBut a pre gap post fl) {x : Nat} (hx : x ∈ fl) {b : Block}
    (hb : b ∈ pre ++ (gap ++ post)) :
    (b.free = true ∧ b.off = x) ∨ b.off + b.size ≤ x ∨ x + 24 ≤ b.off := by
  obtain ⟨c, hc, hf, rfl⟩ := (h.listed x).mp hx
  have hcb := (h.bounds (mem_all hc)).2.1
  rcases h.tiles.apart hb (mem_all hc) with rfl | h1
  · exact Or.inl ⟨hf, rfl⟩
  · simp only [Block.Apart, Block.stop] at h1
    exact Or.inr (by omega)

theorem gap_apart (h : HeapBut a pre gap post fl) {b c : Block} (hb : b ∈ pre ++ post)
    (hc : c ∈ gap) : b.Apart c := by
  obtain ⟨g₁, g₂, rfl⟩ := List.append_of_mem hc
  have ht := h.tiles
  rw [List.append_assoc, List.cons_append, ← List.append_assoc] at ht
  refine ht.apart_mid ?_
  rcases List.mem_append.mp hb with hb | hb <;> simp [hb]

/-- A change to the link fields of listed blocks only. -/
theorem keeps_of_linksOnly (h : HeapBut a pre gap post fl) {l : List Nat} (hl : l ⊆ fl)
    (hm : LinksOnly l a a') : Keeps (pre ++ (gap ++ post)) a a' := by
  intro b hb hf i h1 h2
  refine hm i fun x hx => ?_
  simp only [Block.stop] at h2
  rcases h.listed_apart (hl hx) hb with ⟨h3, -⟩ | h3
  · rw [hf] at h3; exact Bool.noConfusion h3
  · simp only [HDR]; omega

theorem shape_of_linksOnly (h : HeapBut a pre gap post fl) {l : List Nat} (hl : l ⊆ fl)
    (hm : LinksOnly l a a') {b : Block} (hb : b ∈ pre ++ post) : Shape a'.mem b := by
  have hbd := h.bounds (mem_all hb)
  refine (h.shape b hb).congr hbd.2.1 (fun i h1 h2 => hm i fun x hx => ?_)
    fun i h1 h2 => hm i fun x hx => ?_
  · rcases h.listed_apart (hl hx) (mem_all hb) with ⟨-, h3⟩ | h3 <;> simp only [HDR] <;> omega
  · simp only [FTR, Block.stop] at h1 h2
    rcases h.listed_apart (hl hx) (mem_all hb) with ⟨-, h3⟩ | h3 <;> simp only [HDR] <;> omega

/-- A change inside the gap is no change to the rest. -/
theorem inside (h : HeapBut a pre gap post fl) (hs : SameCtl a a')
    (hh : a'.free_head = a.free_head)
    (hm : ∀ i, (∀ c ∈ gap, i < c.off ∨ c.stop ≤ i) → a'.mem i = a.mem i) :
    HeapBut a' pre gap post fl ∧ Keeps (pre ++ post) a a' := by
  have out : ∀ b ∈ pre ++ post, ∀ i, b.off ≤ i → i < b.stop → a'.mem i = a.mem i := by
    intro b hb i h1 h2
    refine hm i fun c hc => ?_
    have := h.gap_apart hb hc
    simp only [Block.Apart] at this
    omega
  refine ⟨⟨h.ctl.congr hs, by rw [hs.heap, hs.heap_end]; exact h.tiles, h.taken, fun b hb => ?_,
    h.coalesced, h.linked.congr (fun x hx i h1 h2 => ?_) hh, h.listed, hs.used.trans h.used⟩,
    fun b hb _ => out b hb⟩
  · have hbd := h.bounds (mem_all hb)
    refine (h.shape b hb).congr hbd.2.1 (fun i h1 h2 => out b hb i h1 ?_)
      fun i h1 h2 => out b hb i ?_ h2 <;> simp only [Block.stop, FTR] at * <;> omega
  · obtain ⟨b, hb, -, rfl⟩ := (h.listed x).mp hx
    have hbd := h.bounds (mem_all hb)
    refine out b hb i ?_ ?_ <;> simp only [Block.stop, HDR] at * <;> omega

/-! ### Into the gap -/

/-- What is left once the free block `b` is unlinked. -/
theorem unlink_rest (h : HeapBut a pre gap post fl) {p q : List Block} {b : Block}
    (e : pre ++ post = p ++ b :: q) (hf : b.free = true) :
    SameCtl a (a.unlink b.off) ∧ Keeps (pre ++ (gap ++ post)) a (a.unlink b.off) ∧
    (∀ c ∈ pre ++ post, Shape (a.unlink b.off).mem c) ∧
    Linked (a.unlink b.off) (fl.erase b.off) ∧
    (∀ x, x ∈ fl.erase b.off ↔ ∃ c ∈ p ++ q, c.free = true ∧ c.off = x) ∧
    (a.unlink b.off).used = usedOf (p ++ q) := by
  have hbm : b ∈ pre ++ post := by rw [e]; simp
  have hx : b.off ∈ fl := (h.listed _).mpr ⟨b, hbm, hf, rfl⟩
  obtain ⟨hl, hm⟩ := h.linked.unlink hx
  have hs := a.unlink_sameCtl b.off
  refine ⟨hs, h.keeps_of_linksOnly List.erase_subset hm,
    fun c hc => h.shape_of_linksOnly List.erase_subset hm hc, hl, fun x => ?_, ?_⟩
  · rw [h.linked.nodup.mem_erase_iff, h.listed, e]
    constructor
    · rintro ⟨hne, c, hc, hcf, rfl⟩
      have : c ≠ b := fun he => hne (he ▸ rfl)
      exact ⟨c, by simpa [this] using hc, hcf, rfl⟩
    · rintro ⟨c, hc, hcf, rfl⟩
      have hcm : c ∈ p ++ b :: q := by
        rcases List.mem_append.mp hc with hc | hc <;> simp [hc]
      refine ⟨fun he => ?_, c, hcm, hcf, rfl⟩
      have hcb : c = b := h.tiles.off_inj (mem_all (e ▸ hcm)) (mem_all hbm) he
      subst hcb
      have hnd := h.tiles.nodup.sublist
        (((List.Sublist.refl pre).append (List.sublist_append_right gap post)).map Block.off)
      rw [e, List.map_append, List.map_cons, List.nodup_append, List.nodup_cons] at hnd
      rcases List.mem_append.mp hc with hc | hc
      · exact hnd.2.2 _ (List.mem_map_of_mem hc) _ List.mem_cons_self rfl
      · exact hnd.2.1.1 (List.mem_map_of_mem hc)
  · rw [hs.used, h.used, e, usedOf_mid_free hf]

/-- The free block after the gap joins it. -/
theorem take_next {b : Block} (h : HeapBut a pre gap (b :: post) fl) (hf : b.free = true) :
    HeapBut (a.unlink b.off) pre (gap ++ [{ b with free := false }]) post (fl.erase b.off) := by
  obtain ⟨hs, -, hsh, hl, hli, hu⟩ := h.unlink_rest (p := pre) (q := post) rfl hf
  have hc := h.coalesced
  rw [← List.append_assoc, coalesced_mid] at hc
  refine ⟨h.ctl.congr hs, ?_, ?_, fun c hc => hsh c ?_, ?_, hl, hli, hu⟩
  · have ht := h.tiles
    rw [hs.heap, hs.heap_end]
    simp only [tiles_append, Tiles, List.append_assoc, List.cons_append, List.nil_append] at ht ⊢
    exact ht
  · intro c hc
    rcases List.mem_append.mp hc with hc | hc
    · exact h.taken c hc
    · simp at hc; simp [hc]
  · rcases List.mem_append.mp hc with hc | hc <;> simp [hc]
  · rw [List.append_assoc, ← List.append_assoc, List.singleton_append, coalesced_mid]
    exact ⟨hc.1, hc.2.1, fun hn => Bool.noConfusion hn⟩

/-- The free block before the gap joins it. -/
theorem take_prev {b : Block} (h : HeapBut a (pre ++ [b]) gap post fl) (hf : b.free = true) :
    HeapBut (a.unlink b.off) pre ({ b with free := false } :: gap) post (fl.erase b.off) := by
  obtain ⟨hs, -, hsh, hl, hli, hu⟩ := h.unlink_rest (p := pre) (q := post) (by simp) hf
  have hc := h.coalesced
  rw [List.append_assoc, List.singleton_append, coalesced_mid] at hc
  refine ⟨h.ctl.congr hs, ?_, ?_, fun c hc => hsh c ?_, ?_, hl, hli, hu⟩
  · have ht := h.tiles
    rw [hs.heap, hs.heap_end]
    simp only [tiles_append, Tiles, List.append_assoc, List.cons_append, List.nil_append] at ht ⊢
    exact ht
  · simpa using h.taken
  · rcases List.mem_append.mp hc with hc | hc <;> simp [hc]
  · rw [List.cons_append, coalesced_mid]
    exact ⟨hc.1, hc.2.1, fun hn => Bool.noConfusion hn⟩

theorem payload_eq (h : Heap a pre fl) {b : Block} (hb : b ∈ pre) : a.payload b.off = b.room := by
  have hbd := h.tiles.bounds b hb
  have hsz : a.size b.off = b.size := (h.shape b hb).size
  have hlt := a.size_lt b.off
  simp only [MIN_BLOCK] at hbd
  simp only [payload, sub64, hsz, Block.room, HDR, FTR] at hlt ⊢
  omega

/-- A block in use is given up: `used` no longer counts it. -/
theorem take_live {b : Block} (h : Heap a (pre ++ b :: post) fl) (hf : b.free = false) :
    HeapBut { a with used := sub64 a.used (a.payload b.off) } pre [b] post fl := by
  have hpay := payload_eq h (b := b) (by simp)
  have hu := h.used
  have hle := h.tiles.usedOf_le
  have hcap := h.ctl.cap
  rw [← h.ctl.heap_end] at hcap
  rw [usedOf_mid hf] at hu hle
  refine ⟨⟨h.ctl.ok, h.ctl.heap, h.ctl.heap_end, h.ctl.cap⟩, h.tiles, by simpa using hf,
    fun c hc => h.shape c ?_, h.coalesced, h.linked.congr (fun _ _ _ _ _ => rfl) rfl,
    fun x => ?_, ?_⟩
  · rcases List.mem_append.mp hc with hc | hc <;> simp [hc]
  · rw [h.listed]
    constructor
    · rintro ⟨c, hc, hcf, rfl⟩
      have hne : c ≠ b := by rintro rfl; rw [hf] at hcf; exact Bool.noConfusion hcf
      exact ⟨c, by simpa [hne] using hc, hcf, rfl⟩
    · rintro ⟨c, hc, hcf, rfl⟩
      refine ⟨c, ?_, hcf, rfl⟩
      rcases List.mem_append.mp hc with hc | hc <;> simp [hc]
  · simp only [hpay, hu, sub64]
    omega

/-! ### In the gap -/

/-- The gap may be cut anew, as long as it covers the same bytes. -/
theorem regap (h : HeapBut a pre gap post fl) (gap' : List Block) (hne : gap ≠ [])
    (hne' : gap' ≠ []) (ht' : ∀ c ∈ gap', c.free = false)
    (ht : ∀ lo hi, Tiles lo hi gap → Tiles lo hi gap') : HeapBut a pre gap' post fl := by
  refine ⟨h.ctl, ?_, ht', h.shape, ?_, h.linked, h.listed, h.used⟩
  · have := h.tiles
    simp only [tiles_append] at this ⊢
    obtain ⟨mid, h1, mid', h2, h3⟩ := this
    exact ⟨mid, h1, mid', ht _ _ h2, h3⟩
  · exact (coalesced_gap ht' hne').mpr ((coalesced_gap h.taken hne).mp h.coalesced)

/-! ### Out of the gap -/

/-- The last block of the gap becomes a free block, where it has no free neighbour. -/
theorem give_free (gs : List Block) {c : Block} (h : HeapBut a pre (gs ++ [c]) post fl)
    (hsz : a.size c.off = c.size) (hpost : ∀ b ∈ post.head?, b.free = false)
    (hpre : gs = [] → ∀ b ∈ pre.getLast?, b.free = false) :
    HeapBut ((a.linkFront c.off).setFoot c.off) pre gs ({ c with free := true } :: post)
      (c.off :: fl) ∧
    SameCtl a ((a.linkFront c.off).setFoot c.off) ∧
    Keeps (pre ++ (gs ++ post)) a ((a.linkFront c.off).setFoot c.off) ∧
    Writes fl (fun i => (c.off + 4 ≤ i ∧ i < c.off + HDR) ∨ (c.stop - FTR ≤ i ∧ i < c.stop)) a
      ((a.linkFront c.off).setFoot c.off) := by
  have hcm : c ∈ gs ++ [c] := by simp
  have hcf := h.taken c hcm
  obtain ⟨hb1, hb2, hb3, hb4⟩ := h.bounds (mem_gap hcm)
  -- the block against the listed ones
  have hfl : ∀ y ∈ fl, c.off + c.size ≤ y ∨ y + 24 ≤ c.off := fun y hy =>
    (h.listed_apart hy (mem_gap hcm)).resolve_left fun hc => by
      rw [hcf] at hc; exact Bool.noConfusion hc.1
  obtain ⟨hl, hfree, hmem⟩ := h.linked.linkFront (x := c.off) (by simp only [NIL]; omega)
    (by norm_num; omega) (fun y hy => by have := hfl y hy; simp only [Clear, HDR]; omega)
  have hsz1 : (a.linkFront c.off).size c.off = c.size := by
    refine (Mem.get_congr fun i h1 h2 => hmem i (by omega) fun y hy => ?_).trans hsz
    have := hfl y hy
    simp only [HDR]; omega
  have hfoot : ∀ i, (i < c.off + c.size - 4 ∨ c.off + c.size ≤ i) →
      ((a.linkFront c.off).setFoot c.off).mem i = (a.linkFront c.off).mem i := fun i hi => by
    rw [mem_setFoot, hsz1]
    exact Mem.put_out _ (by simp only [FTR]; omega)
  have hsame : SameCtl a ((a.linkFront c.off).setFoot c.off) :=
    (a.linkFront_sameCtl c.off).trans (setFoot_sameCtl ..)
  have ht := h.tiles
  rw [List.append_assoc, List.singleton_append, ← List.append_assoc] at ht
  -- bytes outside the block and outside the links
  have hout : ∀ i, (i < c.off ∨ c.off + c.size ≤ i) → (∀ y ∈ fl, i < y + 8 ∨ y + 16 ≤ i) →
      ((a.linkFront c.off).setFoot c.off).mem i = a.mem i := fun i hi hy =>
    (hfoot i (by omega)).trans (hmem i (by simp only [HDR]; omega) hy)
  have hkeep : Keeps (pre ++ (gs ++ post)) a ((a.linkFront c.off).setFoot c.off) := by
    intro b hb hf i h1 h2
    have hbc := ht.apart_mid (b := b) (by rwa [List.append_assoc])
    simp only [Block.Apart, Block.stop] at hbc h2
    refine hout i (by omega) fun y hy => ?_
    have hb' : b ∈ pre ++ ((gs ++ [c]) ++ post) := by
      simp only [List.mem_append] at hb ⊢
      rcases hb with hb | hb | hb <;> simp [hb]
    rcases h.listed_apart hy hb' with hc | hc
    · rw [hf] at hc; exact Bool.noConfusion hc.1
    · omega
  refine ⟨⟨h.ctl.congr hsame, ?_, fun d hd => h.taken d (by simp [hd]), fun b hb => ?_, ?_, ?_,
    fun x => ?_, ?_⟩, hsame, hkeep, fun i hi hx => ?_⟩
  · rw [hsame.heap, hsame.heap_end, ← List.append_assoc]
    exact Tiles.of_mid (b := { c with free := true }) ht.mid.1 ht.mid.2.1 ht.mid.2.2
  · rcases (by simpa [or_left_comm] using hb : b = { c with free := true } ∨ b ∈ pre ++ post) with
      rfl | hb
    · refine ⟨?_, ?_, ?_⟩
      · exact (Mem.get_congr fun i h1 h2 => hfoot i (by dsimp only at *; omega)).trans hsz1
      · exact (Mem.get_congr fun i h1 h2 => hfoot i (by dsimp only at *; omega)).trans hfree
      · rw [mem_setFoot, hsz1]
        exact Mem.get_put _ (by omega)
    · have hbd := h.bounds (mem_all hb)
      have hbc := h.gap_apart hb hcm
      simp only [Block.Apart, Block.stop] at hbc
      refine (h.shape b hb).congr hbd.2.1 (fun i h1 h2 => hout i (by omega) fun y hy => ?_)
        fun i h1 h2 => hout i (by simp only [Block.stop, FTR] at *; omega) fun y hy => ?_
      · rcases h.listed_apart hy (mem_all hb) with ⟨-, h3⟩ | h3 <;> omega
      · simp only [FTR, Block.stop] at h1 h2
        rcases h.listed_apart hy (mem_all hb) with ⟨-, h3⟩ | h3 <;> omega
  · have hc := h.coalesced
    rw [List.append_assoc, List.singleton_append, ← List.append_assoc, coalesced_mid] at hc
    rw [← List.append_assoc, coalesced_mid]
    refine ⟨hc.1, hc.2.1, fun _ => ⟨fun b hb => ?_, hpost⟩⟩
    cases gs using List.reverseRecOn with
    | nil => exact hpre rfl b (by simpa using hb)
    | append_singleton gs g _ =>
      have : b = g := by
        rw [← List.append_assoc, List.getLast?_concat] at hb
        simpa using hb.symm
      exact this ▸ h.taken g (by simp)
  · refine hl.congr (fun x hx i h1 h2 => hfoot i ?_) (free_head_setFoot ..)
    simp only [HDR] at h2
    rcases List.mem_cons.mp hx with rfl | hx
    · omega
    · have := hfl x hx; omega
  · simp only [List.mem_cons, h.listed, List.mem_append]
    constructor
    · rintro (rfl | ⟨b, hb, hf, rfl⟩)
      · exact ⟨{ c with free := true }, by simp, rfl, rfl⟩
      · exact ⟨b, by rcases hb with hb | hb <;> simp [hb], hf, rfl⟩
    · rintro ⟨b, hb | rfl | hb, hf, rfl⟩
      · exact Or.inr ⟨b, by simp [hb], hf, rfl⟩
      · exact Or.inl rfl
      · exact Or.inr ⟨b, by simp [hb], hf, rfl⟩
  · rw [hsame.used, h.used, usedOf_mid_free rfl]
  · simp only [Block.stop, FTR, HDR] at hi
    exact (hfoot i (by omega)).trans (hmem i (by simp only [HDR]; omega) hx)

/-- The one block of the gap is handed out. -/
theorem give_live {c : Block} (h : HeapBut a pre [c] post fl) (hsz : a.size c.off = c.size)
    (hft : a.mem.get (c.off + c.size - FTR) 4 = c.size) {a₁ : Arena}
    (ha₁ : a₁ = a.setFree c.off 0) :
    Heap { a₁ with used := add64 a₁.used (a₁.payload c.off) } (pre ++ c :: post) fl ∧
    SameCtl a a₁ ∧ Keeps (pre ++ post) a a₁ := by
  have hcm : c ∈ [c] := by simp
  have hcf := h.taken c hcm
  obtain ⟨hb1, hb2, hb3, hb4⟩ := h.bounds (mem_gap hcm)
  have hs1 : SameCtl a a₁ := ha₁ ▸ setFree_sameCtl ..
  have hm1 : a₁.mem = a.mem.put (c.off + 4) 4 0 := by rw [ha₁, setFree]
  obtain ⟨h1, hk⟩ := h.inside hs1 (by rw [ha₁, free_head_setFree]) fun i hi => by
    have := hi c hcm
    simp only [Block.stop] at this
    rw [hm1]
    exact Mem.put_out _ (by omega)
  have hsz1 : a₁.size c.off = c.size := by
    rw [size, hm1]
    exact (Mem.get_put_of_disjoint _ (by omega)).trans hsz
  have hshape : Shape a₁.mem c :=
    ⟨hsz1, by rw [hcf, hm1]; exact Mem.get_put _ (by norm_num),
      by rw [hm1]; exact (Mem.get_put_of_disjoint _ (by simp only [FTR]; omega)).trans hft⟩
  have hle := h1.tiles.usedOf_le
  rw [List.singleton_append, usedOf_mid hcf] at hle
  have h2 : Heap { a₁ with used := usedOf (pre ++ c :: post) } (pre ++ c :: post) fl := by
    refine ⟨⟨h1.ctl.ok, h1.ctl.heap, h1.ctl.heap_end, h1.ctl.cap⟩, h1.tiles, fun b hb => ?_,
      h1.coalesced, h1.linked.congr (fun _ _ _ _ _ => rfl) rfl, fun x => ?_, rfl⟩
    · rcases (by simpa [or_left_comm] using hb : b = c ∨ b ∈ pre ++ post) with rfl | hb
      · exact hshape
      · exact h1.shape b hb
    · rw [h1.listed]
      constructor
      · rintro ⟨b, hb, hf, rfl⟩
        exact ⟨b, by rcases List.mem_append.mp hb with hb | hb <;> simp [hb], hf, rfl⟩
      · rintro ⟨b, hb, hf, rfl⟩
        have hne : b ≠ c := by rintro rfl; rw [hcf] at hf; exact Bool.noConfusion hf
        exact ⟨b, by simpa [hne] using hb, hf, rfl⟩
  have hused : add64 a₁.used (a₁.payload c.off) = usedOf (pre ++ c :: post) := by
    have hend : a₁.heap_end = a.heap_end := hs1.heap_end
    rw [usedOf_mid hcf]
    simp only [payload, hsz1, h1.used, Block.room, add64, sub64, HDR, FTR] at hle ⊢
    omega
  rw [hused]
  exact ⟨h2, hs1, hk⟩

end HeapBut

end Barnacle.Arena
