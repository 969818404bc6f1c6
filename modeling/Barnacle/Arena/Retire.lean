import Barnacle.Arena.AllocFree

/-! The retire list. A retired block is still in use as far as the heap is concerned; the list runs
    through twelve bytes of its payload. `reclaim` frees what is due and turns the rest of the list
    round. -/

namespace Barnacle.Arena
open Barnacle.Lib

variable {a : Arena} {pre post bs : List Block} {b : Block} {fl rl : List Nat}

/-- The retire list spells out `rl`: distinct blocks in use, each with room for the record. -/
structure RetireList (a : Arena) (bs : List Block) (rl : List Nat) : Prop where
  links : SList a.retiredNext rl
  head : a.retire_head = rl.headD NIL
  nodup : rl.Nodup
  room : ∀ x ∈ rl, ∃ b ∈ bs, b.off = x ∧ b.free = false ∧ HDR + RETIRED_BYTES + FTR ≤ b.size

/-- Every byte of the blocks in use is as it was, except in the blocks of `l` the link of the retire
    list. -/
def KeepsBut (l : List Nat) (bs : List Block) (a a' : Arena) : Prop :=
  ∀ b ∈ bs, b.free = false → ∀ i, b.off ≤ i → i < b.stop →
    (b.off ∈ l → i < b.off + HDR + 8 ∨ b.off + HDR + 12 ≤ i) → a'.mem i = a.mem i

theorem Keeps.keepsBut {a a' : Arena} (h : Keeps bs a a') (l : List Nat) : KeepsBut l bs a a' :=
  fun b hb hf i h1 h2 _ => h b hb hf i h1 h2

theorem KeepsBut.get {l : List Nat} {a a' : Arena} (h : KeepsBut l bs a a') (hb : b ∈ bs)
    (hf : b.free = false) {p w : Nat} (h1 : b.off ≤ p) (h2 : p + w ≤ b.stop)
    (h3 : b.off ∈ l → p + w ≤ b.off + HDR + 8 ∨ b.off + HDR + 12 ≤ p) :
    a'.mem.get p w = a.mem.get p w :=
  Mem.get_congr fun i _ _ => h b hb hf i (by omega) (by omega) fun hl => by have := h3 hl; omega

/-! ### Writing into a payload -/

/-- A write inside the payload of a block in use. -/
theorem Heap.write_payload (h : Heap a bs fl) (hb : b ∈ bs) (hf : b.free = false) (p : Nat)
    (bytes : Bytes) (h1 : b.off + HDR ≤ p) (h2 : p + bytes.length ≤ b.stop - FTR) {a' : Arena}
    (ha' : a' = { a with mem := a.mem.write p bytes }) :
    Heap a' bs fl ∧ ∀ i, (i < p ∨ p + bytes.length ≤ i) → a'.mem i = a.mem i := by
  obtain ⟨pre, post, rfl⟩ := List.append_of_mem hb
  have hbd := h.tiles.bounds b hb
  simp only [HDR, FTR, Block.stop, MIN_BLOCK] at h1 h2 hbd
  have hm : ∀ i, (i < p ∨ p + bytes.length ≤ i) → a'.mem i = a.mem i := fun i hi => by
    rw [ha']
    exact Mem.write_out _ hi
  have hsame : SameCtl a a' := ha' ▸ ⟨rfl, rfl, rfl, rfl, rfl, rfl⟩
  -- the bytes of the other blocks
  have out : ∀ c ∈ pre ++ post, ∀ i, c.off ≤ i → i < c.stop → a'.mem i = a.mem i := by
    intro c hc i h3 h4
    have := h.tiles.apart_mid hc
    simp only [Block.Apart, Block.stop] at this h4
    exact hm i (by omega)
  refine ⟨⟨h.ctl.congr hsame, by rw [hsame.heap, hsame.heap_end]; exact h.tiles, fun c hc => ?_,
    h.coalesced, h.linked.congr (fun x hx i h3 h4 => ?_) (by rw [ha']), h.listed,
    hsame.used.trans h.used⟩, hm⟩
  · have hcb := h.tiles.bounds c hc
    simp only [MIN_BLOCK, Block.stop] at hcb
    rcases (by simpa [or_left_comm] using hc : c = b ∨ c ∈ pre ++ post) with rfl | hc'
    · refine (h.shape c hc).congr hcb.2.1 (fun i h3 h4 => hm i (by omega)) fun i h3 h4 =>
        hm i (by simp only [FTR, Block.stop] at h3; omega)
    · refine (h.shape c hc).congr hcb.2.1 (fun i h3 h4 => out c hc' i h3 ?_) fun i h3 h4 =>
        out c hc' i ?_ h4 <;> simp only [Block.stop, FTR] at * <;> omega
  · obtain ⟨c, hc, hcf, rfl⟩ := (h.listed x).mp hx
    have hcb := h.tiles.bounds c hc
    have hne : c ≠ b := by rintro rfl; rw [hf] at hcf; exact Bool.noConfusion hcf
    simp only [MIN_BLOCK, Block.stop, HDR] at hcb h4
    exact out c (by simpa [hne] using hc) i (by omega) (by simp only [Block.stop]; omega)

theorem Heap.size_eq (h : Heap a bs fl) (hb : b ∈ bs) : a.size b.off = b.size :=
  (h.shape b hb).size

theorem Heap.isFree_eq (h : Heap a bs fl) (hb : b ∈ bs) : a.isFree b.off = b.free.toNat :=
  (h.shape b hb).flag

theorem Heap.off_of_ptr (h : Heap a bs fl) (hb : b ∈ bs) : sub32 (b.off + HDR) HDR = b.off := by
  have hbd := h.tiles.bounds b hb
  have hcap := h.ctl.cap
  rw [← h.ctl.heap_end] at hcap
  simp only [HDR, MIN_BLOCK, Block.stop] at hbd ⊢
  rw [sub32_eq (by omega) (by omega)]
  omega

/-! ### Frames -/

/-- The list is as it was where its blocks are. -/
theorem RetireList.congr {a a' : Arena} {bs' : List Block} (h : RetireList a bs rl)
    (hk : ∀ b ∈ bs, b.free = false → b.off ∈ rl → b ∈ bs' ∧
      ∀ i, b.off ≤ i → i < b.stop → a'.mem i = a.mem i)
    (hh : a'.retire_head = a.retire_head) : RetireList a' bs' rl := by
  refine ⟨SList.congr (fun x hx => ?_) h.links, hh.trans h.head, h.nodup, fun x hx => ?_⟩
  · obtain ⟨b, hb, rfl, hf, hr⟩ := h.room x hx
    simp only [HDR, RETIRED_BYTES, FTR] at hr
    refine Mem.get_congr fun i h1 h2 => (hk b hb hf hx).2 i ?_ ?_ <;>
      simp only [HDR, Block.stop] at * <;> omega
  · obtain ⟨b, hb, rfl, hf, hr⟩ := h.room x hx
    exact ⟨b, (hk b hb hf hx).1, rfl, hf, hr⟩

theorem Heap.inUse_apart (h : Heap a bs fl) (hb : b ∈ bs) {c : Block} (hc : c ∈ bs)
    (hne : c.off ≠ b.off) : c.stop ≤ b.off ∨ b.stop ≤ c.off :=
  (h.tiles.apart hc hb).resolve_left fun e => hne (e ▸ rfl)

/-- The link of the retire list is rewritten in one block. -/
theorem setRetiredNext_spec (h : Heap a bs fl) (hb : b ∈ bs) (hf : b.free = false)
    (hr : HDR + RETIRED_BYTES + FTR ≤ b.size) {v : Nat} (hv : v < 256 ^ 4) :
    Heap (a.setRetiredNext b.off v) bs fl ∧ (a.setRetiredNext b.off v).retiredNext b.off = v ∧
    KeepsBut [b.off] bs a (a.setRetiredNext b.off v) := by
  simp only [HDR, RETIRED_BYTES, FTR] at hr
  have hlen : (leBytes 4 v).length = 4 := length_leBytes ..
  obtain ⟨h1, h2⟩ := h.write_payload hb hf (b.off + HDR + 8) (leBytes 4 v)
    (by simp only [HDR]; omega) (by simp only [HDR, FTR, Block.stop]; omega)
    (show a.setRetiredNext b.off v = _ by simp only [setRetiredNext, Mem.put])
  refine ⟨h1, Mem.get_put _ hv, fun c hc _ i h3 h4 h5 => h2 i ?_⟩
  rw [hlen]
  by_cases hcb : c.off = b.off
  · have := h5 (by simp [hcb])
    rw [hcb] at this
    simp only [HDR] at this ⊢
    omega
  · have := h.inUse_apart hb hc hcb
    simp only [HDR, Block.stop] at *
    omega

/-! ### Retiring -/

/-- A block with room for the record joins the retire list; only its first twelve payload bytes are
    written. -/
theorem retire_spec (h : Heap a bs fl) (hl : RetireList a bs rl) (hb : b ∈ bs) (hf : b.free = false)
    (hnew : b.off ∉ rl) (hr : HDR + RETIRED_BYTES + FTR ≤ b.size) {now : Nat} (hnow : now < 2 ^ 64) :
    Heap (a.retire (b.off + HDR) now) bs fl ∧
    RetireList (a.retire (b.off + HDR) now) bs (b.off :: rl) ∧
    (a.retire (b.off + HDR) now).retiredAt b.off = now ∧
    (a.retire (b.off + HDR) now).cap = a.cap ∧
    ∀ i, (i < b.off + HDR ∨ b.off + HDR + 12 ≤ i) →
      (a.retire (b.off + HDR) now).mem i = a.mem i := by
  have hr' := hr
  simp only [HDR, RETIRED_BYTES, FTR] at hr
  have hhead : a.retire_head < 256 ^ 4 := by
    rw [hl.head]
    rcases headD_mem_or rl NIL with e | e
    · rw [e]; simp [NIL]
    · obtain ⟨c, hc, e', -, -⟩ := hl.room _ e
      have hbd := h.tiles.bounds c hc
      have hcap := h.ctl.cap
      rw [← h.ctl.heap_end] at hcap
      rw [← e']
      simp only [Block.stop] at hbd
      norm_num
      omega
  -- the timestamp, then the link, then the head of the list
  obtain ⟨a₁, ha₁⟩ : ∃ x, x = a.setRetiredAt b.off now := ⟨_, rfl⟩
  have hlen : (leBytes 8 now).length = 8 := length_leBytes ..
  obtain ⟨h1, hm1⟩ := h.write_payload hb hf (b.off + HDR) (leBytes 8 now)
    (Nat.le_refl _) (by simp only [HDR, FTR, Block.stop]; omega)
    (show a₁ = _ by rw [ha₁]; simp only [setRetiredAt, Mem.put])
  rw [hlen] at hm1
  obtain ⟨h2, hn2, hk2⟩ := setRetiredNext_spec h1 hb hf hr' hhead
  obtain ⟨a₂, ha₂⟩ : ∃ x, x = a₁.setRetiredNext b.off a.retire_head := ⟨_, rfl⟩
  have hm2 : ∀ i, (i < b.off + HDR + 8 ∨ b.off + HDR + 12 ≤ i) → a₂.mem i = a₁.mem i := fun i hi => by
    rw [ha₂]
    simp only [setRetiredNext]
    exact Mem.put_out _ (by omega)
  have e : a.retire (b.off + HDR) now = { a₂ with retire_head := b.off } := by
    rw [retire, if_neg (by simp [h.ctl.ok, HDR])]
    simp only [h.off_of_ptr hb, h.isFree_eq hb, h.size_eq hb, hf]
    rw [if_neg (by simp), if_neg (by omega), ha₂, ha₁]
  have hmem : ∀ i, (i < b.off + HDR ∨ b.off + HDR + 12 ≤ i) → a₂.mem i = a.mem i := fun i hi =>
    (hm2 i (by omega)).trans (hm1 i (by omega))
  rw [← ha₂] at h2 hn2
  rw [e]
  refine ⟨⟨⟨h2.ctl.ok, h2.ctl.heap, h2.ctl.heap_end, h2.ctl.cap⟩, h2.tiles, h2.shape, h2.coalesced,
    h2.linked.congr (fun _ _ _ _ _ => rfl) rfl, h2.listed, h2.used⟩,
    ⟨⟨hn2.trans hl.head, SList.congr (fun x hx => ?_) hl.links⟩, rfl,
      List.nodup_cons.mpr ⟨hnew, hl.nodup⟩, ?_⟩, ?_, by rw [ha₂, ha₁]; rfl, hmem⟩
  · obtain ⟨c, hc, rfl, hcf, hcr⟩ := hl.room x hx
    have := h.inUse_apart hb hc (fun e => hnew (e ▸ hx))
    simp only [HDR, RETIRED_BYTES, FTR, Block.stop] at hcr this
    exact Mem.get_congr fun i h3 h4 => hmem i (by simp only [HDR] at *; omega)
  · intro x hx
    rcases List.mem_cons.mp hx with rfl | hx
    · exact ⟨b, hb, rfl, hf, hr'⟩
    · exact hl.room x hx
  · have h3 : a₂.retiredAt b.off = a₁.retiredAt b.off :=
      Mem.get_congr fun i _ h4 => hm2 i (by omega)
    have h4 : a₁.retiredAt b.off = now := by
      rw [ha₁]
      exact Mem.get_put _ (by norm_num at hnow ⊢; omega)
    exact h3.trans h4

/-- A block too small for the record is freed at once. -/
theorem retire_small (h : Heap a bs fl) (hb : b ∈ bs) (hf : b.free = false)
    (hr : b.size < HDR + RETIRED_BYTES + FTR) (now : Nat) :
    a.retire (b.off + HDR) now = a.free (b.off + HDR) := by
  rw [retire, if_neg (by simp [h.ctl.ok, HDR])]
  simp only [h.off_of_ptr hb, h.isFree_eq hb, h.size_eq hb, hf]
  rw [if_neg (by simp), if_pos hr]

/-! ### Reclaiming -/

/-- Is the block at `x` due at `now`? -/
def dueAt (a : Arena) (now x : Nat) : Bool := due now (a.retiredAt x)

/-- The walk starts at `rs` with `ks` kept so far. -/
structure Walk (a : Arena) (bs : List Block) (rs ks : List Nat) : Prop where
  rest : SList a.retiredNext rs
  kept : SList a.retiredNext ks
  nodup : (rs ++ ks).Nodup
  room : ∀ x ∈ rs ++ ks, ∃ b ∈ bs, b.off = x ∧ b.free = false ∧ HDR + RETIRED_BYTES + FTR ≤ b.size

/-- What the walk leaves: the blocks that are due are gone from the heap, the others are kept. -/
structure Walked (a : Arena) (bs : List Block) (now : Nat) (rs ks : List Nat) (r : Arena × Nat)
    (bs' : List Block) (fl' : List Nat) : Prop where
  heap : Heap r.1 bs' fl'
  head : r.2 = ((rs.filter fun x => !a.dueAt now x).reverse ++ ks).headD NIL
  links : SList r.1.retiredNext ((rs.filter fun x => !a.dueAt now x).reverse ++ ks)
  inUse : inUse bs' = (inUse bs).filter fun b => !(decide (b.off ∈ rs) && a.dueAt now b.off)
  cap : r.1.cap = a.cap
  keeps : KeepsBut rs bs' a r.1

theorem retiredAt_congr {a a' : Arena} {l : List Nat} (hk : KeepsBut l bs a a') (hb : b ∈ bs)
    (hf : b.free = false) (hr : HDR + RETIRED_BYTES + FTR ≤ b.size) :
    a'.retiredAt b.off = a.retiredAt b.off := by
  simp only [HDR, RETIRED_BYTES, FTR] at hr
  exact hk.get hb hf (by omega) (by simp only [HDR, Block.stop]; omega) fun _ => Or.inl (by omega)

theorem retiredNext_congr {a a' : Arena} {l : List Nat} (hk : KeepsBut l bs a a') (hb : b ∈ bs)
    (hf : b.free = false) (hr : HDR + RETIRED_BYTES + FTR ≤ b.size) (hl : b.off ∉ l) :
    a'.retiredNext b.off = a.retiredNext b.off := by
  simp only [HDR, RETIRED_BYTES, FTR] at hr
  exact hk.get hb hf (by omega) (by simp only [HDR, Block.stop]; omega) fun h => absurd h hl

theorem inUse_erase (h : Heap a (pre ++ b :: post) fl) :
    inUse (pre ++ post) = (inUse (pre ++ b :: post)).filter fun c => c.off ≠ b.off := by
  have hall : ∀ c ∈ pre ++ post, c.off ≠ b.off := fun c hc e => by
    have := h.tiles.apart_mid hc
    have h1 := h.tiles.bounds b (by simp)
    have h2 := h.tiles.bounds c (by rcases List.mem_append.mp hc with hc | hc <;> simp [hc])
    simp only [Block.Apart, Block.stop, MIN_BLOCK] at this h1 h2
    omega
  have hkeep : ∀ l, (∀ c ∈ l, c ∈ pre ++ post) →
      (inUse l).filter (fun c => c.off ≠ b.off) = inUse l := fun l hl =>
    List.filter_eq_self.mpr fun c hc => by simpa using hall c (hl c (mem_inUse.mp hc).1)
  rw [inUse_append, inUse_append, List.filter_append, hkeep pre (fun c hc => by simp [hc])]
  congr 1
  cases hf : b.free with
  | true => rw [inUse_cons_free _ hf, hkeep post (fun c hc => by simp [hc])]
  | false =>
    rw [inUse_cons_used _ hf, List.filter_cons_of_neg (by simp), hkeep post (fun c hc => by simp [hc])]

/-- A block that is due leaves the heap; the rest of the walk does not notice. -/
theorem walk_due {x : Nat} {rs ks : List Nat} (h : Heap a bs fl) (w : Walk a bs (x :: rs) ks) :
    ∃ bs₁ fl₁, Heap (a.free (x + HDR)) bs₁ fl₁ ∧ Walk (a.free (x + HDR)) bs₁ rs ks ∧
      inUse bs₁ = (inUse bs).filter (fun c => c.off ≠ x) ∧ Keeps bs₁ a (a.free (x + HDR)) ∧
      (a.free (x + HDR)).cap = a.cap := by
  obtain ⟨b, hb, rfl, hf, -⟩ := w.room x (by simp)
  obtain ⟨pre, post, rfl⟩ := List.append_of_mem hb
  obtain ⟨bs₁, fl₁, h1, hu, -, hcap, hk, -⟩ := free_spec h hf
  have hk1 : Keeps bs₁ a (a.free (b.off + HDR)) := hk.of_inUse (by rw [hu]; exact fun _ hx => hx)
  rw [inUse_erase h] at hu
  have hnd := w.nodup
  rw [List.cons_append, List.nodup_cons] at hnd
  -- the other retired blocks survive the free
  have room : ∀ y ∈ rs ++ ks, ∃ c ∈ bs₁, c.off = y ∧ c.free = false ∧
      HDR + RETIRED_BYTES + FTR ≤ c.size := fun y hy => by
    obtain ⟨c, hc, e, hcf, hcr⟩ := w.room y (List.mem_cons_of_mem _ hy)
    have hne : c.off ≠ b.off := fun e' => hnd.1 (by rw [← e', e]; exact hy)
    have hm : c ∈ inUse bs₁ := by
      rw [hu, List.mem_filter]
      exact ⟨mem_inUse.mpr ⟨hc, hcf⟩, by simpa using hne⟩
    exact ⟨c, (mem_inUse.mp hm).1, e, hcf, hcr⟩
  have hnext : ∀ y ∈ rs ++ ks, (a.free (b.off + HDR)).retiredNext y = a.retiredNext y := fun y hy => by
    obtain ⟨c, hc, rfl, hcf, hcr⟩ := room y hy
    exact retiredNext_congr (hk1.keepsBut []) hc hcf hcr (by simp)
  exact ⟨bs₁, fl₁, h1, ⟨SList.congr (fun y hy => hnext y (by simp [hy])) w.rest.2,
    SList.congr (fun y hy => hnext y (by simp [hy])) w.kept, hnd.2, room⟩, hu, hk1, hcap⟩

/-- A block that is not due moves to the front of the kept list. -/
theorem walk_keep {x : Nat} {rs ks : List Nat} (h : Heap a bs fl) (w : Walk a bs (x :: rs) ks) :
    Heap (a.setRetiredNext x (ks.headD NIL)) bs fl ∧
    Walk (a.setRetiredNext x (ks.headD NIL)) bs rs (x :: ks) ∧
    KeepsBut [x] bs a (a.setRetiredNext x (ks.headD NIL)) ∧
    (a.setRetiredNext x (ks.headD NIL)).cap = a.cap := by
  obtain ⟨b, hb, rfl, hf, hr⟩ := w.room x (by simp)
  have hlt : ks.headD NIL < 256 ^ 4 := by
    rcases headD_mem_or ks NIL with e | e
    · rw [e]; simp [NIL]
    · obtain ⟨c, hc, e', -, -⟩ := w.room (ks.headD NIL) (by simp only [List.mem_append]; exact Or.inr e)
      have hbd := h.tiles.bounds c hc
      have hcap := h.ctl.cap
      rw [← h.ctl.heap_end] at hcap
      rw [← e']
      simp only [Block.stop] at hbd
      norm_num
      omega
  obtain ⟨h1, hn, hk⟩ := setRetiredNext_spec h hb hf hr hlt
  have hnd := w.nodup
  rw [List.cons_append, List.nodup_cons] at hnd
  have hnext : ∀ y ∈ rs ++ ks, (a.setRetiredNext b.off (ks.headD NIL)).retiredNext y =
      a.retiredNext y := fun y hy => by
    obtain ⟨c, hc, rfl, hcf, hcr⟩ := w.room y (List.mem_cons_of_mem _ hy)
    refine retiredNext_congr hk hc hcf hcr fun e => hnd.1 ?_
    rw [← List.mem_singleton.mp e]
    exact hy
  have hmem : ∀ y ∈ rs ++ b.off :: ks, y ∈ b.off :: rs ++ ks :=
    fun y hy => List.perm_middle.mem_iff.mp hy
  exact ⟨h1, ⟨SList.congr (fun y hy => hnext y (by simp [hy])) w.rest.2,
    ⟨hn, SList.congr (fun y hy => hnext y (by simp [hy])) w.kept⟩,
    List.nodup_middle.mpr (List.nodup_cons.mpr hnd), fun y hy => w.room y (hmem y hy)⟩, hk,
    by simp only [setRetiredNext]⟩

theorem dueAt_congr {a a' : Arena} {l : List Nat} (now : Nat) (rs : List Nat) (hk : KeepsBut l bs a a')
    (hr : ∀ x ∈ rs, ∃ b ∈ bs, b.off = x ∧ b.free = false ∧ HDR + RETIRED_BYTES + FTR ≤ b.size) :
    ∀ x ∈ rs, a'.dueAt now x = a.dueAt now x := fun x hx => by
  obtain ⟨b, hb, rfl, hf, hbr⟩ := hr x hx
  rw [dueAt, dueAt, retiredAt_congr hk hb hf hbr]

/-- A block that was in use when the rest of the walk ended was in use before it. -/
theorem Walked.was_inUse {now : Nat} {rs ks fl' : List Nat} {r : Arena × Nat} {bs' : List Block}
    (w : Walked a bs now rs ks r bs' fl') (hb : b ∈ bs') (hf : b.free = false) : b ∈ bs := by
  have hm := mem_inUse.mpr ⟨hb, hf⟩
  rw [w.inUse] at hm
  exact (mem_inUse.mp (List.mem_of_mem_filter hm)).1

/-- The walk goes on behind a block that was due and has been freed. -/
theorem walked_due {a₁ : Arena} {now x : Nat} {rs ks fl' : List Nat} {r : Arena × Nat}
    {bs₁ bs' : List Block} (hdx : a.dueAt now x = true)
    (hu : inUse bs₁ = (inUse bs).filter fun c => c.off ≠ x) (hk : Keeps bs₁ a a₁) (hcap : a₁.cap = a.cap)
    (hdue : ∀ y ∈ rs, a₁.dueAt now y = a.dueAt now y) (w : Walked a₁ bs₁ now rs ks r bs' fl') :
    Walked a bs now (x :: rs) ks r bs' fl' := by
  have hfil : (x :: rs).filter (fun y => !a.dueAt now y) = rs.filter fun y => !a₁.dueAt now y := by
    rw [List.filter_cons_of_neg (by simp [hdx])]
    exact List.filter_congr fun y hy => by rw [hdue y hy]
  refine ⟨w.heap, by rw [hfil]; exact w.head, by rw [hfil]; exact w.links, ?_, w.cap.trans hcap, ?_⟩
  · rw [w.inUse, hu, List.filter_filter]
    refine List.filter_congr fun b hb => ?_
    by_cases hbx : b.off = x
    · simp [hbx, hdx]
    · by_cases hbr : b.off ∈ rs
      · simp [hbx, hbr, hdue b.off hbr]
      · simp [hbx, hbr]
  · intro b hb hf i h2 h3 h4
    exact (w.keeps b hb hf i h2 h3 fun hm => h4 (by simp [hm])).trans
      (hk b (w.was_inUse hb hf) hf i h2 h3)

/-- The walk goes on behind a block that is kept. -/
theorem walked_keep {a₁ : Arena} {now x : Nat} {rs ks fl' : List Nat} {r : Arena × Nat}
    {bs' : List Block} (hdx : a.dueAt now x = false) (hx : x ∉ rs) (hk : KeepsBut [x] bs a a₁)
    (hcap : a₁.cap = a.cap) (hdue : ∀ y ∈ rs, a₁.dueAt now y = a.dueAt now y)
    (w : Walked a₁ bs now rs (x :: ks) r bs' fl') : Walked a bs now (x :: rs) ks r bs' fl' := by
  have hfil : ((x :: rs).filter (fun y => !a.dueAt now y)).reverse ++ ks =
      (rs.filter fun y => !a₁.dueAt now y).reverse ++ x :: ks := by
    have hf2 : rs.filter (fun y => !a.dueAt now y) = rs.filter fun y => !a₁.dueAt now y :=
      List.filter_congr fun y hy => by rw [hdue y hy]
    rw [List.filter_cons_of_pos (by simp [hdx]), List.reverse_cons, List.append_assoc,
      List.singleton_append, hf2]
  refine ⟨w.heap, by rw [hfil]; exact w.head, by rw [hfil]; exact w.links, ?_, w.cap.trans hcap, ?_⟩
  · rw [w.inUse]
    refine List.filter_congr fun b hb => ?_
    by_cases hbx : b.off = x
    · simp [hbx, hdx, hx]
    · by_cases hbr : b.off ∈ rs
      · simp [hbr, hdue b.off hbr]
      · simp [hbx, hbr]
  · intro b hb hf i h2 h3 h4
    exact (w.keeps b hb hf i h2 h3 fun hm => h4 (by simp [hm])).trans
      (hk b (w.was_inUse hb hf) hf i h2 h3 fun hm => h4 (by simp [List.mem_singleton.mp hm]))

/-- A retired block is not at the offset that stands for none. -/
theorem Walk.ne_nil {x : Nat} {rs ks : List Nat} (h : Heap a bs fl) (w : Walk a bs (x :: rs) ks) :
    x ≠ NIL := by
  obtain ⟨b, hb, rfl, -, -⟩ := w.room x (by simp)
  have := (h.tiles.bounds b hb).1
  rw [h.ctl.heap] at this
  simp only [BNCL_CTL_BYTES, NIL] at this ⊢
  omega

/-- The whole walk: each block that is due is freed once, each other block is kept once. -/
theorem reclaimLoop_spec (now : Nat) : ∀ {rs : List Nat} {fuel : Nat} {a : Arena} {bs : List Block}
    {fl ks : List Nat}, Heap a bs fl → Walk a bs rs ks → rs.length < fuel →
    ∃ bs' fl', Walked a bs now rs ks (reclaimLoop now fuel a (rs.headD NIL) (ks.headD NIL)) bs' fl'
  | _, 0, _, _, _, _, _, _, hl => absurd hl (Nat.not_lt_zero _)
  | [], fuel + 1, a, bs, fl, ks, h, w, _ => by
    refine ⟨bs, fl, h, rfl, w.kept, ?_, rfl, fun _ _ _ _ _ _ _ => rfl⟩
    simp
  | x :: rs, fuel + 1, a, bs, fl, ks, h, w, hl => by
    have hl' : rs.length < fuel := by simpa using hl
    have hnd := w.nodup
    rw [List.cons_append, List.nodup_cons] at hnd
    have hxrs : x ∉ rs := fun hm => hnd.1 (by simp [hm])
    rw [List.headD_cons, reclaimLoop, if_neg (w.ne_nil h),
      show a.retiredNext x = rs.headD NIL from w.rest.1]
    by_cases hd : due now (a.retiredAt x) = true
    · rw [if_pos hd]
      obtain ⟨bs₁, fl₁, h1, w1, hu, hk, hcap⟩ := walk_due h w
      have hdue := dueAt_congr now rs (hk.keepsBut []) fun y hy => w1.room y (by simp [hy])
      obtain ⟨bs', fl', r⟩ := reclaimLoop_spec now h1 w1 hl'
      exact ⟨bs', fl', walked_due hd hu hk hcap hdue r⟩
    · rw [if_neg hd]
      obtain ⟨h1, w1, hk, hcap⟩ := walk_keep h w
      have hdue := dueAt_congr now rs hk fun y hy => w.room y (by simp [hy])
      obtain ⟨bs', fl', r⟩ := reclaimLoop_spec now h1 w1 hl'
      exact ⟨bs', fl', walked_keep (by simpa [dueAt] using hd) hxrs hk hcap hdue r⟩

theorem RetireList.length_lt (h : Heap a bs fl) (hl : RetireList a bs rl) : rl.length < a.cap := by
  have h1 := h.tiles.length_le
  rw [h.ctl.heap_end, h.ctl.heap] at h1
  simp only [MIN_BLOCK, BNCL_CTL_BYTES] at h1
  have h2 : rl ⊆ bs.map Block.off := fun x hx => by
    obtain ⟨b, hb, rfl, -, -⟩ := hl.room x hx
    exact List.mem_map_of_mem hb
  have h3 := (List.subperm_of_subset hl.nodup h2).length_le
  rw [List.length_map] at h3
  omega

/-- The head of the retire list is no part of the heap. -/
theorem Heap.of_retire_head (h : Heap a bs fl) (x : Nat) : Heap { a with retire_head := x } bs fl :=
  ⟨⟨h.ctl.ok, h.ctl.heap, h.ctl.heap_end, h.ctl.cap⟩, h.tiles, h.shape, h.coalesced,
    h.linked.congr (fun _ _ _ _ _ => rfl) rfl, h.listed, h.used⟩

/-- `reclaim` takes the whole list off its head before it walks it. -/
theorem RetireList.walk (hl : RetireList a bs rl) : Walk { a with retire_head := NIL } bs rl [] :=
  ⟨SList.congr (fun _ _ => rfl) hl.links, trivial, by simpa using hl.nodup, by simpa using hl.room⟩

/-- `reclaim` frees exactly the retired blocks that are due. -/
theorem reclaim_spec (h : Heap a bs fl) (hl : RetireList a bs rl) (now : Nat) :
    ∃ bs' fl', Heap (a.reclaim now) bs' fl' ∧
      RetireList (a.reclaim now) bs' (rl.filter fun x => !a.dueAt now x).reverse ∧
      inUse bs' = (inUse bs).filter (fun b => !(decide (b.off ∈ rl) && a.dueAt now b.off)) ∧
      (a.reclaim now).cap = a.cap ∧ KeepsBut rl bs' a (a.reclaim now) := by
  obtain ⟨a₀, ha₀⟩ : ∃ x : Arena, x = { a with retire_head := NIL } := ⟨_, rfl⟩
  have hmem : a₀.mem = a.mem := by rw [ha₀]
  have hcap : a₀.cap = a.cap := by rw [ha₀]
  have h0 : Heap a₀ bs fl := ha₀ ▸ h.of_retire_head NIL
  have w : Walk a₀ bs rl [] := ha₀ ▸ hl.walk
  have hdue : ∀ x, a₀.dueAt now x = a.dueAt now x := fun x => by
    rw [dueAt, dueAt, retiredAt, retiredAt, hmem]
  obtain ⟨bs', fl', r⟩ := reclaimLoop_spec now h0 w (hl.length_lt h)
  obtain ⟨q, hq⟩ : ∃ q, q = reclaimLoop now a.cap a₀ (rl.headD NIL) NIL := ⟨_, rfl⟩
  rw [List.headD_nil, ← hq] at r
  have e : a.reclaim now = { q.1 with retire_head := q.2 } := by
    rw [reclaim, if_neg (by simp [h.ctl.ok]), hl.head, hq, ha₀]
  have hlist := r.links
  have hhead := r.head
  have huse := r.inUse
  simp only [hdue, List.append_nil] at hlist hhead huse
  rw [e]
  refine ⟨bs', fl', r.heap.of_retire_head q.2,
    ⟨hlist, hhead, List.nodup_reverse.mpr (hl.nodup.filter _), fun x hx => ?_⟩, huse,
    r.cap.trans hcap, fun b hb hf i h1 h2 h3 => ?_⟩
  · rw [List.mem_reverse, List.mem_filter] at hx
    obtain ⟨b, hb, rfl, hf, hr⟩ := hl.room x hx.1
    have : b ∈ inUse bs' := by
      rw [huse, List.mem_filter]
      exact ⟨mem_inUse.mpr ⟨hb, hf⟩, by simpa using Or.inr (by simpa using hx.2)⟩
    exact ⟨b, (mem_inUse.mp this).1, rfl, hf, hr⟩
  · exact (r.keeps b hb hf i h1 h2 h3).trans (by rw [hmem])

end Barnacle.Arena
