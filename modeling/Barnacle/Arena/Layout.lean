import Mathlib.Data.List.Basic
import Mathlib.Data.List.Perm.Basic
import Mathlib.Data.List.Nodup
import Mathlib.Data.List.Chain
import Mathlib.Data.List.Pairwise
import Barnacle.Arena.Model

/-! What the heap is, apart from the bytes that spell it: a list of blocks laid end to end. A block
    is an extent and whether it is free; the lists here are in address order. -/

namespace Barnacle.Arena
open Barnacle.Lib

/-- An extent of the heap. -/
structure Block where
  off : Nat
  size : Nat
  free : Bool
deriving DecidableEq, Repr

/-- One past the last byte of the block. -/
def Block.stop (b : Block) : Nat := b.off + b.size

/-- What the block adds to `used`. -/
def Block.room (b : Block) : Nat := b.size - (HDR + FTR)

/-- The blocks cover `[lo, hi)` end to end, none smaller than `MIN_BLOCK`. -/
def Tiles (lo hi : Nat) : List Block → Prop
  | [] => lo = hi
  | b :: bs => b.off = lo ∧ MIN_BLOCK ≤ b.size ∧ Tiles (lo + b.size) hi bs

/-- No two neighbours are both free. -/
def Coalesced (bs : List Block) : Prop := bs.IsChain fun x y => ¬(x.free = true ∧ y.free = true)

/-- The blocks in use. -/
def inUse (bs : List Block) : List Block := bs.filter fun b => !b.free

/-- What `used` should say. -/
def usedOf (bs : List Block) : Nat := ((inUse bs).map Block.room).sum

/-! ### Tilings -/

theorem tiles_append {lo hi : Nat} {xs ys : List Block} :
    Tiles lo hi (xs ++ ys) ↔ ∃ mid, Tiles lo mid xs ∧ Tiles mid hi ys := by
  induction xs generalizing lo with
  | nil => simp [Tiles]
  | cons x xs ih =>
    simp only [List.cons_append, Tiles, ih]
    constructor
    · rintro ⟨h1, h2, mid, h3, h4⟩; exact ⟨mid, ⟨h1, h2, h3⟩, h4⟩
    · rintro ⟨mid, ⟨h1, h2, h3⟩, h4⟩; exact ⟨h1, h2, mid, h3, h4⟩

theorem Tiles.length_le {hi : Nat} {bs : List Block} : ∀ {lo : Nat}, Tiles lo hi bs →
    lo + MIN_BLOCK * bs.length ≤ hi := by
  induction bs with
  | nil =>
    intro lo h
    rw [Tiles] at h
    simp [h]
  | cons b bs ih =>
    intro lo h
    obtain ⟨-, hs, h⟩ := h
    have := ih h
    simp only [List.length_cons, MIN_BLOCK] at *
    omega

theorem Tiles.le {lo hi : Nat} {bs : List Block} (h : Tiles lo hi bs) : lo ≤ hi := by
  have := h.length_le
  omega

theorem Tiles.bounds {hi : Nat} {bs : List Block} : ∀ {lo : Nat}, Tiles lo hi bs → ∀ b ∈ bs,
    lo ≤ b.off ∧ MIN_BLOCK ≤ b.size ∧ b.stop ≤ hi := by
  induction bs with
  | nil =>
    intro lo _ b hb
    cases hb
  | cons b bs ih =>
    intro lo h c hc
    obtain ⟨ho, hs, h⟩ := h
    have hle := h.le
    rcases List.mem_cons.mp hc with rfl | hc
    · exact ⟨by omega, hs, by rw [Block.stop]; omega⟩
    · obtain ⟨h1, h2, h3⟩ := ih h c hc
      exact ⟨by omega, h2, h3⟩

/-- Two blocks that do not share a byte. -/
def Block.Apart (b c : Block) : Prop := b.stop ≤ c.off ∨ c.stop ≤ b.off

instance : Std.Symm Block.Apart := ⟨fun _ _ => Or.symm⟩

theorem Tiles.pairwise {lo hi : Nat} : ∀ {bs : List Block}, Tiles lo hi bs →
    bs.Pairwise fun b c => b.stop ≤ c.off
  | [], _ => .nil
  | b :: bs, ⟨ho, _, h⟩ => by
    refine .cons (fun c hc => ?_) h.pairwise
    rw [Block.stop, ho]
    exact (h.bounds c hc).1

theorem Tiles.apart {lo hi : Nat} {bs : List Block} (h : Tiles lo hi bs) {b c : Block} (hb : b ∈ bs)
    (hc : c ∈ bs) : b = c ∨ b.Apart c := by
  by_cases hne : b = c
  · exact Or.inl hne
  · right
    have key : bs.Pairwise Block.Apart := h.pairwise.imp Or.inl
    exact key.forall hb hc hne

theorem Tiles.off_inj {lo hi : Nat} {bs : List Block} (h : Tiles lo hi bs) {b c : Block}
    (hb : b ∈ bs) (hc : c ∈ bs) (he : b.off = c.off) : b = c := by
  rcases h.apart hb hc with h1 | h1
  · exact h1
  · have h2 := (h.bounds b hb).2.1
    have h3 := (h.bounds c hc).2.1
    simp only [Block.Apart, Block.stop, MIN_BLOCK] at h1 h2 h3
    omega

theorem Tiles.nodup {lo hi : Nat} {bs : List Block} (h : Tiles lo hi bs) : (bs.map Block.off).Nodup := by
  rw [List.Nodup, List.pairwise_map]
  refine (h.pairwise.imp_of_mem fun {b c} hb _ hbc => ?_)
  have := (h.bounds b hb).2.1
  simp only [Block.stop, MIN_BLOCK] at hbc this
  omega

/-- Where the middle block of a tiling begins and where the rest goes on. -/
theorem Tiles.mid {lo hi : Nat} {pre : List Block} {b : Block} {post : List Block}
    (h : Tiles lo hi (pre ++ b :: post)) :
    Tiles lo b.off pre ∧ MIN_BLOCK ≤ b.size ∧ Tiles b.stop hi post := by
  obtain ⟨mid, h1, rfl, h2, h3⟩ := tiles_append.mp h
  exact ⟨h1, h2, h3⟩

theorem Tiles.of_mid {lo hi : Nat} {pre : List Block} {b : Block} {post : List Block}
    (h1 : Tiles lo b.off pre) (h2 : MIN_BLOCK ≤ b.size) (h3 : Tiles b.stop hi post) :
    Tiles lo hi (pre ++ b :: post) :=
  tiles_append.mpr ⟨b.off, h1, rfl, h2, h3⟩

theorem Tiles.apart_mid {lo hi : Nat} {pre : List Block} {c : Block} {post : List Block}
    (h : Tiles lo hi (pre ++ c :: post)) {b : Block} (hb : b ∈ pre ++ post) : b.Apart c := by
  obtain ⟨h1, -, h3⟩ := h.mid
  rcases List.mem_append.mp hb with hb | hb
  · exact Or.inl (h1.bounds b hb).2.2
  · exact Or.inr (h3.bounds b hb).1

/-- The block before `lo`, read off the end of a nonempty tiling. -/
theorem Tiles.last {lo hi : Nat} {pre : List Block} {b : Block} (h : Tiles lo hi (pre ++ [b])) :
    b.stop = hi := by
  obtain ⟨_, _, h3⟩ := h.mid
  exact h3

/-! ### Neighbours -/

/-- The block before and the block after are not free, where there is one. -/
def Bounded (pre post : List Block) : Prop :=
  (∀ b ∈ pre.getLast?, b.free = false) ∧ (∀ b ∈ post.head?, b.free = false)

theorem coalesced_mid {pre : List Block} {b : Block} {post : List Block} :
    Coalesced (pre ++ b :: post) ↔
      Coalesced pre ∧ Coalesced post ∧ (b.free = true → Bounded pre post) := by
  simp only [Coalesced, List.isChain_append, List.isChain_cons, Bounded, List.head?_cons,
    Option.mem_some_iff]
  constructor
  · rintro ⟨h1, ⟨h2, h3⟩, h4⟩
    exact ⟨h1, h3, fun hb => ⟨fun c hc => by simpa [hb] using h4 c hc b rfl,
      fun c hc => by simpa [hb] using h2 c hc⟩⟩
  · rintro ⟨h1, h2, h3⟩
    refine ⟨h1, ⟨fun c hc hbc => ?_, h2⟩, ?_⟩
    · have := (h3 hbc.1).2 c hc
      rw [this] at hbc
      exact Bool.noConfusion hbc.2
    · rintro c hc _ rfl hbc
      have := (h3 hbc.2).1 c hc
      rw [this] at hbc
      exact Bool.noConfusion hbc.1

/-- Blocks in use separate what is before them from what is after. -/
theorem coalesced_gap : ∀ {pre gap post : List Block}, (∀ c ∈ gap, c.free = false) → gap ≠ [] →
    (Coalesced (pre ++ (gap ++ post)) ↔ Coalesced pre ∧ Coalesced post)
  | pre, [c], post, hg, _ => by
    have hc : c.free = false := hg c (by simp)
    simp [coalesced_mid, hc]
  | pre, c :: d :: gap, post, hg, _ => by
    have hc : c.free = false := hg c (by simp)
    have ih := @coalesced_gap [] (d :: gap) post
      (fun x hx => hg x (List.mem_cons_of_mem _ hx)) (by simp)
    rw [List.nil_append] at ih
    have hnil : Coalesced [] := .nil
    rw [List.cons_append, coalesced_mid, ih]
    simp [hc, hnil]

/-! ### Free ranges -/

/-- Every byte of the range lies in some block. -/
theorem Tiles.cover {lo hi : Nat} {bs : List Block} (h : Tiles lo hi bs) {i : Nat} (h1 : lo ≤ i)
    (h2 : i < hi) : ∃ b ∈ bs, b.off ≤ i ∧ i < b.stop := by
  induction bs generalizing lo with
  | nil =>
    rw [Tiles] at h
    omega
  | cons b bs ih =>
    obtain ⟨ho, -, h⟩ := h
    by_cases hlt : i < lo + b.size
    · exact ⟨b, by simp, by omega, by rw [Block.stop]; omega⟩
    · obtain ⟨c, hc, hi⟩ := ih h (by omega)
      exact ⟨c, by simp [hc], hi⟩

/-- What comes after a free block is not free. -/
theorem Tiles.after_free {lo hi : Nat} {bs : List Block} (h : Tiles lo hi bs) (hco : Coalesced bs)
    {b : Block} (hb : b ∈ bs) (hf : b.free = true) :
    b.stop = hi ∨ ∃ c ∈ bs, c.free = false ∧ c.off = b.stop := by
  obtain ⟨pre, post, rfl⟩ := List.append_of_mem hb
  have hnext := ((coalesced_mid.mp hco).2.2 hf).2
  have hpost := h.mid.2.2
  cases post with
  | nil => exact Or.inl hpost
  | cons c post => exact Or.inr ⟨c, by simp, hnext c rfl, hpost.1⟩

/-- What comes before a free block is not free. -/
theorem Tiles.before_free {lo hi : Nat} {bs : List Block} (h : Tiles lo hi bs) (hco : Coalesced bs)
    {b : Block} (hb : b ∈ bs) (hf : b.free = true) :
    b.off = lo ∨ ∃ c ∈ bs, c.free = false ∧ c.stop = b.off := by
  obtain ⟨pre, post, rfl⟩ := List.append_of_mem hb
  have hlast := ((coalesced_mid.mp hco).2.2 hf).1
  have hpre := h.mid.1
  cases pre using List.reverseRecOn with
  | nil => exact Or.inl hpre.symm
  | append_singleton pre c _ => exact Or.inr ⟨c, by simp, hlast c (by simp), hpre.last⟩

/-- Bytes in a row none of which is in use lie in one free block. -/
theorem Tiles.free_range {lo hi : Nat} {bs : List Block} (h : Tiles lo hi bs) (hco : Coalesced bs)
    {i j : Nat} (h1 : lo ≤ i) (h2 : j ≤ hi) (hij : i < j)
    (hfree : ∀ k, i ≤ k → k < j → ∀ b ∈ bs, b.free = false → ¬(b.off ≤ k ∧ k < b.stop)) :
    ∃ b ∈ bs, b.free = true ∧ b.off ≤ i ∧ j ≤ b.stop := by
  obtain ⟨b, hb, hbi⟩ := h.cover h1 (by omega : i < hi)
  have hbf : b.free = true := by
    by_contra hne
    exact hfree i (Nat.le_refl _) hij b hb (by simpa using hne) hbi
  refine ⟨b, hb, hbf, hbi.1, ?_⟩
  by_contra hlt
  rcases h.after_free hco hb hbf with he | ⟨c, hc, hcf, he⟩
  · omega
  · have hcs := (h.bounds c hc).2.1
    simp only [MIN_BLOCK] at hcs
    exact hfree b.stop (by omega) (by omega) c hc hcf
      ⟨by omega, show b.stop < c.off + c.size by omega⟩

/-! ### Blocks in use -/

@[simp] theorem inUse_nil : inUse [] = [] := rfl

@[simp] theorem inUse_append (xs ys : List Block) : inUse (xs ++ ys) = inUse xs ++ inUse ys :=
  List.filter_append ..

theorem inUse_cons_free {b : Block} (bs : List Block) (h : b.free = true) :
    inUse (b :: bs) = inUse bs := by
  simp [inUse, h]

theorem inUse_cons_used {b : Block} (bs : List Block) (h : b.free = false) :
    inUse (b :: bs) = b :: inUse bs := by
  simp [inUse, h]

theorem mem_inUse {b : Block} {bs : List Block} : b ∈ inUse bs ↔ b ∈ bs ∧ b.free = false := by
  simp [inUse]

theorem usedOf_mid {pre post : List Block} {b : Block} (h : b.free = false) :
    usedOf (pre ++ b :: post) = usedOf (pre ++ post) + b.room := by
  simp only [usedOf, inUse_append, inUse_cons_used _ h, List.map_append, List.map_cons,
    List.sum_append, List.sum_cons]
  omega

theorem usedOf_mid_free {pre post : List Block} {b : Block} (h : b.free = true) :
    usedOf (pre ++ b :: post) = usedOf (pre ++ post) := by
  simp only [usedOf, inUse_append, inUse_cons_free _ h]

theorem Tiles.usedOf_le {hi : Nat} {bs : List Block} : ∀ {lo : Nat}, Tiles lo hi bs →
    lo + usedOf bs ≤ hi := by
  induction bs with
  | nil =>
    intro lo h
    rw [Tiles] at h
    simp [usedOf, inUse, h]
  | cons b bs ih =>
    intro lo h
    obtain ⟨-, -, h⟩ := h
    have := ih h
    cases hb : b.free with
    | true => rw [usedOf, inUse_cons_free _ hb, ← usedOf]; omega
    | false =>
      rw [usedOf, inUse_cons_used _ hb, List.map_cons, List.sum_cons, ← usedOf, Block.room]
      omega

end Barnacle.Arena
