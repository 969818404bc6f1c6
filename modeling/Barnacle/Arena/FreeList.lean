import Barnacle.Lib.Links
import Barnacle.Arena.Layout

/-! The free list: the blocks marked free, linked through their own headers. `unlink` takes a block
    out of it from anywhere, `linkFront` puts one in at the front; each touches only the link fields
    of listed blocks, which is the frame the heap invariant needs. -/

namespace Barnacle.Arena
open Barnacle.Lib

/-! ### Words of the header -/

theorem next_lt (a : Arena) (x : Nat) : a.next x < 256 ^ 4 := a.mem.get_lt ..

theorem prev_lt (a : Arena) (x : Nat) : a.prev x < 256 ^ 4 := a.mem.get_lt ..

theorem size_lt (a : Arena) (x : Nat) : a.size x < 256 ^ 4 := a.mem.get_lt ..

/-- Two headers that do not overlap. -/
def Clear (x y : Nat) : Prop := x + HDR ≤ y ∨ y + HDR ≤ x

theorem Clear.symm {x y : Nat} (h : Clear x y) : Clear y x := Or.symm h

@[simp] theorem next_setNext (a : Arena) (x : Nat) {v : Nat} (h : v < 256 ^ 4) :
    (a.setNext x v).next x = v := a.mem.get_put h

@[simp] theorem prev_setPrev (a : Arena) (x : Nat) {v : Nat} (h : v < 256 ^ 4) :
    (a.setPrev x v).prev x = v := a.mem.get_put h

theorem next_setNext_of_clear (a : Arena) {x y v : Nat} (h : Clear x y) :
    (a.setNext x v).next y = a.next y :=
  a.mem.get_put_of_disjoint (by simp only [Clear, HDR] at h; omega)

theorem prev_setPrev_of_clear (a : Arena) {x y v : Nat} (h : Clear x y) :
    (a.setPrev x v).prev y = a.prev y :=
  a.mem.get_put_of_disjoint (by simp only [Clear, HDR] at h; omega)

theorem prev_setNext (a : Arena) {x y v : Nat} (h : x = y ∨ Clear x y) :
    (a.setNext x v).prev y = a.prev y :=
  a.mem.get_put_of_disjoint (by simp only [Clear, HDR] at h; omega)

theorem next_setPrev (a : Arena) {x y v : Nat} (h : x = y ∨ Clear x y) :
    (a.setPrev x v).next y = a.next y :=
  a.mem.get_put_of_disjoint (by simp only [Clear, HDR] at h; omega)

theorem next_setFree (a : Arena) {x y v : Nat} (h : x = y ∨ Clear x y) :
    (a.setFree x v).next y = a.next y :=
  a.mem.get_put_of_disjoint (by simp only [Clear, HDR] at h; omega)

theorem prev_setFree (a : Arena) {x y v : Nat} (h : x = y ∨ Clear x y) :
    (a.setFree x v).prev y = a.prev y :=
  a.mem.get_put_of_disjoint (by simp only [Clear, HDR] at h; omega)

/-! ### Frames -/

/-- Everything but the bytes and the head of the free list. -/
structure SameCtl (a b : Arena) : Prop where
  ok : b.ok = a.ok
  cap : b.cap = a.cap
  heap : b.heap = a.heap
  heap_end : b.heap_end = a.heap_end
  retire_head : b.retire_head = a.retire_head
  used : b.used = a.used

theorem SameCtl.refl (a : Arena) : SameCtl a a := ⟨rfl, rfl, rfl, rfl, rfl, rfl⟩

theorem SameCtl.trans {a b c : Arena} (h : SameCtl a b) (g : SameCtl b c) : SameCtl a c :=
  ⟨g.ok.trans h.ok, g.cap.trans h.cap, g.heap.trans h.heap, g.heap_end.trans h.heap_end,
    g.retire_head.trans h.retire_head, g.used.trans h.used⟩

theorem setSize_sameCtl (a : Arena) (x v : Nat) : SameCtl a (a.setSize x v) := by
  constructor <;> simp only [setSize]

theorem setFoot_sameCtl (a : Arena) (x : Nat) : SameCtl a (a.setFoot x) := by
  constructor <;> simp only [setFoot]

theorem setFree_sameCtl (a : Arena) (x v : Nat) : SameCtl a (a.setFree x v) := by
  constructor <;> simp only [setFree]

theorem free_head_setSize (a : Arena) (x v : Nat) : (a.setSize x v).free_head = a.free_head := by
  simp only [setSize]

theorem free_head_setFoot (a : Arena) (x : Nat) : (a.setFoot x).free_head = a.free_head := by
  simp only [setFoot]

theorem free_head_setFree (a : Arena) (x v : Nat) : (a.setFree x v).free_head = a.free_head := by
  simp only [setFree]

theorem mem_setSize (a : Arena) (x v : Nat) : (a.setSize x v).mem = a.mem.put x 4 v := rfl

theorem size_setSize (a : Arena) (x : Nat) {v : Nat} (h : v < 256 ^ 4) :
    (a.setSize x v).size x = v := a.mem.get_put h

theorem mem_setFoot (a : Arena) (x : Nat) :
    (a.setFoot x).mem = a.mem.put (x + a.size x - FTR) 4 (a.size x) := by
  simp only [setFoot]

/-- Only the link fields of the headers in `l` may differ. -/
def LinksOnly (l : List Nat) (a b : Arena) : Prop :=
  ∀ i, (∀ x ∈ l, i < x + 8 ∨ x + HDR ≤ i) → b.mem i = a.mem i

theorem LinksOnly.get {l : List Nat} {a b : Arena} (h : LinksOnly l a b) {p w : Nat}
    (hp : ∀ x ∈ l, p + w ≤ x + 8 ∨ x + HDR ≤ p) : b.mem.get p w = a.mem.get p w :=
  Mem.get_congr fun i h1 h2 => h i fun x hx => by have := hp x hx; omega

/-- Only the link fields of the headers in `l` and the bytes of `W` may differ. -/
def Writes (l : List Nat) (W : Nat → Prop) (a b : Arena) : Prop :=
  ∀ i, ¬ W i → (∀ x ∈ l, i < x + 8 ∨ x + HDR ≤ i) → b.mem i = a.mem i

theorem Writes.trans {l l' : List Nat} {V W : Nat → Prop} {a b c : Arena} (h : Writes l V a b)
    (g : Writes l' W b c) (hl : l' ⊆ l) : Writes l (fun i => V i ∨ W i) a c :=
  fun i hi hx => (g i (fun hw => hi (Or.inr hw)) fun x hm => hx x (hl hm)).trans
    (h i (fun hv => hi (Or.inl hv)) hx)

theorem Writes.mono {l : List Nat} {V W : Nat → Prop} {a b : Arena} (h : Writes l V a b)
    (hw : ∀ i, V i → W i) : Writes l W a b := fun i hi hx => h i (fun hv => hi (hw i hv)) hx

theorem Writes.same {l : List Nat} {W : Nat → Prop} {a b : Arena} (h : b.mem = a.mem) : Writes l W a b :=
  fun i _ _ => by rw [h]

theorem LinksOnly.writes {l l' : List Nat} {a b : Arena} (h : LinksOnly l' a b) (hl : l' ⊆ l)
    (W : Nat → Prop) : Writes l W a b := fun i _ hx => h i fun x hm => hx x (hl hm)

/-! ### A linked list of free blocks -/

/-- The free list spells out `l`: nonzero headers apart from one another, linked both ways. -/
structure Linked (a : Arena) (l : List Nat) : Prop where
  links : DList a.next a.prev NIL l
  head : a.free_head = l.headD NIL
  nodup : l.Nodup
  pos : NIL ∉ l
  lt : ∀ x ∈ l, x < 256 ^ 4
  clear : ∀ x ∈ l, ∀ y ∈ l, x = y ∨ Clear x y

theorem Linked.neighbours {a : Arena} {l : List Nat} (h : Linked a l) {x : Nat} (hx : x ∈ l) :
    (a.prev x = NIL ∨ a.prev x ∈ l.erase x) ∧ (a.next x = NIL ∨ a.next x ∈ l.erase x) := by
  obtain ⟨l₁, l₂, rfl⟩ := List.append_of_mem hx
  have hnd := h.nodup
  have hx1 : x ∉ l₁ := fun hm => (List.nodup_append.mp hnd).2.2 x hm x (by simp) rfl
  obtain ⟨hp, hn⟩ := h.links.at_mid
  rw [List.erase_append_right _ hx1, List.erase_cons_head, hp, hn]
  refine ⟨(getLastD_mem_or l₁ NIL).imp id fun hm => List.mem_append_left _ hm,
    (headD_mem_or l₂ NIL).imp id fun hm => List.mem_append_right _ hm⟩

theorem Linked.clear_erase {a : Arena} {l : List Nat} (h : Linked a l) {x y : Nat} (hx : x ∈ l)
    (hy : y ∈ l.erase x) : Clear x y := by
  have hy' := h.nodup.mem_erase_iff.mp hy
  exact (h.clear x hx y hy'.2).resolve_left fun e => hy'.1 e.symm

theorem unlink_sameCtl (a : Arena) (x : Nat) : SameCtl a (a.unlink x) := by
  unfold unlink
  dsimp only
  generalize hb : (if a.prev x ≠ NIL then a.setNext (a.prev x) (a.next x)
    else { a with free_head := a.next x }) = b
  have h : SameCtl a b := by
    subst hb
    split <;> exact ⟨rfl, rfl, rfl, rfl, rfl, rfl⟩
  split
  · exact ⟨h.ok, h.cap, h.heap, h.heap_end, h.retire_head, h.used⟩
  · exact h

theorem linkFront_sameCtl (a : Arena) (x : Nat) : SameCtl a (a.linkFront x) := by
  simp only [linkFront]
  split <;> exact ⟨rfl, rfl, rfl, rfl, rfl, rfl⟩

/-- The links of the other listed blocks after `unlink`, and the head. -/
theorem Linked.unlink_links {a : Arena} {l : List Nat} (h : Linked a l) {x : Nat} (hx : x ∈ l) :
    (∀ y ∈ l.erase x, (a.unlink x).next y = if y = a.prev x then a.next x else a.next y) ∧
    (∀ y ∈ l.erase x, (a.unlink x).prev y = if y = a.next x then a.prev x else a.prev y) ∧
    (a.unlink x).free_head = (if a.prev x = NIL then a.next x else a.free_head) ∧
    LinksOnly (l.erase x) a (a.unlink x) := by
  obtain ⟨hp, hn⟩ := h.neighbours hx
  have pos : ∀ y ∈ l.erase x, y ≠ NIL := fun y hy e => h.pos (e ▸ List.mem_of_mem_erase hy)
  have cl : ∀ y ∈ l.erase x, ∀ z ∈ l.erase x, y = z ∨ Clear y z := fun y hy z hz =>
    h.clear y (List.mem_of_mem_erase hy) z (List.mem_of_mem_erase hz)
  -- the predecessor's `next` (or the head) first, then the successor's `prev`
  by_cases hp0 : a.prev x = NIL
  · have e1 : a.unlink x = if a.next x ≠ NIL then
        ({ a with free_head := a.next x } : Arena).setPrev (a.next x) (a.prev x)
        else { a with free_head := a.next x } := by
      rw [unlink, if_neg (not_not.mpr hp0)]; rfl
    have hpy : ∀ y ∈ l.erase x, ¬ y = a.prev x := fun y hy e => pos y hy (e.trans hp0)
    by_cases hn0 : a.next x = NIL
    · rw [if_neg (not_not.mpr hn0)] at e1
      rw [e1]
      refine ⟨fun y hy => ?_, fun y hy => ?_, ?_, fun i _ => rfl⟩
      · rw [if_neg (hpy y hy)]; rfl
      · rw [if_neg (fun e => pos y hy (e.trans hn0))]; rfl
      · rw [if_pos hp0]
    · rw [if_pos hn0] at e1
      have hm := hn.resolve_left hn0
      rw [e1]
      refine ⟨fun y hy => ?_, fun y hy => ?_, ?_, fun i hi => ?_⟩
      · rw [if_neg (hpy y hy)]
        exact next_setPrev _ (cl _ hm y hy)
      · split
        next e => subst e; exact prev_setPrev _ _ (a.prev_lt x)
        next e => exact prev_setPrev_of_clear _ ((cl _ hm y hy).resolve_left fun h => e h.symm)
      · rw [if_pos hp0]; rfl
      · exact Mem.put_out _ (by have := hi _ hm; simp only [HDR] at this; omega)
  · have hmp := hp.resolve_left hp0
    have hxp := (h.clear_erase hx hmp).symm
    have e1 : a.unlink x = if a.next x ≠ NIL then
        (a.setNext (a.prev x) (a.next x)).setPrev (a.next x) (a.prev x)
        else a.setNext (a.prev x) (a.next x) := by
      rw [unlink, if_pos hp0, next_setNext_of_clear a hxp, prev_setNext a (Or.inr hxp)]
    have hne : ∀ y ∈ l.erase x, (a.setNext (a.prev x) (a.next x)).next y =
        if y = a.prev x then a.next x else a.next y := fun y hy => by
      split
      next e => subst e; exact next_setNext _ _ (a.next_lt x)
      next e => exact next_setNext_of_clear _ ((cl _ hmp y hy).resolve_left fun h => e h.symm)
    by_cases hn0 : a.next x = NIL
    · rw [if_neg (not_not.mpr hn0)] at e1
      rw [e1]
      refine ⟨hne, fun y hy => ?_, ?_, fun i hi => ?_⟩
      · rw [if_neg (fun e => pos y hy (e.trans hn0))]
        exact prev_setNext _ (cl _ hmp y hy)
      · rw [if_neg hp0]; rfl
      · exact Mem.put_out _ (by have := hi _ hmp; simp only [HDR] at this; omega)
    · rw [if_pos hn0] at e1
      have hm := hn.resolve_left hn0
      rw [e1]
      refine ⟨fun y hy => ?_, fun y hy => ?_, ?_, fun i hi => ?_⟩
      · rw [next_setPrev _ (cl _ hm y hy)]
        exact hne y hy
      · split
        next e => subst e; exact prev_setPrev _ _ (a.prev_lt x)
        next e =>
          rw [prev_setPrev_of_clear _ ((cl _ hm y hy).resolve_left fun h => e h.symm)]
          exact prev_setNext _ (cl _ hmp y hy)
      · rw [if_neg hp0]; rfl
      · have h1 := hi _ hm
        have h2 := hi _ hmp
        simp only [HDR] at h1 h2
        exact (Mem.put_out _ (by omega)).trans (Mem.put_out _ (by omega))

/-- `unlink` takes exactly its block out of the list. -/
theorem Linked.unlink {a : Arena} {l : List Nat} (h : Linked a l) {x : Nat} (hx : x ∈ l) :
    Linked (a.unlink x) (l.erase x) ∧ LinksOnly (l.erase x) a (a.unlink x) := by
  obtain ⟨hne, hpr, hhd, hmem⟩ := h.unlink_links hx
  refine ⟨⟨?_, ?_, h.nodup.erase x, fun hm => h.pos (List.mem_of_mem_erase hm),
    fun y hy => h.lt y (List.mem_of_mem_erase hy), fun y hy z hz => h.clear y (List.mem_of_mem_erase hy) z (List.mem_of_mem_erase hz)⟩, hmem⟩
  all_goals
    obtain ⟨l₁, l₂, rfl⟩ := List.append_of_mem hx
    have hx1 : x ∉ l₁ := fun hm => (List.nodup_append.mp h.nodup).2.2 x hm x (by simp) rfl
    rw [List.erase_append_right _ hx1, List.erase_cons_head] at *
  · refine DList.unlink h.links (List.nodup_cons.mpr ⟨h.pos, h.nodup⟩) h.pos ?_ ?_ ?_ ?_
    · intro y hy e; rw [hne y hy, if_neg e]
    · intro hy; rw [hne _ hy, if_pos rfl]
    · intro y hy e; rw [hpr y hy, if_neg e]
    · intro hy; rw [hpr _ hy, if_pos rfl]
  · obtain ⟨hp, hn⟩ := h.links.at_mid
    rw [hhd, hp, hn, h.head]
    cases l₁ with
    | nil => rfl
    | cons y l₁ =>
      have hy : NIL ≠ (y :: l₁).getLastD NIL := by
        intro e
        rw [List.getLastD_cons] at e
        rcases getLastD_mem_or l₁ y with e' | e'
        · exact h.pos (by rw [e, e']; simp)
        · exact h.pos (by rw [e]; exact List.mem_append_left _ (List.mem_cons_of_mem _ e'))
      rw [if_neg (Ne.symm hy)]
      rfl

/-- `linkFront` puts its block at the front and marks it free. -/
theorem Linked.linkFront {a : Arena} {l : List Nat} (h : Linked a l) {x : Nat} (hx : NIL < x)
    (hlt : x < 256 ^ 4) (hcl : ∀ y ∈ l, Clear x y) :
    Linked (a.linkFront x) (x :: l) ∧ (a.linkFront x).isFree x = 1 ∧
    ∀ i, (i < x + 4 ∨ x + HDR ≤ i) → (∀ y ∈ l, i < y + 8 ∨ y + HDR ≤ i) →
      (a.linkFront x).mem i = a.mem i := by
  have hxl : x ∉ l := fun hm => by
    have := hcl x hm
    simp only [Clear, HDR] at this
    omega
  have hfh : a.free_head = NIL ∨ a.free_head ∈ l := h.head ▸ headD_mem_or l NIL
  have hhlt : a.free_head < 256 ^ 4 := hfh.elim (fun e => by simp [e, NIL]) (h.lt _)
  let b := ((a.setFree x 1).setPrev x NIL).setNext x a.free_head
  have e1 : a.linkFront x = { (if a.free_head ≠ NIL then b.setPrev a.free_head x else b) with
      free_head := x } := rfl
  have bnext : ∀ y ∈ l, b.next y = a.next y := fun y hy => by
    rw [next_setNext_of_clear _ (hcl y hy), next_setPrev _ (Or.inr (hcl y hy)),
      next_setFree _ (Or.inr (hcl y hy))]
  have bprev : ∀ y ∈ l, b.prev y = a.prev y := fun y hy => by
    rw [prev_setNext _ (Or.inr (hcl y hy)), prev_setPrev_of_clear _ (hcl y hy),
      prev_setFree _ (Or.inr (hcl y hy))]
  have bnx : b.next x = a.free_head := next_setNext _ _ hhlt
  have bpx : b.prev x = NIL := by
    rw [prev_setNext _ (Or.inl rfl)]
    exact prev_setPrev _ _ (by simp [NIL])
  have bfree : b.isFree x = 1 := by
    have h1 : b.isFree x = ((a.setFree x 1).setPrev x NIL).isFree x :=
      Mem.get_put_of_disjoint _ (by omega)
    have h2 : ((a.setFree x 1).setPrev x NIL).isFree x = (a.setFree x 1).isFree x :=
      Mem.get_put_of_disjoint _ (by omega)
    rw [h1, h2]
    exact Mem.get_put _ (by norm_num)
  have bmem : ∀ i, (i < x + 4 ∨ x + HDR ≤ i) → b.mem i = a.mem i := fun i hi => by
    simp only [HDR] at hi
    exact (Mem.put_out _ (by omega)).trans ((Mem.put_out _ (by omega)).trans
      (Mem.put_out _ (by omega)))
  rw [e1]
  rcases hfh with h0 | hm
  · -- an empty list: nothing to point back
    rw [if_neg (not_not.mpr h0)]
    have hl : l = [] := by
      cases l with
      | nil => rfl
      | cons y ys => exact absurd (by rw [← h0, h.head]; simp) h.pos
    subst hl
    exact ⟨⟨⟨bpx, bnx.trans h.head, trivial⟩, rfl, by simp, by simpa using hx.ne,
      by simpa using hlt, by simp⟩, bfree, fun i hi _ => bmem i hi⟩
  · have hne : a.free_head ≠ NIL := fun e => h.pos (e ▸ hm)
    rw [if_pos hne]
    have hc := (hcl _ hm).symm
    refine ⟨⟨?_, rfl, List.nodup_cons.mpr ⟨hxl, h.nodup⟩, by simp [h.pos, hx.ne],
      fun y hy => ?_, ?_⟩, ?_, fun i hi hl => ?_⟩
    · refine DList.push h.links h.nodup ?_ ?_ ?_ ?_ ?_
      · exact (prev_setPrev_of_clear b hc).trans bpx
      · exact (next_setPrev b (Or.inr hc)).trans (bnx.trans h.head)
      · exact fun y hy => (next_setPrev b (h.clear _ hm y hy)).trans (bnext y hy)
      · intro y hy e
        have hcy := (h.clear _ hm y hy).resolve_left fun e' => e (e'.symm.trans h.head)
        exact (prev_setPrev_of_clear b hcy).trans (bprev y hy)
      · intro _
        have e : l.headD 0 = a.free_head := h.head.symm
        rw [e]
        exact prev_setPrev b _ hlt
    · rcases List.mem_cons.mp hy with rfl | hy
      · exact hlt
      · exact h.lt y hy
    · intro y hy z hz
      rcases List.mem_cons.mp hy with ey | hy <;> rcases List.mem_cons.mp hz with ez | hz
      · exact Or.inl (ey.trans ez.symm)
      · exact Or.inr (ey ▸ hcl z hz)
      · exact Or.inr (ez ▸ (hcl y hy).symm)
      · exact h.clear y hy z hz
    · have : (b.setPrev a.free_head x).isFree x = b.isFree x :=
        Mem.get_put_of_disjoint _ (by simp only [Clear, HDR] at hc; omega)
      exact this.trans bfree
    · have := hl _ hm
      simp only [HDR] at this
      exact (Mem.put_out _ (by omega)).trans (bmem i hi)

end Barnacle.Arena
