import Mathlib.Algebra.BigOperators.Group.List.Basic
import Barnacle.Arena.Placement

/-! One `reclaim`, as a whole. The walk of the retire list ends although the list runs through the
    blocks being freed (`Reclaims`); it frees what is due, keeps the rest with its times, and the
    heap it leaves depends on which blocks are in use and on nothing else (`Tiles.eq_of_inUse`),
    whatever the order in which neighbours were merged. -/

namespace Barnacle.Arena
open Barnacle.Lib

variable {a : Arena} {bs bs' : List Block} {b : Block} {fl fl' rl : List Nat}

/-! ### Reading the arena -/

def retireFrom (a : Arena) : Nat → Nat → List Nat
  | 0, _ => []
  | fuel + 1, off => if off = NIL then [] else off :: retireFrom a fuel (a.retiredNext off)

/-- The retire list, read from its head. -/
def retireList (a : Arena) : List Nat := a.retireFrom a.cap a.retire_head

def blocksFrom (a : Arena) : Nat → Nat → List Block
  | 0, _ => []
  | fuel + 1, off =>
    if off ≥ a.heap_end then []
    else ⟨off, a.size off, decide (a.isFree off ≠ 0)⟩ :: blocksFrom a fuel (off + a.size off)

/-- The blocks, read from the bottom of the heap up. -/
def blocks (a : Arena) : List Block := a.blocksFrom a.cap a.heap

/-- The extents that are free. -/
def freeExtents (a : Arena) : List (Nat × Nat) :=
  (a.blocks.filter Block.free).map fun b => (b.off, b.size)

theorem retireFrom_eq : ∀ {rl : List Nat} {fuel : Nat}, SList a.retiredNext rl → NIL ∉ rl →
    rl.length < fuel → a.retireFrom fuel (rl.headD NIL) = rl
  | _, 0, _, _, hl => absurd hl (Nat.not_lt_zero _)
  | [], fuel + 1, _, _, _ => rfl
  | x :: rl, fuel + 1, ⟨hn, hs⟩, h0, hl => by
    have hx : x ≠ NIL := fun e => h0 (by simp [e])
    have hn : a.retiredNext x = rl.headD NIL := hn
    rw [List.headD_cons, retireFrom, if_neg hx, hn,
      retireFrom_eq hs (fun hm => h0 (by simp [hm])) (by simpa using hl)]

theorem RetireList.nil_notMem (hl : RetireList a bs rl) (h : Heap a bs fl) : NIL ∉ rl := by
  intro hm
  obtain ⟨b, hb, e, -, -⟩ := hl.room _ hm
  have := (h.tiles.bounds b hb).1
  rw [h.ctl.heap, e] at this
  exact absurd this (by decide)

theorem RetireList.retireList_eq (hl : RetireList a bs rl) (h : Heap a bs fl) : a.retireList = rl := by
  rw [retireList, hl.head]
  exact retireFrom_eq hl.links (hl.nil_notMem h) (hl.length_lt h)

theorem blocksFrom_eq : ∀ {bs : List Block} {fuel lo : Nat}, Tiles lo a.heap_end bs →
    (∀ b ∈ bs, Shape a.mem b) → bs.length < fuel → a.blocksFrom fuel lo = bs
  | _, 0, _, _, _, hl => absurd hl (Nat.not_lt_zero _)
  | [], fuel + 1, lo, ht, _, _ => by
    rw [blocksFrom, if_pos (Nat.le_of_eq (Eq.symm ht))]
  | b :: bs, fuel + 1, lo, ht, hs, hl => by
    obtain ⟨rfl, hmin, htail⟩ := ht
    have hb := hs b (by simp)
    have hle := htail.le
    have hsz : a.size b.off = b.size := hb.size
    have hfree : decide (a.isFree b.off ≠ 0) = b.free := by
      rw [isFree, hb.flag]
      cases b.free <;> rfl
    simp only [MIN_BLOCK] at hmin
    rw [blocksFrom, if_neg (by omega), hsz, hfree,
      blocksFrom_eq htail (fun c hc => hs c (by simp [hc])) (by simpa using hl)]

theorem Heap.blocks_eq (h : Heap a bs fl) : a.blocks = bs := by
  refine blocksFrom_eq h.tiles h.shape ?_
  have h1 := h.tiles.length_le
  rw [h.ctl.heap_end, h.ctl.heap] at h1
  simp only [MIN_BLOCK, BNCL_CTL_BYTES] at h1
  omega

/-! ### One heap for every order -/

/-- The blocks in use determine the free ones between them. -/
theorem Tiles.eq_of_inUse {hi : Nat} : ∀ {bs bs' : List Block} {lo : Nat}, Tiles lo hi bs →
    Tiles lo hi bs' → Coalesced bs → Coalesced bs' → inUse bs = inUse bs' → bs = bs' := by
  intro bs
  induction bs with
  | nil =>
    intro bs' lo h h' _ _ _
    rcases bs' with _ | ⟨b', bs'⟩
    · rfl
    · have hlo : lo = hi := h
      have := h'.length_le
      simp only [List.length_cons, MIN_BLOCK] at this
      omega
  | cons b bs ih =>
    intro bs' lo h h' hc hc' hu
    rcases bs' with _ | ⟨b', bs'⟩
    · have hlo : lo = hi := h'
      have := h.length_le
      simp only [List.length_cons, MIN_BLOCK] at this
      omega
    · have htail := h.2.2
      have htail' := h'.2.2
      have hct : Coalesced bs := hc.tail
      have hct' : Coalesced bs' := hc'.tail
      have hoff : b.off = b'.off := h.1.trans h'.1.symm
      have hmin := h.2.1
      have hmin' := h'.2.1
      -- a block in use lies behind a free one in front
      have hbehind : ∀ {x y : Block} {xs ys : List Block} {lo : Nat}, Tiles lo hi (x :: xs) →
          Tiles lo hi (y :: ys) → inUse (x :: xs) = inUse (y :: ys) → x.free = false → y.free = true →
          False := by
        intro x y xs ys lo hx hy hu hxf hyf
        rw [inUse_cons_used _ hxf, inUse_cons_free _ hyf] at hu
        have hm : x ∈ inUse ys := by rw [← hu]; simp
        have := (hy.2.2.bounds x (mem_inUse.mp hm).1).1
        have h1 := hx.1
        have h2 := hy.2.1
        simp only [MIN_BLOCK] at h2
        omega
      rcases hf : b.free with _ | _ <;> rcases hf' : b'.free with _ | _
      · rw [inUse_cons_used _ hf, inUse_cons_used _ hf'] at hu
        obtain ⟨rfl, hu'⟩ := List.cons.inj hu
        rw [ih htail htail' hct hct' hu']
      · exact (hbehind h h' hu hf hf').elim
      · exact (hbehind h' h hu.symm hf' hf).elim
      · -- both free: the next block in use, or the end of the heap, says where they end
        rw [inUse_cons_free _ hf, inUse_cons_free _ hf'] at hu
        have hnext : ∀ {x : Block} {xs : List Block} {lo : Nat}, Tiles lo hi (x :: xs) →
            Coalesced (x :: xs) → x.free = true → lo + x.size = ((inUse xs).head?.map Block.off).getD hi := by
          intro x xs lo hx hcx hxf
          rcases xs with _ | ⟨y, ys⟩
          · exact hx.2.2
          · have hyf : y.free = false := by
              have := List.isChain_cons_cons.mp hcx
              simpa [hxf] using this.1
            rw [inUse_cons_used _ hyf]
            exact hx.2.2.1.symm
        have hsize : b.size = b'.size := by
          have h1 := hnext h hc hf
          have h2 := hnext h' hc' hf'
          rw [hu] at h1
          omega
        have hb : b = b' := by
          cases b
          cases b'
          simp_all
        subst hb
        rw [ih htail htail' hct hct' hu]

/-! ### The walk -/

/-- The loop of `reclaim` from the block `off` on, with `keep` the head of what is kept so far: it comes
    to its end, with these blocks freed on the way, this arena and this list kept. -/
inductive Reclaims (now : Nat) : Arena → Nat → Nat → List Nat → Arena → Nat → Prop
  | done (a : Arena) (keep : Nat) : Reclaims now a NIL keep [] a keep
  | free {a a' : Arena} {off keep keep' : Nat} {freed : List Nat} (hoff : off ≠ NIL)
      (hdue : due now (a.retiredAt off) = true)
      (rest : Reclaims now (a.free (off + HDR)) (a.retiredNext off) keep freed a' keep') :
      Reclaims now a off keep (off :: freed) a' keep'
  | keep {a a' : Arena} {off keep keep' : Nat} {freed : List Nat} (hoff : off ≠ NIL)
      (hdue : due now (a.retiredAt off) = false)
      (rest : Reclaims now (a.setRetiredNext off keep) (a.retiredNext off) off freed a' keep') :
      Reclaims now a off keep freed a' keep'

/-- The walk ends, and frees what was due when it started. Induction on the blocks still to visit: the
    times of the others are no part of what a visit writes. -/
theorem reclaimLoop_reclaims (now : Nat) : ∀ {rs : List Nat} {fuel : Nat} {a : Arena} {bs : List Block}
    {fl ks : List Nat}, Heap a bs fl → Walk a bs rs ks → rs.length < fuel →
    Reclaims now a (rs.headD NIL) (ks.headD NIL) (rs.filter (a.dueAt now))
      (reclaimLoop now fuel a (rs.headD NIL) (ks.headD NIL)).1
      (reclaimLoop now fuel a (rs.headD NIL) (ks.headD NIL)).2
  | _, 0, _, _, _, _, _, _, hl => absurd hl (Nat.not_lt_zero _)
  | [], fuel + 1, a, bs, fl, ks, _, _, _ => .done a _
  | x :: rs, fuel + 1, a, bs, fl, ks, h, w, hl => by
    have hl' : rs.length < fuel := by simpa using hl
    have hnext : a.retiredNext x = rs.headD NIL := w.rest.1
    rw [List.headD_cons, reclaimLoop, if_neg (w.ne_nil h), hnext]
    by_cases hd : due now (a.retiredAt x) = true
    · have hdx : a.dueAt now x = true := hd
      rw [if_pos hd, List.filter_cons_of_pos hdx]
      obtain ⟨bs₁, fl₁, h1, w1, -, hk, -⟩ := walk_due h w
      have hdue := dueAt_congr now rs (hk.keepsBut []) fun y hy => w1.room y (by simp [hy])
      have hrest := reclaimLoop_reclaims now h1 w1 hl'
      rw [List.filter_congr hdue] at hrest
      exact .free (w.ne_nil h) hd (hnext ▸ hrest)
    · have hdx : ¬ a.dueAt now x = true := hd
      rw [if_neg hd, List.filter_cons_of_neg hdx]
      obtain ⟨h1, w1, hk, -⟩ := walk_keep h w
      have hdue := dueAt_congr now rs hk fun y hy => w.room y (by simp [hy])
      have hrest := reclaimLoop_reclaims now h1 w1 hl'
      rw [List.filter_congr hdue] at hrest
      exact .keep (w.ne_nil h) (by simpa using hd) (hnext ▸ hrest)

/-- What `reclaim` frees, and the arena it leaves. -/
def ReclaimFrees (now : Nat) (a : Arena) (freed : List Nat) (a' : Arena) : Prop :=
  ∃ r k, Reclaims now { a with retire_head := NIL } a.retire_head NIL freed r k ∧
    a' = { r with retire_head := k }

theorem reclaim_frees (h : Heap a bs fl) (hl : RetireList a bs rl) (now : Nat) :
    ReclaimFrees now a (rl.filter (a.dueAt now)) (a.reclaim now) := by
  have hw := reclaimLoop_reclaims now (h.of_retire_head NIL) hl.walk (hl.length_lt h)
  refine ⟨_, _, ?_, by rw [reclaim, if_neg (by simp [h.ctl.ok])]⟩
  rw [hl.head]
  exact hw

/-! ### What is used -/

theorem sum_room_split (q : Block → Bool) : ∀ l : List Block,
    (l.map Block.room).sum = ((l.filter fun b => !q b).map Block.room).sum + ((l.filter q).map Block.room).sum
  | [] => rfl
  | b :: l => by
    have ih := sum_room_split q l
    rcases hb : q b with _ | _
    · rw [List.filter_cons_of_pos (by simp [hb]), List.filter_cons_of_neg (by simp [hb])]
      simp only [List.map_cons, List.sum_cons]
      omega
    · rw [List.filter_cons_of_neg (by simp [hb]), List.filter_cons_of_pos (by simp [hb])]
      simp only [List.map_cons, List.sum_cons]
      omega

/-- The freed blocks in the order of the list, and in the order of their addresses. -/
theorem freed_perm (h : Heap a bs fl) (hl : RetireList a bs rl) (now : Nat) :
    (rl.filter (a.dueAt now)).Perm
      (((inUse bs).filter fun b => decide (b.off ∈ rl) && a.dueAt now b.off).map Block.off) := by
  have hnodup : ((inUse bs).map Block.off).Nodup :=
    h.tiles.nodup.sublist ((List.filter_sublist (p := fun b : Block => !b.free)).map _)
  refine (List.perm_ext_iff_of_nodup (hl.nodup.filter _) (hnodup.sublist (List.filter_sublist.map _))).mpr ?_
  intro x
  simp only [List.mem_filter, List.mem_map, Bool.and_eq_true, decide_eq_true_eq, mem_inUse]
  constructor
  · rintro ⟨hx, hd⟩
    obtain ⟨b, hb, rfl, hf, -⟩ := hl.room x hx
    exact ⟨b, ⟨⟨hb, hf⟩, hx, hd⟩, rfl⟩
  · rintro ⟨b, ⟨-, hx, hd⟩, rfl⟩
    exact ⟨hx, hd⟩

theorem reclaim_used (h : Heap a bs fl) (hl : RetireList a bs rl) (now : Nat) :
    (a.reclaim now).used + ((rl.filter (a.dueAt now)).map a.payload).sum = a.used := by
  obtain ⟨bs', fl', h', -, hu, -, -⟩ := reclaim_spec h hl now
  have hpay : ((rl.filter (a.dueAt now)).map a.payload).sum =
      (((inUse bs).filter fun b => decide (b.off ∈ rl) && a.dueAt now b.off).map Block.room).sum := by
    rw [((freed_perm h hl now).map a.payload).sum_eq, List.map_map]
    refine congrArg List.sum (List.map_congr_left fun b hb => ?_)
    rw [Function.comp_apply]
    exact HeapBut.payload_eq h (mem_inUse.mp (List.mem_of_mem_filter hb)).1
  rw [hpay, h'.used, h.used, usedOf, usedOf, hu]
  exact (sum_room_split _ _).symm

/-! ### Whole runs -/

theorem Tiles.hi_unique {hi hi' : Nat} : ∀ {bs : List Block} {lo : Nat}, Tiles lo hi bs → Tiles lo hi' bs →
    hi = hi'
  | [], _, h, h' => h.symm.trans h'
  | _ :: _, _, ⟨_, _, h⟩, ⟨_, _, h'⟩ => h.hi_unique h'

/-- The heap after `reclaim` depends on the blocks, on which of them are retired and since when. -/
theorem reclaim_blocks {a₂ : Arena} {fl₂ rl₂ : List Nat} {now : Nat} (h : Heap a bs fl)
    (hl : RetireList a bs rl) (h₂ : Heap a₂ bs fl₂) (hl₂ : RetireList a₂ bs rl₂) (hperm : rl₂.Perm rl)
    (hat : ∀ x ∈ rl, a₂.retiredAt x = a.retiredAt x) : (a₂.reclaim now).blocks = (a.reclaim now).blocks := by
  obtain ⟨bs', fl', h', -, hu, hcap, -⟩ := reclaim_spec h hl now
  obtain ⟨bs₂', fl₂', h₂', -, hu₂, hcap₂, -⟩ := reclaim_spec h₂ hl₂ now
  have hend : a₂.heap_end = a.heap_end := by
    have ht := h₂.tiles
    rw [h₂.ctl.heap, ← h.ctl.heap] at ht
    exact ht.hi_unique h.tiles
  rw [h'.blocks_eq, h₂'.blocks_eq]
  refine Tiles.eq_of_inUse h₂'.tiles ?_ h₂'.coalesced h'.coalesced ?_
  · have ht := h'.tiles
    rwa [h'.ctl.heap, h'.ctl.heap_end, hcap, ← h.ctl.heap_end, ← hend, h₂.ctl.heap_end, ← hcap₂,
      ← h₂'.ctl.heap_end, ← h₂'.ctl.heap] at ht
  · rw [hu, hu₂]
    refine List.filter_congr fun b _ => ?_
    by_cases hb : b.off ∈ rl
    · rw [dueAt, dueAt, hat _ hb, decide_eq_true hb, decide_eq_true (hperm.mem_iff.mpr hb)]
    · rw [decide_eq_false hb, decide_eq_false fun hm => hb (hperm.mem_iff.mp hm), Bool.false_and,
        Bool.false_and]

/-- What holds of one `reclaim`: it comes to its end having freed `freed`, which are the retired blocks
    that are due, each once; the other retired blocks stay on the list, each once and with its time; the
    blocks in use are those that were and are not freed, and `used` is less by what they held. -/
structure Reclaimed (now : Nat) (a a' : Arena) (freed : List Nat) : Prop where
  ends : ReclaimFrees now a freed a'
  exact : ∀ x, x ∈ freed ↔ x ∈ a.retireList ∧ now ≥ a.retiredAt x ∧ now - a.retiredAt x ≥ RETIRE_GRACE_NS
  once : freed.Nodup
  kept : ∀ x, x ∈ a'.retireList ↔ x ∈ a.retireList ∧ x ∉ freed
  kept_once : a'.retireList.Nodup
  times : ∀ x ∈ a'.retireList, a'.retiredAt x = a.retiredAt x
  inUse : inUse a'.blocks = (inUse a.blocks).filter fun b => b.off ∉ freed
  used : a'.used + (freed.map a.payload).sum = a.used

theorem reclaimed (h : Heap a bs fl) (hl : RetireList a bs rl) (now : Nat) :
    Reclaimed now a (a.reclaim now) (rl.filter (a.dueAt now)) := by
  obtain ⟨bs', fl', h', hl', hu, -, hk⟩ := reclaim_spec h hl now
  have hfreed : ∀ x, x ∈ rl.filter (a.dueAt now) ↔ x ∈ rl ∧ a.dueAt now x = true := fun x => List.mem_filter
  have hlist := hl.retireList_eq h
  have hlist' := hl'.retireList_eq h'
  refine ⟨reclaim_frees h hl now, ?_, hl.nodup.filter _, ?_, ?_, ?_, ?_, reclaim_used h hl now⟩
  · intro x
    rw [hfreed, hlist, dueAt, due, Bool.and_eq_true, decide_eq_true_eq, decide_eq_true_eq]
  · intro x
    rw [hlist', hlist, hfreed, List.mem_reverse, List.mem_filter]
    simp only [Bool.not_eq_true', not_and, Bool.not_eq_true]
    exact and_congr_right fun hx => ⟨fun hd _ => hd, fun hd => hd hx⟩
  · rw [hlist']
    exact hl'.nodup
  · intro x hx
    rw [hlist'] at hx
    obtain ⟨b, hb, rfl, hf, hr⟩ := hl'.room x hx
    exact retiredAt_congr hk hb hf hr
  · rw [h'.blocks_eq, h.blocks_eq, hu]
    refine List.filter_congr fun b _ => ?_
    simp only [hfreed, not_and, Bool.not_eq_true, Bool.not_and, ← decide_not]
    by_cases hb : b.off ∈ rl <;> simp [hb]

/-- `reclaim` in every state a run reaches: it frees exactly what is due, a second one at the same time
    frees nothing, and the free extents it leaves are the same for every order of the retire list. -/
theorem reclaim_exact (calls : List Call) (w : World) (now : Nat)
    (hrun : run World.step {} calls = some w) (hok : w.arena.ok = true) :
    (∃ freed, Reclaimed now w.arena (w.arena.reclaim now) freed) ∧
    ReclaimFrees now (w.arena.reclaim now) [] ((w.arena.reclaim now).reclaim now) ∧
    ∀ (calls₂ : List Call) (w₂ : World), run World.step {} calls₂ = some w₂ → w₂.arena.ok = true →
      w₂.arena.blocks = w.arena.blocks → w₂.arena.retireList.Perm w.arena.retireList →
      (∀ x ∈ w.arena.retireList, w₂.arena.retiredAt x = w.arena.retiredAt x) →
      (w₂.arena.reclaim now).freeExtents = (w.arena.reclaim now).freeExtents := by
  have hvalid : ∀ {calls : List Call} {w : World}, run World.step {} calls = some w → w.arena.ok = true →
      ∃ bs fl rl, Heap w.arena bs fl ∧ RetireList w.arena bs rl := by
    intro calls w hrun hok
    have h : w.Ok := run_inv (I := World.Ok) (fun _ _ _ h hs => World.ok_step h hs)
      (Or.inl ⟨rfl, rfl⟩) hrun
    rcases h with ⟨h, -⟩ | ⟨bs, fl, rl, h⟩
    · rw [h] at hok
      exact Bool.noConfusion hok
    · exact ⟨bs, fl, rl, h.heap, h.list⟩
  obtain ⟨bs, fl, rl, h, hl⟩ := hvalid hrun hok
  refine ⟨⟨_, reclaimed h hl now⟩, ?_, ?_⟩
  · obtain ⟨bs', fl', h', hl', -, -, hk⟩ := reclaim_spec h hl now
    have hnone : (rl.filter fun x => !w.arena.dueAt now x).reverse.filter ((w.arena.reclaim now).dueAt now) = [] := by
      rw [List.filter_eq_nil_iff]
      intro x hx
      rw [dueAt_congr now _ hk hl'.room x hx]
      rw [List.mem_reverse, List.mem_filter] at hx
      simpa using hx.2
    have := reclaim_frees h' hl' now
    rwa [hnone] at this
  · intro calls₂ w₂ hrun₂ hok₂ hblocks hperm hat
    obtain ⟨bs₂, fl₂, rl₂, h₂, hl₂⟩ := hvalid hrun₂ hok₂
    rw [h₂.blocks_eq, h.blocks_eq] at hblocks
    rw [hl₂.retireList_eq h₂, hl.retireList_eq h] at hperm
    rw [hl.retireList_eq h] at hat
    subst hblocks
    rw [freeExtents, freeExtents, reclaim_blocks h hl h₂ hl₂ hperm hat]

/-- Two neighbours, retired in either order. -/
theorem reclaim_exact_orders :
    ∃ w, run World.step {} [.init (some fun _ => 0) 400, .alloc 24, .alloc 24, .alloc 24,
        .retire 80 1, .retire 128 1] = some w ∧
      ∃ w₂, run World.step {} [.init (some fun _ => 0) 400, .alloc 24, .alloc 24, .alloc 24,
        .retire 128 1, .retire 80 1] = some w₂ ∧
      w.arena.retireList = [112, 64] ∧ w₂.arena.retireList = [64, 112] ∧
      (∃ freed, Reclaimed 5000000001 w.arena (w.arena.reclaim 5000000001) freed) ∧
      (w₂.arena.reclaim 5000000001).freeExtents = (w.arena.reclaim 5000000001).freeExtents := by
  refine exists_run_of_map
    (fun w => (w.arena.ok, w.arena.blocks, w.arena.retireList, w.arena.retiredAt 64, w.arena.retiredAt 112))
    (true, [⟨64, 48, false⟩, ⟨112, 48, false⟩, ⟨160, 48, false⟩, ⟨208, 192, true⟩], [112, 64], 1, 1)
    (by decide +kernel) ?_
  intro w hw h
  refine exists_run_of_map
    (fun w => (w.arena.ok, w.arena.blocks, w.arena.retireList, w.arena.retiredAt 64, w.arena.retiredAt 112))
    (true, [⟨64, 48, false⟩, ⟨112, 48, false⟩, ⟨160, 48, false⟩, ⟨208, 192, true⟩], [64, 112], 1, 1)
    (by decide +kernel) ?_
  intro w₂ hw₂ h₂
  simp only [Prod.mk.injEq] at h h₂
  obtain ⟨hfreed, -, horder⟩ := reclaim_exact _ w 5000000001 hw h.1
  refine ⟨h.2.2.1, h₂.2.2.1, hfreed, horder _ w₂ hw₂ h₂.1 (h₂.2.1.trans h.2.1.symm) ?_ ?_⟩
  · rw [h₂.2.2.1, h.2.2.1]
    exact .swap 112 64 []
  · rw [h.2.2.1]
    intro x hx
    simp only [List.mem_cons, List.not_mem_nil, or_false] at hx
    rcases hx with rfl | rfl
    · rw [h₂.2.2.2.2, h.2.2.2.2]
    · rw [h₂.2.2.2.1, h.2.2.2.1]

end Barnacle.Arena
