import Barnacle.Daemon.Accounting

/-! What the records point at (`keep`, `store`, `serve`, `collectOrphans` and `loadStatements` in
    `src/daemon/main.cpp`): every payload is an allocated block that belongs to one record, and holds
    the bytes last stored or fetched for it; every text is the statement's.

    Blocks the daemon has lost sight of stay allocated. They are listed with the records here, as
    records that own nothing. Whatever the daemon does to its records and its heap is a sequence of a
    few moves: a block is got, becomes a record's payload or text, stops being it, or is retired. -/

namespace Barnacle.Daemon
open Barnacle.Lib Barnacle.Arena

/-- The records `ps` and what they own are all that is allocated and not retired, the payload of a
    record is what `last` has for it, and its text what `sql` has. -/
structure Sound (w : World) (recs : Nat → Stmt) (ps : List Nat) (last : Nat → Option Bytes)
    (sql : Nat → Bytes) : Prop where
  owns : w.Owns (blocksOf recs ps)
  bare : ∀ q, q ∉ ps → (recs q).blocks = []
  payload : ∀ p, (recs p).data ≠ 0 → ∃ body, last p = some body ∧
    (recs p).data_len = body.length ∧ w.Stores (recs p).data body
  text : ∀ p, (recs p).txt ≠ 0 → (recs p).len = (sql p).length ∧ w.Stores (recs p).txt (sql p ++ [0])

theorem Stmt.data_mem {st : Stmt} (h : st.data ≠ 0) : st.data ∈ st.blocks := by
  rw [blocks, payload, if_neg h]
  exact List.mem_append_right _ List.mem_cons_self

theorem Stmt.txt_mem {st : Stmt} (h : st.txt ≠ 0) : st.txt ∈ st.blocks := by
  rw [blocks, Stmt.text, if_neg h]
  exact List.mem_append_left _ List.mem_cons_self

theorem setRec_self (d : Daemon) (p : Nat) (st : Stmt) : (d.setRec p st).recs p = st :=
  Function.update_self ..

theorem setRec_of_ne (d : Daemon) {p q : Nat} (h : q ≠ p) (st : Stmt) :
    (d.setRec p st).recs q = d.recs q := Function.update_of_ne h ..

section Blocks
variable {recs : Nat → Stmt} {p : Nat} {ps : List Nat}

theorem blocks_mem (h : p ∈ ps) {x : Nat} (hx : x ∈ (recs p).blocks) : x ∈ blocksOf recs ps :=
  List.mem_flatMap.mpr ⟨p, h, List.mem_cons_of_mem _ hx⟩

/-- One record's blocks apart from the rest, whatever the record becomes. -/
theorem blocksOf_split (recs : Nat → Stmt) (h : p ∈ ps) (hn : ps.Nodup) :
    ∃ l, (blocksOf recs ps).Perm ((recs p).blocks ++ l) ∧
    ∀ st, (blocksOf (Function.update recs p st) ps).Perm (st.blocks ++ l) := by
  have hp := List.perm_cons_erase h
  have hnot : p ∉ ps.erase p := fun hm => (List.Nodup.mem_erase_iff hn).mp hm |>.1 rfl
  have key : ∀ recs', (blocksOf recs' ps).Perm ((recs' p).blocks ++ p :: blocksOf recs' (ps.erase p)) := by
    intro recs'
    refine (blocksOf_perm hp).trans ?_
    rw [blocksOf_cons, List.cons_append]
    exact List.perm_middle.symm
  refine ⟨p :: blocksOf recs (ps.erase p), key recs, ?_⟩
  intro st
  refine (key _).trans ?_
  rw [Function.update_self, blocksOf_update hnot]

/-- No block belongs to two records, and no record is a block of another. -/
theorem blocksOf_inj (h : (blocksOf recs ps).Nodup) {q x : Nat} (hp : p ∈ ps) (hq : q ∈ ps)
    (hx : x ∈ p :: (recs p).blocks) (hx' : x ∈ q :: (recs q).blocks) : p = q := by
  by_contra hne
  obtain ⟨-, hpair⟩ := List.nodup_flatMap.mp h
  have : Std.Symm (Function.onFun List.Disjoint fun p => p :: (recs p).blocks) :=
    ⟨fun _ _ hd => fun _ h1 h2 => hd h2 h1⟩
  exact hpair.forall hp hq hne hx hx'

theorem blocksOf_not_self (h : (blocksOf recs ps).Nodup) (hp : p ∈ ps) : p ∉ (recs p).blocks :=
  (List.nodup_cons.mp ((List.nodup_flatMap.mp h).1 p hp)).1

theorem nodup_of_blocksOf (h : (blocksOf recs ps).Nodup) : ps.Nodup := by
  induction ps with
  | nil => exact List.nodup_nil
  | cons p ps ih =>
    rw [blocksOf_cons, List.cons_append, List.nodup_cons, List.nodup_append] at h
    refine List.nodup_cons.mpr ⟨?_, ih h.2.2.1⟩
    intro hm
    exact h.1 (List.mem_append_right _ (mem_blocksOf hm))

end Blocks

namespace Sound
variable {w : World} {recs : Nat → Stmt} {p q x : Nat} {ps qs : List Nat} {last : Nat → Option Bytes}
  {sql : Nat → Bytes} {st : Stmt}

theorem perm (h : Sound w recs ps last sql) (hp : ps.Perm qs) : Sound w recs qs last sql :=
  ⟨h.owns.congr (blocksOf_perm hp), fun q hq => h.bare q fun hm => hq (hp.mem_iff.mp hm), h.payload, h.text⟩

theorem nodup (h : Sound w recs ps last sql) : ps.Nodup := nodup_of_blocksOf h.owns.list_nodup

/-- A record that owns something is one of those listed. -/
theorem listed (h : Sound w recs ps last sql) (hx : x ∈ (recs p).blocks) : p ∈ ps := by
  by_contra hp
  rw [h.bare p hp] at hx
  exact absurd hx List.not_mem_nil

theorem live (h : Sound w recs ps last sql) (hx : x ∈ (recs p).blocks) : x ∈ w.live :=
  h.owns.perm.mem_iff.mpr (blocks_mem (h.listed hx) hx)

/-- A block is owned by one record. -/
theorem owner (h : Sound w recs ps last sql) (hx : x ∈ (recs p).blocks) (hx' : x ∈ (recs q).blocks) :
    p = q :=
  blocksOf_inj h.owns.list_nodup (h.listed hx) (h.listed hx') (List.mem_cons_of_mem _ hx)
    (List.mem_cons_of_mem _ hx')

/-- A block that a record owns is not a record. -/
theorem not_record (h : Sound w recs ps last sql) (hx : x ∈ (recs p).blocks) : x ∉ ps := by
  intro hm
  have e : p = x := blocksOf_inj h.owns.list_nodup (h.listed hx) hm (List.mem_cons_of_mem _ hx)
    List.mem_cons_self
  subst e
  exact blocksOf_not_self h.owns.list_nodup hm hx

/-! ### Moves -/

/-- The heap changes, and what the records own keeps its bytes. -/
theorem onHeap {w' : World} (h : Sound w recs ps last sql) (ho : w'.Owns (blocksOf recs qs))
    (hb : ∀ q, q ∉ qs → (recs q).blocks = [])
    (hs : ∀ p, ∀ x ∈ (recs p).blocks, ∀ bytes, w.Stores x bytes → w'.Stores x bytes) :
    Sound w' recs qs last sql := by
  refine ⟨ho, hb, ?_, ?_⟩
  · intro p hp
    obtain ⟨body, hlast, hlen, hst⟩ := h.payload p hp
    exact ⟨body, hlast, hlen, hs p _ (Stmt.data_mem hp) _ hst⟩
  · intro p hp
    obtain ⟨hlen, hst⟩ := h.text p hp
    exact ⟨hlen, hs p _ (Stmt.txt_mem hp) _ hst⟩

theorem put (h : Sound w recs ps last sql) {src : Bytes} (hlen : src.length < 2 ^ 63) :
    w.put src = (none, w) ∨ ∃ x, (w.put src).1 = some x ∧ x ≠ 0 ∧ x ∉ ps ∧
      Sound (w.put src).2 recs (x :: ps) last sql ∧ (w.put src).2.Stores x src := by
  refine (h.owns.put hlen).imp_right ?_
  rintro ⟨x, e, h0, ho, hs⟩
  have hx : x ∉ ps := fun hm => (List.nodup_cons.mp ho.list_nodup).1 (mem_blocksOf hm)
  refine ⟨x, e, h0, hx, h.onHeap ?_ ?_ ?_, hs⟩
  · rw [blocksOf_cons, h.bare x hx]
    exact ho
  · exact fun q hq => h.bare q fun hm => hq (List.mem_cons_of_mem _ hm)
  · exact fun p y _ bytes hy => hy.put h.owns.valid hlen

theorem alloc (h : Sound w recs ps last sql) {n : Nat} (hn : n < 2 ^ 63) :
    w.alloc n = (none, w) ∨ ∃ x, (w.alloc n).1 = some x ∧ x ≠ 0 ∧ x ∉ ps ∧
      Sound (w.alloc n).2 recs (x :: ps) last sql ∧
        ∀ y bytes, w.Stores y bytes → (w.alloc n).2.Stores y bytes := by
  refine (h.owns.alloc hn).imp_right ?_
  rintro ⟨x, e, h0, ho⟩
  have hx : x ∉ ps := fun hm => (List.nodup_cons.mp ho.list_nodup).1 (mem_blocksOf hm)
  have hkeep : ∀ y bytes, w.Stores y bytes → (w.alloc n).2.Stores y bytes :=
    fun y bytes hy => hy.alloc h.owns.valid hn
  refine ⟨x, e, h0, hx, h.onHeap ?_ ?_ (fun p y _ => hkeep y), hkeep⟩
  · rw [blocksOf_cons, h.bare x hx]
    exact ho
  · exact fun q hq => h.bare q fun hm => hq (List.mem_cons_of_mem _ hm)

/-- A block that owns nothing is given back. -/
theorem retire (h : Sound w recs (x :: ps) last sql) (hx : (recs x).blocks = []) (now : UInt64) :
    Sound (w.retire x now) recs ps last sql := by
  have ho := h.owns
  rw [blocksOf_cons, hx] at ho
  have hlive : x ∈ w.live := ho.perm.mem_iff.mpr List.mem_cons_self
  refine h.onHeap (ho.retire now) ?_ ?_
  · intro q hq
    by_cases e : q = x
    · rw [e, hx]
    · exact h.bare q fun hm => (List.mem_cons.mp hm).elim e hq
  · intro p y hy bytes hst
    refine hst.retire h.owns.valid hlive ?_ now
    rintro rfl
    exact h.not_record hy List.mem_cons_self

theorem reclaim (h : Sound w recs ps last sql) (now : UInt64) : Sound (w.reclaim now) recs ps last sql :=
  h.onHeap (h.owns.reclaim now) h.bare fun _ _ _ _ hy => hy.reclaim h.owns.valid now

/-- Only fields that own nothing differ. -/
theorem congr {recs' : Nat → Stmt} (h : Sound w recs ps last sql)
    (hr : ∀ q, (recs' q).txt = (recs q).txt ∧ (recs' q).len = (recs q).len ∧
      (recs' q).data = (recs q).data ∧ (recs' q).data_len = (recs q).data_len) :
    Sound w recs' ps last sql := by
  have hb : ∀ q, (recs' q).blocks = (recs q).blocks := by
    intro q
    obtain ⟨e1, -, e3, -⟩ := hr q
    rw [Stmt.blocks, Stmt.text, Stmt.payload, e1, e3]
    rfl
  refine ⟨?_, fun q hq => (hb q).trans (h.bare q hq), ?_, ?_⟩
  · rw [blocksOf_congr fun q _ => hb q]
    exact h.owns
  · intro q hq
    obtain ⟨-, -, e3, e4⟩ := hr q
    rw [e3] at hq ⊢
    rw [e4]
    exact h.payload q hq
  · intro q hq
    obtain ⟨e1, e2, -, -⟩ := hr q
    rw [e1] at hq ⊢
    rw [e2]
    exact h.text q hq

/-- One record changes; `qs` lists what is allocated afterwards. -/
theorem update (h : Sound w recs ps last sql) {last' : Nat → Option Bytes} {sql' : Nat → Bytes}
    (hlast : ∀ q, q ≠ p → last' q = last q) (hsql : ∀ q, q ≠ p → sql' q = sql q) (hq : p ∈ qs)
    (hown : (blocksOf recs ps).Perm (blocksOf (Function.update recs p st) qs))
    (hb : ∀ q, q ∉ qs → (recs q).blocks = [])
    (hdata : st.data ≠ 0 → ∃ body, last' p = some body ∧ st.data_len = body.length ∧ w.Stores st.data body)
    (htxt : st.txt ≠ 0 → st.len = (sql' p).length ∧ w.Stores st.txt (sql' p ++ [0])) :
    Sound w (Function.update recs p st) qs last' sql' := by
  refine ⟨h.owns.congr hown, ?_, ?_, ?_⟩
  · intro q hqs
    have hne : q ≠ p := by
      rintro rfl
      exact hqs hq
    rw [Function.update_of_ne hne]
    exact hb q hqs
  · intro q hd
    by_cases e : q = p
    · subst e
      rw [Function.update_self] at hd ⊢
      exact hdata hd
    · rw [Function.update_of_ne e] at hd ⊢
      rw [hlast q e]
      exact h.payload q hd
  · intro q ht
    by_cases e : q = p
    · subst e
      rw [Function.update_self] at ht ⊢
      exact htxt ht
    · rw [Function.update_of_ne e] at ht ⊢
      rw [hsql q e]
      exact h.text q ht

/-- Fields that own nothing. -/
theorem fields (h : Sound w recs ps last sql) (st : Stmt) (hp : p ∈ ps) (hblocks : st.blocks = (recs p).blocks)
    (hdata : st.data ≠ 0 → ∃ body, last p = some body ∧ st.data_len = body.length ∧ w.Stores st.data body)
    (htxt : st.txt = (recs p).txt) (hlen : st.len = (recs p).len) :
    Sound w (Function.update recs p st) ps last sql := by
  refine h.update (fun _ _ => rfl) (fun _ _ => rfl) hp ?_ h.bare hdata ?_
  · refine .of_eq (blocksOf_congr fun q _ => ?_).symm
    by_cases e : q = p
    · rw [e, Function.update_self, hblocks]
    · rw [Function.update_of_ne e]
  · intro h0
    rw [htxt] at h0 ⊢
    rw [hlen]
    exact h.text p h0

/-- A record lets go of a block: it stays allocated, and owns nothing. -/
theorem forget (h : Sound w recs ps last sql) (st : Stmt) (hp : p ∈ ps)
    (hab : (recs p).blocks.Perm (x :: st.blocks))
    (hdata : st.data ≠ 0 → st.data = (recs p).data ∧ st.data_len = (recs p).data_len)
    (htxt : st.txt ≠ 0 → st.txt = (recs p).txt ∧ st.len = (recs p).len) :
    Sound w (Function.update recs p st) (x :: ps) last sql := by
  have hx : x ∈ (recs p).blocks := hab.mem_iff.mpr List.mem_cons_self
  have hnot := h.not_record hx
  have hne : x ≠ p := fun e => hnot (e ▸ hp)
  refine h.update (fun _ _ => rfl) (fun _ _ => rfl) (List.mem_cons_of_mem _ hp) ?_ ?_ ?_ ?_
  · obtain ⟨l, h1, h2⟩ := blocksOf_split recs hp h.nodup
    rw [blocksOf_cons, Function.update_of_ne hne, h.bare x hnot]
    refine .trans ?_ ((h2 st).symm.cons x)
    exact h1.trans (hab.append_right l)
  · exact fun q hq => h.bare q fun hm => hq (List.mem_cons_of_mem _ hm)
  · intro h0
    obtain ⟨e1, e2⟩ := hdata h0
    rw [e1] at h0 ⊢
    rw [e2]
    exact h.payload p h0
  · intro h0
    obtain ⟨e1, e2⟩ := htxt h0
    rw [e1] at h0 ⊢
    rw [e2]
    exact h.text p h0

/-- A record takes a block that owns nothing. -/
theorem take (h : Sound w recs (x :: ps) last sql) (st : Stmt) (hx : (recs x).blocks = []) (hp : p ∈ ps)
    {last' : Nat → Option Bytes} {sql' : Nat → Bytes} (hlast : ∀ q, q ≠ p → last' q = last q)
    (hsql : ∀ q, q ≠ p → sql' q = sql q) (hab : (x :: (recs p).blocks).Perm st.blocks)
    (hdata : st.data ≠ 0 → ∃ body, last' p = some body ∧ st.data_len = body.length ∧ w.Stores st.data body)
    (htxt : st.txt ≠ 0 → st.len = (sql' p).length ∧ w.Stores st.txt (sql' p ++ [0])) :
    Sound w (Function.update recs p st) ps last' sql' := by
  have hxp : x ∉ ps := (List.nodup_cons.mp h.nodup).1
  refine h.update hlast hsql hp ?_ ?_ hdata htxt
  · have hnd : ps.Nodup := (List.nodup_cons.mp h.nodup).2
    obtain ⟨l, h1, h2⟩ := blocksOf_split recs hp hnd
    rw [blocksOf_cons, hx]
    refine .trans ?_ (h2 st).symm
    exact (h1.cons x).trans (hab.append_right l)
  · intro q hq
    by_cases e : q = x
    · rw [e, hx]
    · exact h.bare q fun hm => (List.mem_cons.mp hm).elim e hq

/-! ### What the functions do -/

/-- A new payload for an old one: the record lets go of the old block, which is retired, and takes the
    new one. -/
theorem trade (h : Sound w recs (x :: ps) last sql) (hx : (recs x).blocks = []) (hx0 : x ≠ 0)
    (hp : p ∈ ps) (h0 : (recs p).data ≠ 0) {body : Bytes} (hst : w.Stores x body) (now : UInt64)
    (ttl : UInt32) (ts : UInt64) :
    Sound (w.retire (recs p).data now)
      (Function.update recs p ((recs p).publish x body.length ttl ts)) ps
      (Function.update last p (some body)) sql := by
  have hold := Stmt.data_mem h0
  have hnot := h.not_record hold
  have hpx : p ∈ x :: ps := List.mem_cons_of_mem _ hp
  have hne : (recs p).data ≠ p := fun e => hnot (by rw [e]; exact hpx)
  have hxp : x ≠ p := by
    rintro rfl
    exact (List.nodup_cons.mp h.nodup).1 hp
  have h1 := h.forget (x := (recs p).data) { recs p with data := 0, data_len := 0 } hpx
    (by
      simp only [Stmt.blocks, Stmt.payload, Stmt.text, h0, if_true, if_false, List.append_nil]
      exact List.perm_append_comm)
    (fun hc => absurd rfl hc) (fun _ => ⟨rfl, rfl⟩)
  have h2 := h1.retire (by rw [Function.update_of_ne hne]; exact h.bare _ hnot) now
  have hst2 := hst.retire h.owns.valid (h.live hold) (fun e => hnot (by rw [e]; exact List.mem_cons_self)) now
  have htxt := h2.text p
  rw [Function.update_self] at htxt
  have h3 := h2.take ((recs p).publish x body.length ttl ts)
    (by rw [Function.update_of_ne hxp]; exact hx) hp
    (fun q hq => Function.update_of_ne hq (some body) last) (fun _ _ => rfl)
    (by
      simp only [Function.update_self, Stmt.blocks, Stmt.payload, Stmt.text, Stmt.publish, hx0,
        if_true, if_false, List.append_nil]
      exact @List.perm_append_comm _ [x] _)
    (fun _ => ⟨body, Function.update_self .., rfl, hst2⟩) htxt
  rw [Function.update_idem] at h3
  exact h3

/-- `keep` and what is written into the record after it. -/
theorem publish (h : Sound w recs ps last sql) (hp : p ∈ ps) {body : Bytes} (hlen : body.length < 2 ^ 63)
    (now : UInt64) :
    keep w (recs p) body now = (none, w) ∨
      ∃ x, (keep w (recs p) body now).1 = some x ∧ x ≠ 0 ∧ ∀ ttl ts,
        Sound (keep w (recs p) body now).2
          (Function.update recs p ((recs p).publish x body.length ttl ts)) ps
          (Function.update last p (some body)) sql := by
  unfold keep
  split
  next hsame =>
    -- the bytes are there already
    obtain ⟨h0, hl, hread⟩ := hsame
    obtain ⟨old, hold, hlold, hst⟩ := h.payload p h0
    have e : old = body := by
      rw [← hst.read, ← hlold, hl]
      exact hread
    have hlast : Function.update last p (some body) = last := by
      rw [← e, ← hold, Function.update_eq_self]
    right
    refine ⟨(recs p).data, rfl, h0, fun ttl ts => ?_⟩
    rw [hlast]
    exact h.fields _ hp rfl (fun _ => ⟨body, e ▸ hold, rfl, e ▸ hst⟩) rfl rfl
  next =>
    dsimp only
    rcases h.put hlen with e | ⟨x, e, hx0, hx, h1, hst⟩
    · left
      rw [e]
      rfl
    right
    refine ⟨x, e, hx0, fun ttl ts => ?_⟩
    have hlast : ∀ q, q ≠ p → Function.update last p (some body) q = last q :=
      fun q hq => Function.update_of_ne hq ..
    by_cases h0 : (recs p).data = 0
    · rw [if_neg fun hc => hc.2 h0]
      refine h1.take _ (h.bare x hx) hp hlast (fun _ _ => rfl) ?_ (fun _ => ⟨body, ?_, rfl, hst⟩)
        (h1.text p)
      · simp only [Stmt.blocks, Stmt.payload, Stmt.text, Stmt.publish, h0, hx0, if_true, if_false,
          List.append_nil]
        exact @List.perm_append_comm _ [x] _
      · exact Function.update_self ..
    · rw [if_pos ⟨by rw [e]; rfl, h0⟩]
      exact h1.trade (h.bare x hx) hx0 hp h0 hst now ttl ts

/-- The payload goes back to the heap, if there is one. -/
theorem retire_payload {d : Daemon} (h : Sound d.heap d.recs ps last sql) (hp : p ∈ ps) (now : UInt64)
    {d' : Daemon} (hd : d' = if (d.recs p).data ≠ 0 then
      { d with heap := d.heap.retire (d.recs p).data now }.setRec p
        { d.recs p with data := 0, data_len := 0 }
    else d) :
    Sound d'.heap d'.recs ps last sql ∧ (d'.recs p).data = 0 ∧ ∀ q, q ≠ p → d'.recs q = d.recs q := by
  by_cases h0 : (d.recs p).data = 0
  · rw [if_neg (by simpa using h0)] at hd
    subst hd
    exact ⟨h, h0, fun _ _ => rfl⟩
  · rw [if_pos h0] at hd
    have hold := Stmt.data_mem h0
    have hnot := h.not_record hold
    have hne : (d.recs p).data ≠ p := fun e => hnot (by rw [e]; exact hp)
    have h1 := h.forget (x := (d.recs p).data) { d.recs p with data := 0, data_len := 0 } hp
      (by
        simp only [Stmt.blocks, Stmt.payload, Stmt.text, h0, if_true, if_false, List.append_nil]
        exact List.perm_append_comm)
      (fun hc => absurd rfl hc) (fun _ => ⟨rfl, rfl⟩)
    have h2 := h1.retire (by rw [Function.update_of_ne hne]; exact h.bare _ hnot) now
    subst hd
    refine ⟨h2, ?_, fun q hq => Function.update_of_ne hq ..⟩
    simp only [setRec, Function.update_self]

/-- And the text. -/
theorem retire_text {d : Daemon} (h : Sound d.heap d.recs ps last sql) (hp : p ∈ ps) (now : UInt64)
    {d' : Daemon} (hd : d' = if (d.recs p).txt ≠ 0 then
      { d with heap := d.heap.retire (d.recs p).txt now }.setRec p { d.recs p with txt := 0 }
    else d) :
    Sound d'.heap d'.recs ps last sql ∧ (d'.recs p).txt = 0 ∧ (d'.recs p).data = (d.recs p).data ∧
      ∀ q, q ≠ p → d'.recs q = d.recs q := by
  by_cases h0 : (d.recs p).txt = 0
  · rw [if_neg (by simpa using h0)] at hd
    subst hd
    exact ⟨h, h0, rfl, fun _ _ => rfl⟩
  · rw [if_pos h0] at hd
    have hold := Stmt.txt_mem h0
    have hnot := h.not_record hold
    have hne : (d.recs p).txt ≠ p := fun e => hnot (by rw [e]; exact hp)
    have h1 := h.forget (x := (d.recs p).txt) { d.recs p with txt := 0 } hp
      (by simp only [Stmt.blocks, Stmt.payload, Stmt.text, h0, if_true, if_false]; exact .refl _)
      (fun _ => ⟨rfl, rfl⟩) (fun hc => absurd rfl hc)
    have h2 := h1.retire (by rw [Function.update_of_ne hne]; exact h.bare _ hnot) now
    subst hd
    refine ⟨h2, ?_, ?_, fun q hq => Function.update_of_ne hq ..⟩ <;>
      simp only [setRec, Function.update_self]

theorem retireStmt {d : Daemon} (h : Sound d.heap d.recs (p :: ps) last sql) (now : UInt64) :
    Sound (d.retireStmt p now).heap (d.retireStmt p now).recs ps last sql ∧
      ∀ q, q ≠ p → (d.retireStmt p now).recs q = d.recs q := by
  obtain ⟨d₁, hd1⟩ : ∃ x, x = if (d.recs p).data ≠ 0 then
      { d with heap := d.heap.retire (d.recs p).data now }.setRec p
        { d.recs p with data := 0, data_len := 0 }
    else d := ⟨_, rfl⟩
  obtain ⟨d₂, hd2⟩ : ∃ x, x = if (d₁.recs p).txt ≠ 0 then
      { d₁ with heap := d₁.heap.retire (d₁.recs p).txt now }.setRec p { d₁.recs p with txt := 0 }
    else d₁ := ⟨_, rfl⟩
  have e : d.retireStmt p now = { d₂ with heap := d₂.heap.retire p now } := by
    rw [Daemon.retireStmt, hd2, hd1]
  obtain ⟨h1, e1, f1⟩ := h.retire_payload List.mem_cons_self now hd1
  obtain ⟨h2, e2, e3, f2⟩ := h1.retire_text List.mem_cons_self now hd2
  have hb : (d₂.recs p).blocks = [] := by
    rw [Stmt.blocks, Stmt.text, Stmt.payload, e2, e3, e1]
    rfl
  rw [e]
  exact ⟨h2.retire hb now, fun q hq => (f2 q hq).trans (f1 q hq)⟩

end Sound

/-! ### Loading -/

/-- A load has come from `d₀` to `d`: `next` names known statements with the records they had, each new
    one has a record of its own, and the records there were have kept all but their TTL. -/
structure Seeding (d₀ d : Daemon) (next : List (Bytes × Nat)) (lost : List Nat)
    (last : Nat → Option Bytes) (sql : Nat → Bytes) : Prop where
  sound : Sound d.heap d.recs (d₀.stmts ++ added d₀.known next ++ lost) last sql
  known : d.known = d₀.known
  orphans : d.orphans = d₀.orphans
  keys : (next.map Prod.fst).Nodup
  old : ∀ e ∈ next, e.1 ∈ d₀.known.map Prod.fst → e ∈ d₀.known
  named : ∀ e ∈ d₀.known ++ next, sql e.2 = e.1 ∧ (d.recs e.2).txt ≠ 0
  kept : ∀ q ∈ d₀.stmts, ∃ ttl, d.recs q = { d₀.recs q with ttl := ttl }

/-- The two blocks a new statement asks for: neither is had, one is had and lost, or both are. -/
theorem Sound.put_alloc {w : World} {recs : Nat → Stmt} {ps : List Nat} {last : Nat → Option Bytes}
    {sql : Nat → Bytes} (h : Sound w recs ps last sql) {src : Bytes} (hlen : src.length < 2 ^ 63) :
    ((w.put src).1 = none ∨ ((w.put src).2.alloc STMT_BYTES).1 = none) ∧
      (∃ lost, Sound ((w.put src).2.alloc STMT_BYTES).2 recs (ps ++ lost) last sql) ∨
    ∃ txt x, (w.put src).1 = some txt ∧ ((w.put src).2.alloc STMT_BYTES).1 = some x ∧ txt ≠ 0 ∧
      Sound ((w.put src).2.alloc STMT_BYTES).2 recs (txt :: x :: ps) last sql ∧
      ((w.put src).2.alloc STMT_BYTES).2.Stores txt src := by
  have hn : STMT_BYTES < 2 ^ 63 := by norm_num [STMT_BYTES]
  rcases h.put hlen with e | ⟨txt, e, ht0, ht, h1, hst⟩
  · left
    rw [e]
    refine ⟨.inl rfl, ?_⟩
    rcases h.alloc hn with e' | ⟨x, e', -, -, h2, -⟩
    · exact ⟨[], by rw [e', List.append_nil]; exact h⟩
    · exact ⟨[x], h2.perm (@List.perm_append_comm _ [x] _)⟩
  · rcases h1.alloc hn with e' | ⟨x, e', -, hx, h2, hkeep⟩
    · left
      rw [e']
      exact ⟨.inr rfl, [txt], h1.perm (@List.perm_append_comm _ [txt] _)⟩
    · right
      exact ⟨txt, x, e, e', ht0, h2.perm (List.Perm.swap ..), hkeep _ _ hst⟩

section Seed
variable {d₀ d : Daemon} {next : List (Bytes × Nat)} {lost : List Nat} {last : Nat → Option Bytes}
  {sql : Nat → Bytes} {s : Bytes}

theorem Seeding.known_step (h : Seeding d₀ d next lost last sql) {p : Nat} (hmem : (s, p) ∈ d₀.known)
    (hnew : s ∉ next.map Prod.fst) (ttl : UInt32) :
    Seeding d₀ (d.setRec p { d.recs p with ttl := ttl }) (next ++ [(s, p)]) lost last sql := by
  have hkey : s ∈ d₀.known.map Prod.fst := List.mem_map_of_mem hmem
  have hp : p ∈ d₀.stmts := List.mem_append_left _ (List.mem_map_of_mem (f := Prod.snd) hmem)
  have hps : p ∈ d₀.stmts ++ added d₀.known next ++ lost :=
    List.mem_append_left _ (List.mem_append_left _ hp)
  have htxt : ∀ q, ((d.setRec p { d.recs p with ttl := ttl }).recs q).txt = (d.recs q).txt := by
    intro q
    by_cases e : q = p
    · rw [e, setRec_self]
    · rw [setRec_of_ne d e]
  refine ⟨?_, h.known, h.orphans, keys_append h.keys hnew, ?_, ?_, ?_⟩
  · rw [added_known hkey]
    exact h.sound.fields _ hps rfl (h.sound.payload p) rfl rfl
  · intro e he hek
    rcases List.mem_append.mp he with he | he
    · exact h.old e he hek
    · rw [List.mem_singleton.mp he]
      exact hmem
  · intro e he
    rw [htxt]
    rcases List.mem_append.mp he with he | he
    · exact h.named e (List.mem_append_left _ he)
    · rcases List.mem_append.mp he with he | he
      · exact h.named e (List.mem_append_right _ he)
      · rw [List.mem_singleton.mp he]
        exact h.named (s, p) (List.mem_append_left _ hmem)
  · intro q hq
    obtain ⟨t, ht⟩ := h.kept q hq
    by_cases e : q = p
    · subst e
      exact ⟨ttl, by rw [setRec_self, ht]⟩
    · exact ⟨t, by rw [setRec_of_ne d e, ht]⟩

theorem Seeding.new_step (h : Seeding d₀ d next lost last sql) (hkey : s ∉ d₀.known.map Prod.fst)
    (hnew : s ∉ next.map Prod.fst) {d' : Daemon} {txt x : Nat} {st : Stmt} (ht0 : txt ≠ 0)
    (hs : Sound d'.heap d.recs (txt :: x :: (d₀.stmts ++ added d₀.known next ++ lost)) last sql)
    (hstores : d'.heap.Stores txt (s ++ [0])) (htxt : st.txt = txt) (hlen : st.len = s.length)
    (hdata : st.data = 0) (hrecs : d'.recs = Function.update d.recs x st) (hknown : d'.known = d.known)
    (horphans : d'.orphans = d.orphans) :
    Seeding d₀ d' (next ++ [(s, x)]) lost last (Function.update sql x s) := by
  have hx : x ∉ d₀.stmts ++ added d₀.known next ++ lost :=
    (List.nodup_cons.mp (List.nodup_cons.mp hs.nodup).2).1
  have ht : txt ∉ d₀.stmts ++ added d₀.known next ++ lost := fun hm =>
    (List.nodup_cons.mp hs.nodup).1 (List.mem_cons_of_mem _ hm)
  have hne : ∀ q, (d.recs q).txt ≠ 0 → q ≠ x := by
    rintro q hq rfl
    exact hx (h.sound.listed (Stmt.txt_mem hq))
  have h1 := hs.take (p := x) st (h.sound.bare txt ht) List.mem_cons_self (fun _ _ => rfl)
    (fun q hq => Function.update_of_ne hq s sql)
    (by
      rw [h.sound.bare x hx, Stmt.blocks, Stmt.text, Stmt.payload, htxt, if_neg ht0, if_pos hdata]
      exact .refl _)
    (fun hc => absurd hdata hc)
    (fun _ => by rw [Function.update_self, htxt]; exact ⟨hlen, hstores⟩)
  rw [← hrecs] at h1
  refine ⟨h1.perm ?_, hknown.trans h.known, horphans.trans h.orphans, keys_append h.keys hnew, ?_, ?_, ?_⟩
  · rw [added_new hkey, ← List.append_assoc, List.append_assoc (d₀.stmts ++ added d₀.known next) [x]]
    exact List.perm_middle.symm
  · intro e he hek
    rcases List.mem_append.mp he with he | he
    · exact h.old e he hek
    · rw [List.mem_singleton.mp he] at hek
      exact absurd hek hkey
  · intro e he
    rw [hrecs]
    rw [← List.append_assoc] at he
    rcases List.mem_append.mp he with he | he
    · obtain ⟨e1, e2⟩ := h.named e he
      rw [Function.update_of_ne (hne _ e2), Function.update_of_ne (hne _ e2)]
      exact ⟨e1, e2⟩
    · rw [List.mem_singleton.mp he, Function.update_self, Function.update_self, htxt]
      exact ⟨rfl, ht0⟩
  · intro q hq
    have : q ≠ x := by
      rintro rfl
      exact hx (List.mem_append_left _ (List.mem_append_left _ hq))
    rw [hrecs, Function.update_of_ne this]
    exact h.kept q hq

/-- A load that has failed: the records there were have kept all but their TTL, and what was allocated
    for new statements is lost. -/
def Failed (d₀ d : Daemon) (last : Nat → Option Bytes) : Prop :=
  ∃ next lost sql, Seeding d₀ d next lost last sql

/-- One statement: the load fails, or goes on with at most this one more. -/
def Goes (d₀ : Daemon) (last : Nat → Option Bytes) (next : List (Bytes × Nat)) (s : Bytes)
    (r : Daemon × Option (List (Bytes × Nat))) : Prop :=
  match r.2 with
  | none => Failed d₀ r.1 last
  | some next' => (∀ k ∈ next'.map Prod.fst, k ∈ next.map Prod.fst ∨ k = s) ∧
      ∃ lost sql, Seeding d₀ r.1 next' lost last sql

theorem seed_step (h : Seeding d₀ d next lost last sql) (hnew : s ∉ next.map Prod.fst) (ttl : UInt32)
    (refused : Bool) : Goes d₀ last next s (d.seed next s ttl refused) := by
  have hstep : ∀ {d' : Daemon} {p : Nat} {lost' : List Nat} {sql' : Nat → Bytes},
      Seeding d₀ d' (next ++ [(s, p)]) lost' last sql' →
      Goes d₀ last next s (d', if refused then none else some (next ++ [(s, p)])) := by
    intro d' p lost' sql' h'
    cases refused
    · exact ⟨keys_snoc, lost', sql', h'⟩
    · exact ⟨_, _, _, h'⟩
  rw [seed]
  by_cases hlong : s.length > BNCL_STMT_MAX - 1
  · rw [if_pos hlong]
    exact ⟨fun k hk => .inl hk, lost, sql, h⟩
  rw [if_neg hlong]
  cases hk : d.known.lookup s with
  | some p => exact hstep (h.known_step (h.known ▸ mem_of_lookup hk) hnew ttl)
  | none =>
    have hkey : s ∉ d₀.known.map Prod.fst := by
      rw [← h.known]
      intro hm
      obtain ⟨e, he, rfl⟩ := List.mem_map.mp hm
      have := List.lookup_eq_none_iff.mp hk e he
      simp at this
    have hlen : (s ++ [0]).length < 2 ^ 63 := by
      simp only [BNCL_STMT_MAX, List.length_append, List.length_cons, List.length_nil] at hlong ⊢
      omega
    dsimp only
    rcases h.sound.put_alloc hlen with ⟨hnone, extra, h1⟩ | ⟨txt, x, e1, e2, ht0, h1, hst⟩
    · have hsame : Failed d₀ { d with heap := ((d.heap.put (s ++ [0])).2.alloc STMT_BYTES).2 } last :=
        ⟨next, lost ++ extra, sql, ⟨by rw [← List.append_assoc]; exact h1, h.known, h.orphans, h.keys, h.old,
          h.named, h.kept⟩⟩
      rcases hnone with e | e
      · rw [e]
        exact hsame
      · rw [e]
        cases (d.heap.put (s ++ [0])).1 <;> exact hsame
    · simp only [e1, e2]
      exact hstep (h.new_step hkey hnew ht0 h1 hst rfl rfl rfl rfl rfl rfl)

theorem seedAll_sound (ttl : UInt32) (refuse : Bytes → Bool) (sqls : List Bytes) :
    ∀ {d : Daemon} {next : List (Bytes × Nat)} {lost : List Nat} {sql : Nat → Bytes},
      Seeding d₀ d next lost last sql → sqls.Nodup → (∀ s ∈ sqls, s ∉ next.map Prod.fst) →
      match (seedAll ttl refuse sqls d next).2 with
      | none => Failed d₀ (seedAll ttl refuse sqls d next).1 last
      | some next' => ∃ lost sql, Seeding d₀ (seedAll ttl refuse sqls d next).1 next' lost last sql := by
  induction sqls with
  | nil =>
    intro d next lost sql h _ _
    exact ⟨lost, sql, h⟩
  | cons s rest ih =>
    intro d next lost sql h hnd hnew
    obtain ⟨hs, hnd⟩ := List.nodup_cons.mp hnd
    have hstep := seed_step h (hnew s List.mem_cons_self) ttl (refuse s)
    rw [seedAll]
    generalize d.seed next s ttl (refuse s) = r at hstep
    obtain ⟨d', _ | next'⟩ := r
    · exact hstep
    · obtain ⟨hkeys, lost', sql', h'⟩ := hstep
      refine ih h' hnd ?_
      intro k hk hm
      rcases hkeys k hm with hm | rfl
      · exact hnew k (List.mem_cons_of_mem _ hk) hm
      · exact hs hk

end Seed

/-! ### Leaving the list -/

section Leave
variable {d : Daemon} {p : Nat} {ps qs : List Nat} {last : Nat → Option Bytes} {sql : Nat → Bytes}

theorem remove_sound (h : Sound d.heap d.recs (p :: ps ++ d.orphans ++ qs) last sql) (now : UInt64) :
    Sound (d.remove p now).heap (d.remove p now).recs (ps ++ (d.remove p now).orphans ++ qs) last sql ∧
      ∀ q, q ≠ p → (d.remove p now).recs q = d.recs q := by
  have hp : p ∈ p :: ps ++ d.orphans ++ qs := List.mem_cons_self
  have h1 := h.fields { d.recs p with refs := (d.recs p).refs - 1 } hp rfl (h.payload p) rfl rfl
  have f1 : ∀ q, q ≠ p →
      (d.setRec p { d.recs p with refs := (d.recs p).refs - 1 }).recs q = d.recs q :=
    fun q hq => setRec_of_ne d hq _
  unfold remove
  dsimp only
  split
  · rw [(retireStmt_frame ..).2]
    obtain ⟨h2, f2⟩ := Sound.retireStmt (d := d.setRec p _) h1 now
    exact ⟨h2, fun q hq => (f2 q hq).trans (f1 q hq)⟩
  · refine ⟨h1.perm ?_, f1⟩
    show (p :: ps ++ d.orphans ++ qs).Perm (ps ++ (d.orphans ++ [p]) ++ qs)
    rw [← List.append_assoc, List.append_assoc _ [p] qs, List.cons_append, List.cons_append]
    exact List.perm_middle.symm

theorem removeAll_sound (next : List (Bytes × Nat)) (now : UInt64) (l : List (Bytes × Nat)) :
    ∀ {d : Daemon} {qs : List Nat}, Sound d.heap d.recs (l.map Prod.snd ++ d.orphans ++ qs) last sql →
      Sound (removeAll next now l d).heap (removeAll next now l d).recs
        ((l.filter fun e => e.1 ∈ next.map Prod.fst).map Prod.snd ++
          (removeAll next now l d).orphans ++ qs) last sql ∧
      ∀ q, (∀ e ∈ l, e.1 ∉ next.map Prod.fst → e.2 ≠ q) → (removeAll next now l d).recs q = d.recs q := by
  induction l with
  | nil =>
    intro d qs h
    exact ⟨h, fun _ _ => rfl⟩
  | cons e l ih =>
    obtain ⟨s, p⟩ := e
    intro d qs h
    rw [removeAll]
    by_cases hm : s ∈ next.map Prod.fst
    · rw [if_pos hm, List.filter_cons_of_pos (by simpa using hm)]
      -- the record stays: it waits with `qs` until the others are through
      have h1 : Sound d.heap d.recs (l.map Prod.snd ++ d.orphans ++ p :: qs) last sql :=
        h.perm List.perm_middle.symm
      obtain ⟨h2, f2⟩ := ih h1
      exact ⟨h2.perm List.perm_middle, fun q hq => f2 q fun e he => hq e (List.mem_cons_of_mem _ he)⟩
    · rw [if_neg hm, List.filter_cons_of_neg (by simpa using hm)]
      obtain ⟨h1, f1⟩ := remove_sound h now
      obtain ⟨h2, f2⟩ := ih h1
      refine ⟨h2, ?_⟩
      intro q hq
      have hne : q ≠ p := (hq (s, p) List.mem_cons_self hm).symm
      exact (f2 q fun e he => hq e (List.mem_cons_of_mem _ he)).trans (f1 q hne)

/-- Retiring and collecting touch records and heap only. -/
theorem retireStmt_rest (d : Daemon) (p : Nat) (now : UInt64) :
    (d.retireStmt p now).pipes = d.pipes ∧ (d.retireStmt p now).next_id = d.next_id := by
  unfold retireStmt
  dsimp only
  split <;> split <;> exact ⟨rfl, rfl⟩

theorem collectLoop_rest (now : UInt64) (rest : List Nat) : ∀ (d : Daemon) (keep : List Nat),
    (collectLoop now rest d keep).1.pipes = d.pipes ∧
      (collectLoop now rest d keep).1.next_id = d.next_id ∧
      (collectLoop now rest d keep).1.known = d.known := by
  induction rest with
  | nil => exact fun d keep => ⟨rfl, rfl, rfl⟩
  | cons p rest ih =>
    intro d keep
    rw [collectLoop]
    split
    · obtain ⟨e1, e2, e3⟩ := ih (d.retireStmt p now) keep
      obtain ⟨e4, e5⟩ := retireStmt_rest d p now
      exact ⟨e1.trans e4, e2.trans e5, e3.trans (retireStmt_frame d p now).1⟩
    · exact ih d _

theorem collectLoop_sound (now : UInt64) (rest : List Nat) : ∀ {d : Daemon} {keep : List Nat},
    Sound d.heap d.recs (rest ++ keep ++ qs) last sql →
    Sound (collectLoop now rest d keep).1.heap (collectLoop now rest d keep).1.recs
        ((collectLoop now rest d keep).2 ++ qs) last sql ∧
      ∀ q, q ∉ rest → (collectLoop now rest d keep).1.recs q = d.recs q := by
  induction rest with
  | nil =>
    intro d keep h
    exact ⟨h, fun _ _ => rfl⟩
  | cons p rest ih =>
    intro d keep h
    rw [collectLoop]
    split
    · obtain ⟨h0, f0⟩ := Sound.retireStmt h now
      obtain ⟨h1, f1⟩ := ih h0
      refine ⟨h1, ?_⟩
      intro q hq
      rw [List.mem_cons, not_or] at hq
      obtain ⟨hne, hq⟩ := hq
      exact (f1 q hq).trans (f0 q hne)
    · have hperm : (p :: rest ++ keep ++ qs).Perm (rest ++ (keep ++ [p]) ++ qs) := by
        rw [← List.append_assoc, List.append_assoc _ [p] qs, List.cons_append, List.cons_append]
        exact List.perm_middle.symm
      obtain ⟨h1, f1⟩ := ih (h.perm hperm)
      exact ⟨h1, fun q hq => f1 q fun hm => hq (List.mem_cons_of_mem _ hm)⟩

end Leave

end Barnacle.Daemon
