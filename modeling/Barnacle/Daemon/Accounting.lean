import Barnacle.Daemon.Model

/-! Every allocated block is accounted for: it is the record, the text or the payload of a statement
    the daemon knows or still keeps as an orphan, or it waits on the retire list. Two paths break
    this, and only these: a miss forgets the payload of a stale record, and a load that fails half way
    forgets what it has allocated. -/

namespace Barnacle.Daemon
open Barnacle.Lib Barnacle.Arena

/-! ### What a statement owns -/

def Stmt.payload (st : Stmt) : List Nat := if st.data = 0 then [] else [st.data]

def Stmt.text (st : Stmt) : List Nat := if st.txt = 0 then [] else [st.txt]

def Stmt.blocks (st : Stmt) : List Nat := st.text ++ st.payload

def blocksOf (recs : Nat → Stmt) (ps : List Nat) : List Nat := ps.flatMap fun p => p :: (recs p).blocks

/-- The records of the statements in `known` and in `orphans`. -/
def stmts (d : Daemon) : List Nat := d.known.map Prod.snd ++ d.orphans

def owned (d : Daemon) : List Nat := blocksOf d.recs d.stmts

variable {recs : Nat → Stmt} {p : Nat} {ps qs : List Nat} {st : Stmt}

@[simp] theorem blocksOf_nil : blocksOf recs [] = [] := rfl

@[simp] theorem blocksOf_cons : blocksOf recs (p :: ps) = p :: (recs p).blocks ++ blocksOf recs ps := rfl

theorem blocksOf_perm (h : ps.Perm qs) : (blocksOf recs ps).Perm (blocksOf recs qs) := h.flatMap_right _

/-- One record's payload apart from the rest. -/
theorem blocksOf_payload : (blocksOf recs (p :: ps)).Perm
    ((recs p).payload ++ (p :: ((recs p).text ++ blocksOf recs ps))) := by
  rw [blocksOf_cons, Stmt.blocks, ← List.cons_append, ← List.cons_append, List.append_assoc,
    ← List.append_assoc, ← List.append_assoc]
  exact List.perm_append_comm.append_right _

theorem mem_blocksOf (h : p ∈ ps) : p ∈ blocksOf recs ps :=
  List.mem_flatMap.mpr ⟨p, h, List.mem_cons_self⟩

theorem blocksOf_congr {recs' : Nat → Stmt} (h : ∀ q ∈ ps, (recs' q).blocks = (recs q).blocks) :
    blocksOf recs' ps = blocksOf recs ps :=
  List.flatMap_congr fun q hq => by rw [h q hq]

theorem blocksOf_update (h : p ∉ ps) : blocksOf (Function.update recs p st) ps = blocksOf recs ps :=
  blocksOf_congr fun q hq => by rw [Function.update_of_ne (ne_of_mem_of_not_mem hq h)]

/-- The records `ps`, with their texts and payloads, are all that is allocated and not retired. -/
def Holds (d : Daemon) (ps : List Nat) : Prop := d.heap.Owns (blocksOf d.recs ps)

namespace Holds
variable {d : Daemon}

theorem perm (h : d.Holds ps) (hp : ps.Perm qs) : d.Holds qs := h.congr (blocksOf_perm hp)

/-- A record is not another one's. -/
theorem notMem (h : d.Holds (p :: ps)) : p ∉ ps := fun hm =>
  (List.nodup_cons.mp h.list_nodup).1 (List.mem_append_right _ (mem_blocksOf hm))

/-- Fields that own nothing may change. -/
theorem setRec (h : d.Holds ps) (hb : st.blocks = (d.recs p).blocks) : (d.setRec p st).Holds ps := by
  have e : blocksOf (d.setRec p st).recs ps = blocksOf d.recs ps := blocksOf_congr fun q _ => by
    simp only [Daemon.setRec, Function.update_apply]
    split
    next e => rw [e, hb]
    next => rfl
  rw [Holds, e]
  exact h

end Holds

/-! ### `keep` -/

/-- `keep` trades the old payload for the new one, or fails and changes nothing. -/
theorem keep_spec {w : World} {l : List Nat} (h : w.Owns (st.payload ++ l)) {body : Bytes}
    (hlen : body.length < 2 ^ 63) (now : UInt64) :
    keep w st body now = (none, w) ∨
      ∃ q, (keep w st body now).1 = some q ∧ q ≠ 0 ∧ (keep w st body now).2.Owns (q :: l) := by
  unfold keep
  split
  next hsame =>
    right
    rw [Stmt.payload, if_neg hsame.1] at h
    exact ⟨st.data, rfl, hsame.1, h⟩
  next =>
    dsimp only
    rcases h.put hlen with e | ⟨q, e, hq, ho, -⟩
    · left
      rw [e]
      rfl
    · right
      refine ⟨q, e, hq, ?_⟩
      by_cases h0 : st.data = 0
      · rw [if_neg fun hc => hc.2 h0]
        rw [Stmt.payload, if_pos h0] at ho
        exact ho
      · rw [if_pos ⟨by rw [e]; rfl, h0⟩]
        rw [Stmt.payload, if_neg h0] at ho
        exact (ho.congr (List.Perm.swap ..)).retire _

namespace Holds
variable {d : Daemon}

/-- A payload for the record `p`, whatever becomes of it. -/
theorem publish (h : d.Holds (p :: ps)) {body : Bytes} (hlen : body.length < 2 ^ 63) (now : UInt64) :
    keep d.heap (d.recs p) body now = (none, d.heap) ∨
      ∃ q, (keep d.heap (d.recs p) body now).1 = some q ∧ ∀ len ttl ts,
        ({ d with heap := (keep d.heap (d.recs p) body now).2 }.setRec p
          ((d.recs p).publish q len ttl ts)).Holds (p :: ps) := by
  have hnot := h.notMem
  refine (keep_spec (h.congr blocksOf_payload) hlen now).imp_right ?_
  rintro ⟨q, e, hq, ho⟩
  refine ⟨q, e, fun len ttl ts => ho.congr ?_⟩
  have hp : ((d.recs p).publish q len ttl ts).payload = [q] := if_neg hq
  refine .trans ?_ blocksOf_payload.symm
  simp only [Daemon.setRec, Function.update_self, blocksOf_update hnot, hp]
  rfl

/-- `retireStmt` gives back everything the record owns. -/
theorem retireStmt (h : d.Holds (p :: ps)) (now : UInt64) : (d.retireStmt p now).Holds ps := by
  have hnot := h.notMem
  -- first the payload
  obtain ⟨d₁, hd1⟩ : ∃ x, x = if (d.recs p).data ≠ 0 then
      { d with heap := d.heap.retire (d.recs p).data now }.setRec p
        { d.recs p with data := 0, data_len := 0 }
    else d := ⟨_, rfl⟩
  have h1 : d₁.heap.Owns (p :: ((d₁.recs p).text ++ blocksOf d₁.recs ps)) := by
    have h' : d.heap.Owns _ := h.congr blocksOf_payload
    rw [hd1]
    by_cases h0 : (d.recs p).data = 0
    · rw [if_neg (by simpa using h0)]
      rw [Stmt.payload, if_pos h0] at h'
      exact h'
    · rw [if_pos h0]
      rw [Stmt.payload, if_neg h0] at h'
      simp only [Daemon.setRec, Function.update_self, blocksOf_update hnot]
      exact World.Owns.retire h' now
  -- then the text
  obtain ⟨d₂, hd2⟩ : ∃ x, x = if (d₁.recs p).txt ≠ 0 then
      { d₁ with heap := d₁.heap.retire (d₁.recs p).txt now }.setRec p { d₁.recs p with txt := 0 }
    else d₁ := ⟨_, rfl⟩
  have h2 : d₂.heap.Owns (p :: blocksOf d₂.recs ps) := by
    rw [hd2]
    by_cases h0 : (d₁.recs p).txt = 0
    · rw [if_neg (by simpa using h0)]
      rw [Stmt.text, if_pos h0] at h1
      exact h1
    · rw [if_pos h0]
      rw [Stmt.text, if_neg h0] at h1
      simp only [Daemon.setRec, blocksOf_update hnot]
      exact World.Owns.retire (h1.congr (List.Perm.swap ..)) now
  -- and the record
  have e : d.retireStmt p now = { d₂ with heap := d₂.heap.retire p now } := by
    rw [Daemon.retireStmt, hd2, hd1]
  rw [Holds, e]
  exact h2.retire now

end Holds

/-! ### Orphans -/

variable {d : Daemon}

theorem retireStmt_frame (d : Daemon) (p : Nat) (now : UInt64) :
    (d.retireStmt p now).known = d.known ∧ (d.retireStmt p now).orphans = d.orphans := by
  unfold retireStmt
  dsimp only
  split <;> split <;> exact ⟨rfl, rfl⟩

theorem collectLoop_spec (now : UInt64) (rest : List Nat) : ∀ {d : Daemon} {keep : List Nat},
    d.Holds (rest ++ keep ++ qs) →
    (collectLoop now rest d keep).1.Holds ((collectLoop now rest d keep).2 ++ qs) ∧
      (collectLoop now rest d keep).1.known = d.known := by
  induction rest with
  | nil =>
    intro d keep h
    exact ⟨h, rfl⟩
  | cons p rest ih =>
    intro d keep h
    rw [collectLoop]
    split
    · obtain ⟨h1, h2⟩ := ih (Holds.retireStmt h now)
      exact ⟨h1, h2.trans (retireStmt_frame d p now).1⟩
    · refine ih (h.perm ?_)
      rw [← List.append_assoc, List.append_assoc _ [p] qs, List.cons_append, List.cons_append]
      exact List.perm_middle.symm

/-! ### Loading -/

/-- `lookup` finds exactly the entries of a list whose keys are distinct. -/
theorem mem_of_lookup {l : List (Bytes × Nat)} {sql : Bytes} (h : l.lookup sql = some p) :
    (sql, p) ∈ l := by
  obtain ⟨l₁, l₂, rfl, -⟩ := List.lookup_eq_some_iff.mp h
  simp

/-- The records a load has added so far. -/
def added (known next : List (Bytes × Nat)) : List Nat :=
  (next.filter fun e => e.1 ∉ known.map Prod.fst).map Prod.snd

/-- In the middle of a load: `next` names known statements with the records they had, and everything
    added is new. -/
structure Loading (d : Daemon) (next : List (Bytes × Nat)) : Prop where
  holds : d.Holds (d.stmts ++ added d.known next)
  keys : (next.map Prod.fst).Nodup
  known : ∀ e ∈ next, e.1 ∈ d.known.map Prod.fst → e ∈ d.known

/-- A load that loses nothing: each new statement gets its text, its record and its map entry, or the
    load gives up before it has got anything (`got`). -/
def Seeds (known : List (Bytes × Nat)) (refuse : Bytes → Bool) : World → Bool → List Bytes → Prop
  | _, _, [] => True
  | w, got, sql :: rest =>
    if sql.length > BNCL_STMT_MAX - 1 then Seeds known refuse w got rest
    else if (known.lookup sql).isSome then
      if refuse sql then got = false else Seeds known refuse w got rest
    else
      let t := w.put (sql ++ [0])
      let r := t.2.alloc STMT_BYTES
      if t.1.isSome ∧ r.1.isSome then refuse sql = false ∧ Seeds known refuse r.2 true rest
      else t.1 = none ∧ r.1 = none ∧ got = false

theorem added_known {known next : List (Bytes × Nat)} {sql : Bytes} (h : sql ∈ known.map Prod.fst) :
    added known (next ++ [(sql, p)]) = added known next := by
  rw [added, List.filter_append, List.filter_cons_of_neg (by simpa using h), List.filter_nil,
    List.append_nil, added]

theorem added_new {known next : List (Bytes × Nat)} {sql : Bytes} (h : sql ∉ known.map Prod.fst) :
    added known (next ++ [(sql, p)]) = added known next ++ [p] := by
  rw [added, List.filter_append, List.filter_cons_of_pos (by simpa using h), List.filter_nil,
    List.map_append, added]
  rfl

theorem keys_append {next : List (Bytes × Nat)} {sql : Bytes} (h : (next.map Prod.fst).Nodup)
    (hn : sql ∉ next.map Prod.fst) : ((next ++ [(sql, p)]).map Prod.fst).Nodup := by
  rw [List.map_append]
  exact List.nodup_append.mpr ⟨h, by simp, fun a ha b hb e => by
    simp only [List.map_cons, List.map_nil, List.mem_singleton] at hb
    exact hn (hb ▸ e ▸ ha)⟩

/-- A new record with its text, both just allocated. -/
theorem Holds.seed {w : World} {txt : Nat} (ht : txt ≠ 0)
    (ho : w.Owns (p :: txt :: blocksOf d.recs ps)) (hst : st.txt = txt) (hd : st.data = 0)
    {d' : Daemon} (hw : d'.heap = w) (hr : d'.recs = Function.update d.recs p st) :
    d'.Holds (ps ++ [p]) := by
  have hnot : p ∉ ps := fun hm =>
    (List.nodup_cons.mp ho.list_nodup).1 (List.mem_cons_of_mem _ (mem_blocksOf hm))
  have hb : st.blocks = [txt] := by
    rw [Stmt.blocks, Stmt.text, Stmt.payload, hst, if_neg ht, if_pos hd]
    rfl
  have h' : d'.Holds (p :: ps) := by
    rw [Holds, hw, hr, blocksOf_cons, Function.update_self, hb, blocksOf_update hnot]
    exact ho
  exact h'.perm (@List.perm_append_comm _ [p] _)

/-- What seeding comes to: it fails with nothing added, or goes on with `next`. -/
def Seeded (d : Daemon) (r : Daemon × Option (List (Bytes × Nat))) : Prop :=
  r.1.known = d.known ∧
    match r.2 with
    | none => r.1.Holds r.1.stmts
    | some next => r.1.Loading next

/-- The two blocks of a new statement, both new to the caller. -/
theorem Holds.put_alloc {bytes : Bytes} {txt q : Nat} (h : d.Holds ps) (hlen : bytes.length < 2 ^ 63)
    (htxt : (d.heap.put bytes).1 = some txt)
    (hq : ((d.heap.put bytes).2.alloc STMT_BYTES).1 = some q) :
    txt ≠ 0 ∧ ((d.heap.put bytes).2.alloc STMT_BYTES).2.Owns (q :: txt :: blocksOf d.recs ps) := by
  have hput : txt ≠ 0 ∧ (d.heap.put bytes).2.Owns (txt :: blocksOf d.recs ps) := by
    rcases h.put hlen with e | ⟨x, e, hx, ho, -⟩
    · rw [e] at htxt; cases htxt
    · rw [e] at htxt; cases htxt
      exact ⟨hx, ho⟩
  refine ⟨hput.1, ?_⟩
  rcases hput.2.alloc (n := STMT_BYTES) (by norm_num [STMT_BYTES]) with e | ⟨x, e, -, ho⟩
  · rw [e] at hq; cases hq
  · rw [e] at hq; cases hq
    exact ho

/-- Where neither is had, the heap is as it was. -/
theorem Holds.put_alloc_none {bytes : Bytes} (h : d.Holds ps) (hlen : bytes.length < 2 ^ 63)
    (htxt : (d.heap.put bytes).1 = none) (hq : ((d.heap.put bytes).2.alloc STMT_BYTES).1 = none) :
    ((d.heap.put bytes).2.alloc STMT_BYTES).2 = d.heap := by
  have e1 : d.heap.put bytes = (none, d.heap) := by
    rcases h.put hlen with e | ⟨x, e, -, -, -⟩
    · exact e
    · rw [e] at htxt; cases htxt
  rw [e1] at hq ⊢
  rcases h.alloc (n := STMT_BYTES) (by norm_num [STMT_BYTES]) with e | ⟨x, e, -, -⟩
  · rw [e]
  · rw [e] at hq; cases hq

section Load
variable {next : List (Bytes × Nat)} {sql : Bytes} {rest : List Bytes} {got : Bool}
  {refuse : Bytes → Bool}

/-- One statement: the load fails with nothing added, or goes on with at most this one more. -/
def Advances (refuse : Bytes → Bool) (rest : List Bytes) (d : Daemon) (next : List (Bytes × Nat))
    (sql : Bytes) (r : Daemon × Option (List (Bytes × Nat))) : Prop :=
  r.1.known = d.known ∧
    match r.2 with
    | none => r.1.Holds r.1.stmts
    | some next' => r.1.Loading next' ∧
        (∀ s ∈ next'.map Prod.fst, s ∈ next.map Prod.fst ∨ s = sql) ∧
        ∃ got : Bool, (got = false → added d.known next' = []) ∧ Seeds d.known refuse r.1.heap got rest

theorem keys_snoc : ∀ s ∈ (next ++ [(sql, p)]).map Prod.fst, s ∈ next.map Prod.fst ∨ s = sql := by
  intro s hs
  rw [List.map_append, List.mem_append] at hs
  rcases hs with hs | hs
  · exact .inl hs
  · exact .inr (List.mem_singleton.mp hs)

theorem Loading.giveUp {d' : Daemon} (hgot : got = false → added d.known next = []) (hg : got = false)
    (e : d'.stmts = d.stmts) (h : d'.Holds (d.stmts ++ added d.known next)) : d'.Holds d'.stmts := by
  rw [hgot hg, List.append_nil] at h
  rw [e]
  exact h

/-- A statement that is known keeps its record. -/
theorem Loading.seed_known {q : Nat} {ttl : UInt32} (h : d.Loading next)
    (hgot : got = false → added d.known next = []) (hnew : sql ∉ next.map Prod.fst)
    (hk : d.known.lookup sql = some q)
    (hseeds : if refuse sql then got = false else Seeds d.known refuse d.heap got rest) :
    Advances refuse rest d next sql (d.setRec q { d.recs q with ttl := ttl },
      if refuse sql then none else some (next ++ [(sql, q)])) := by
  have hmem := mem_of_lookup hk
  have hkey : sql ∈ d.known.map Prod.fst := List.mem_map_of_mem hmem
  have h1 : (d.setRec q { d.recs q with ttl := ttl }).Holds (d.stmts ++ added d.known next) :=
    h.holds.setRec rfl
  refine ⟨rfl, ?_⟩
  split_ifs at hseeds ⊢
  · exact Loading.giveUp hgot hseeds rfl h1
  · refine ⟨⟨?_, keys_append h.keys hnew, ?_⟩, keys_snoc, got, ?_, hseeds⟩
    · rw [show (d.setRec q _).known = d.known from rfl, added_known hkey]
      exact h1
    · intro e he hek
      rcases List.mem_append.mp he with he | he
      · exact h.known e he hek
      · rw [List.mem_singleton.mp he]
        exact hmem
    · rw [added_known hkey]
      exact hgot

/-- A statement that is new gets its text and its record. -/
theorem Loading.seed_new {w : World} {txt q : Nat} {d' : Daemon} {st : Stmt} (h : d.Loading next)
    (hnew : sql ∉ next.map Prod.fst) (hkey : sql ∉ d.known.map Prod.fst) (ht : txt ≠ 0)
    (ho : w.Owns (q :: txt :: blocksOf d.recs (d.stmts ++ added d.known next))) (hst : st.txt = txt)
    (hd : st.data = 0) (hw : d'.heap = w) (hr : d'.recs = Function.update d.recs q st)
    (hknown : d'.known = d.known) (hstmts : d'.stmts = d.stmts) : d'.Loading (next ++ [(sql, q)]) := by
  refine ⟨?_, keys_append h.keys hnew, ?_⟩
  · rw [hstmts, hknown, added_new hkey, ← List.append_assoc]
    exact Holds.seed ht ho hst hd hw hr
  · intro e he hek
    rw [hknown] at hek ⊢
    rcases List.mem_append.mp he with he | he
    · exact h.known e he hek
    · rw [List.mem_singleton.mp he] at hek
      exact absurd hek hkey

theorem seed_spec (ttl : UInt32) (h : d.Loading next) (hgot : got = false → added d.known next = [])
    (hnew : sql ∉ next.map Prod.fst) (hseeds : Seeds d.known refuse d.heap got (sql :: rest)) :
    Advances refuse rest d next sql (d.seed next sql ttl (refuse sql)) := by
  rw [seed]
  rw [Seeds] at hseeds
  by_cases hlong : sql.length > BNCL_STMT_MAX - 1
  · rw [if_pos hlong] at hseeds ⊢
    exact ⟨rfl, h, fun s hs => .inl hs, got, hgot, hseeds⟩
  rw [if_neg hlong] at hseeds ⊢
  cases hk : d.known.lookup sql with
  | some q =>
    simp only [hk, Option.isSome_some, if_true] at hseeds
    exact h.seed_known hgot hnew hk hseeds
  | none =>
    have hkey : sql ∉ d.known.map Prod.fst := by
      intro hm
      obtain ⟨e, he, rfl⟩ := List.mem_map.mp hm
      have := List.lookup_eq_none_iff.mp hk e he
      simp at this
    have hlen : (sql ++ [0]).length < 2 ^ 63 := by
      simp only [BNCL_STMT_MAX, List.length_append, List.length_cons, List.length_nil] at hlong ⊢
      omega
    simp only [hk, Option.isSome_none, Bool.false_eq_true, if_false] at hseeds
    dsimp only
    split at hseeds
    next hgotten =>
      obtain ⟨hr, hseeds⟩ := hseeds
      obtain ⟨txt, htxt⟩ := Option.isSome_iff_exists.mp hgotten.1
      obtain ⟨q, hq⟩ := Option.isSome_iff_exists.mp hgotten.2
      obtain ⟨ht, ho⟩ := h.holds.put_alloc hlen htxt hq
      simp only [htxt, hq, hr, Bool.false_eq_true, if_false]
      exact ⟨rfl, h.seed_new hnew hkey ht ho rfl rfl rfl rfl rfl rfl, keys_snoc, true, by simp, hseeds⟩
    next =>
      obtain ⟨h1, h2, hg⟩ := hseeds
      have hw := h.holds.put_alloc_none hlen h1 h2
      simp only [h1]
      refine ⟨rfl, Loading.giveUp hgot hg rfl ?_⟩
      rw [Holds, hw]
      exact h.holds

/-- Statement by statement. -/
theorem seedAll_spec (ttl : UInt32) (refuse : Bytes → Bool) (sqls : List Bytes) : ∀ (got : Bool)
    {d : Daemon} {next : List (Bytes × Nat)}, d.Loading next → sqls.Nodup →
    (∀ sql ∈ sqls, sql ∉ next.map Prod.fst) → (got = false → added d.known next = []) →
    Seeds d.known refuse d.heap got sqls → Seeded d (seedAll ttl refuse sqls d next) := by
  induction sqls with
  | nil =>
    intro got d next h _ _ _ _
    exact ⟨rfl, h⟩
  | cons sql rest ih =>
    intro got d next h hnd hnew hgot hseeds
    obtain ⟨hsql, hnd⟩ := List.nodup_cons.mp hnd
    obtain ⟨hknown, hstep⟩ := seed_spec ttl h hgot (hnew sql List.mem_cons_self) hseeds
    rw [seedAll]
    generalize d.seed next sql ttl (refuse sql) = r at hknown hstep
    obtain ⟨d', _ | next'⟩ := r
    · exact ⟨hknown, hstep⟩
    · obtain ⟨hload, hkeys, got', hgot', hseeds'⟩ := hstep
      have hrest : ∀ s ∈ rest, s ∉ next'.map Prod.fst := by
        intro s hs hm
        rcases hkeys s hm with hm | rfl
        · exact hnew s (List.mem_cons_of_mem _ hs) hm
        · exact hsql hs
      dsimp only at hknown hload hseeds'
      rw [← hknown] at hgot' hseeds'
      obtain ⟨hk, hres⟩ := ih got' hload hnd hrest hgot' hseeds'
      exact ⟨hk.trans hknown, hres⟩

end Load

/-- A removed record is retired or becomes an orphan. -/
theorem remove_spec (h : d.Holds (p :: ps ++ d.orphans ++ qs)) (now : UInt64) :
    (d.remove p now).Holds (ps ++ (d.remove p now).orphans ++ qs) := by
  have h1 : (d.setRec p { d.recs p with refs := (d.recs p).refs - 1 }).Holds
      (p :: ps ++ d.orphans ++ qs) := h.setRec rfl
  unfold remove
  dsimp only
  split
  · rw [(retireStmt_frame ..).2]
    exact Holds.retireStmt h1 now
  · refine Holds.perm (d := { d.setRec p _ with orphans := _ }) h1 ?_
    show (p :: ps ++ d.orphans ++ qs).Perm (ps ++ (d.orphans ++ [p]) ++ qs)
    rw [← List.append_assoc, List.append_assoc _ [p] qs, List.cons_append, List.cons_append]
    exact List.perm_middle.symm

theorem removeAll_spec (next : List (Bytes × Nat)) (now : UInt64) (l : List (Bytes × Nat)) :
    ∀ {d : Daemon} {qs : List Nat}, d.Holds (l.map Prod.snd ++ d.orphans ++ qs) →
      (removeAll next now l d).Holds
        ((l.filter fun e => e.1 ∈ next.map Prod.fst).map Prod.snd ++
          (removeAll next now l d).orphans ++ qs) := by
  induction l with
  | nil =>
    intro d qs h
    exact h
  | cons e l ih =>
    obtain ⟨sql, p⟩ := e
    intro d qs h
    rw [removeAll]
    by_cases hm : sql ∈ next.map Prod.fst
    · rw [if_pos hm, List.filter_cons_of_pos (by simpa using hm)]
      -- the record stays: it waits with `qs` until the others are through
      have h1 : d.Holds (l.map Prod.snd ++ d.orphans ++ p :: qs) := h.perm List.perm_middle.symm
      exact (ih h1).perm List.perm_middle
    · rw [if_neg hm, List.filter_cons_of_neg (by simpa using hm)]
      exact ih (remove_spec h now)

/-- A list file names each statement once. -/
theorem loadList_nodup (lines : List Bytes) : (loadList lines).Nodup := by
  have key : ∀ (lines : List Bytes) (acc : List Bytes), acc.Nodup →
      (lines.foldl (fun stmts line =>
        if trim line = [] ∨ (trim line).head? = some 35 then stmts else addStmt stmts (trim line))
        acc).Nodup := by
    intro lines
    induction lines with
    | nil => exact fun acc h => h
    | cons line lines ih =>
      intro acc h
      refine ih _ ?_
      dsimp only
      split
      · exact h
      · unfold addStmt
        split
        · exact h
        next hn =>
          refine List.nodup_append.mpr ⟨h, by simp, fun a ha b hb e => ?_⟩
          rw [List.mem_singleton.mp hb] at e
          exact hn (Or.inr (e ▸ ha))
  exact key lines [] List.nodup_nil

/-- `next` names the known statements that stay and the ones added. -/
theorem stay_added_perm {known next : List (Bytes × Nat)} (hk : (known.map Prod.fst).Nodup)
    (hn : (next.map Prod.fst).Nodup) (hold : ∀ e ∈ next, e.1 ∈ known.map Prod.fst → e ∈ known) :
    ((known.filter fun e => e.1 ∈ next.map Prod.fst).map Prod.snd ++ added known next).Perm
      (next.map Prod.snd) := by
  have hstay : (known.filter fun e => e.1 ∈ next.map Prod.fst).Perm
      (next.filter fun e => e.1 ∈ known.map Prod.fst) := by
    refine (List.perm_ext_iff_of_nodup (hk.of_map.filter _) (hn.of_map.filter _)).mpr fun e => ?_
    simp only [List.mem_filter, decide_eq_true_eq]
    constructor
    · rintro ⟨he, hm⟩
      have hek : e.1 ∈ known.map Prod.fst := List.mem_map_of_mem he
      obtain ⟨e', he', e1⟩ := List.mem_map.mp hm
      have := List.inj_on_of_nodup_map hk (hold e' he' (e1 ▸ hek)) he e1
      exact ⟨this ▸ he', hek⟩
    · rintro ⟨he, hm⟩
      exact ⟨hold e he hm, List.mem_map_of_mem he⟩
  refine ((hstay.map _).append_right _).trans ?_
  rw [added, ← List.map_append]
  have := List.filter_append_perm (fun e : Bytes × Nat => decide (e.1 ∈ known.map Prod.fst)) next
  simpa only [decide_not] using this.map Prod.snd

/-! ### The system -/

/-- The daemon's own view of the heap agrees with the allocator's. -/
structure Accounted (d : Daemon) : Prop where
  holds : d.Holds d.stmts
  keys : (d.known.map Prod.fst).Nodup

theorem load_accounted (h : d.Accounted) (lines : List Bytes) (ttl : UInt32) (refuse : Bytes → Bool)
    (now : UInt64) (hs : Seeds d.known refuse d.heap false (loadList lines)) :
    (d.loadStatements lines ttl refuse now).Accounted := by
  have h0 : d.Loading [] := ⟨by simpa [added] using h.holds, by simp, by simp⟩
  have hsd := seedAll_spec ttl refuse (loadList lines) false h0 (loadList_nodup lines) (by simp) (fun _ => rfl) hs
  unfold loadStatements
  dsimp only
  revert hsd
  generalize seedAll ttl refuse (loadList lines) d [] = r
  rintro ⟨hk, hr⟩
  have hkeys : (r.1.known.map Prod.fst).Nodup := by rw [hk]; exact h.keys
  cases hn : r.2 with
  | none =>
    rw [hn] at hr
    exact ⟨hr, hkeys⟩
  | some next =>
    rw [hn] at hr
    refine ⟨?_, hr.keys⟩
    refine Holds.perm (d := { removeAll next now r.1.known r.1 with known := next })
      (removeAll_spec next now _ hr.holds) ?_
    show List.Perm _ (next.map Prod.snd ++ (removeAll next now r.1.known r.1).orphans)
    rw [List.append_assoc]
    refine (List.perm_append_comm.append_left _).trans ?_
    rw [← List.append_assoc]
    exact (stay_added_perm hkeys hr.keys hr.known).append_right _

theorem collect_accounted (h : d.Accounted) (now : UInt64) : (d.collectOrphans now).Accounted := by
  have h1 : d.Holds (d.orphans ++ [] ++ d.known.map Prod.snd) :=
    h.holds.perm (by rw [List.append_nil]; exact List.perm_append_comm)
  obtain ⟨h2, hk⟩ := collectLoop_spec now _ h1
  refine ⟨?_, by rw [show (d.collectOrphans now).known = d.known from hk]; exact h.keys⟩
  exact Holds.perm (d := { (collectLoop now d.orphans d []).1 with
    orphans := (collectLoop now d.orphans d []).2 }) h2 (by
    show List.Perm _ ((collectLoop now d.orphans d []).1.known.map Prod.snd ++ _)
    rw [hk]
    exact List.perm_append_comm)

/-- The record a pipe names is one the daemon still has. -/
theorem Accounted.split (h : d.Accounted) (hp : p ∈ d.stmts) :
    ∃ ps, d.stmts.Perm (p :: ps) ∧ d.Holds (p :: ps) := by
  obtain ⟨s, t, e⟩ := List.append_of_mem hp
  have hperm : d.stmts.Perm (p :: (s ++ t)) := by rw [e]; exact List.perm_middle
  exact ⟨s ++ t, hperm, h.holds.perm hperm⟩

/-- A payload for a record the daemon still has. -/
theorem Accounted.publish (h : d.Accounted) (hp : p ∈ d.stmts) {body : Bytes}
    (hlen : body.length < 2 ^ 63) (now : UInt64) :
    keep d.heap (d.recs p) body now = (none, d.heap) ∨
      ∃ q, (keep d.heap (d.recs p) body now).1 = some q ∧ ∀ len ttl ts,
        ({ d with heap := (keep d.heap (d.recs p) body now).2 }.setRec p
          ((d.recs p).publish q len ttl ts)).Accounted := by
  obtain ⟨ps, hperm, h1⟩ := h.split hp
  refine (h1.publish hlen now).imp_right ?_
  rintro ⟨q, e, h2⟩
  exact ⟨q, e, fun len ttl ts => ⟨(h2 len ttl ts).perm hperm.symm, h.keys⟩⟩

theorem store_accounted (h : d.Accounted) {key : Nat} (hp : d.pipes key = 0 ∨ d.pipes key ∈ d.stmts)
    (body : Bytes) (env : Env) : (d.serveStore key body env).Accounted := by
  unfold serveStore
  split
  · exact h
  next hlen =>
    have hlen : body.length < 2 ^ 63 := by
      simp only [Pipes.BNCL_STORE_MAX] at hlen
      omega
    unfold store
    dsimp only
    split
    · exact h
    next h0 =>
      split
      · exact h
      · rcases h.publish (hp.resolve_left h0) hlen env.kept with e | ⟨q, e, h1⟩
        · rw [e]; exact h
        · rw [e]; exact h1 ..

/-- The LOOKUP that finds nothing upstream: no fresh local copy, and Valkey has no payload. -/
def misses (d : Daemon) (st : Stmt) (env : Env) : Bool :=
  !hit st env && env.valkey.any fun v => (d.fetch st v).isNone

theorem fetch_length {v : Valkey} {payload : Bytes} (h : d.fetch st v = some payload) :
    payload.length < 2 ^ 63 := by
  unfold fetch at h
  split at h
  · cases h
  · exact v.fits _ _ (Option.filter_eq_some_iff.mp h).1

theorem lookup_accounted (h : d.Accounted) {key : Nat} {env : Env}
    (hp : d.pipes key = 0 ∨ d.pipes key ∈ d.stmts)
    (hmiss : d.misses (d.recs (d.pipes key)) env → (d.recs (d.pipes key)).data = 0) :
    (d.serveLookup key env).2.Accounted := by
  unfold serveLookup
  dsimp only
  split
  · exact h
  · split
    · exact h
    next h0 =>
      split
      · exact h
      next hhit =>
        split
        · exact h
        next v hv =>
          split
          next payload hf =>
            rcases h.publish (hp.resolve_left h0) (fetch_length hf) env.kept with e | ⟨q, e, h1⟩
            · rw [e]; exact h
            · rw [e]; exact h1 ..
          next hf =>
            have hd := hmiss (by simp only [misses, hhit, hv, Option.any_some, hf]; rfl)
            refine ⟨h.holds.setRec ?_, h.keys⟩
            simp only [Stmt.blocks, Stmt.text, Stmt.payload, hd]

/-- What keeps the books straight. A request is served only on a pipe that names no record or one the
    daemon still has; a LOOKUP misses only when the record has no payload; and a load that fails has
    allocated nothing. -/
def Frugal (d : Daemon) : Event → Prop
  | .loadStatements lines _ refuse _ => Seeds d.known refuse d.heap false (loadList lines)
  | .serveLookup key env => (d.pipes key = 0 ∨ d.pipes key ∈ d.stmts) ∧
      (d.misses (d.recs (d.pipes key)) env → (d.recs (d.pipes key)).data = 0)
  | .serveStore key _ _ => d.pipes key = 0 ∨ d.pipes key ∈ d.stmts
  | _ => True

theorem accounted_step {d' : Daemon} {e : Event} (h : d.Accounted) (hf : d.Frugal e)
    (hs : d.step e = some d') : d'.Accounted := by
  cases e <;> cases hs
  case loadStatements lines ttl refuse now => exact load_accounted h lines ttl refuse now hf
  case serveLookup key env => exact lookup_accounted h hf.1 hf.2
  case serveStore key body env => exact store_accounted h hf body env
  case collectOrphans now => exact collect_accounted h now
  case reclaim now => exact ⟨World.Owns.reclaim h.holds now, h.keys⟩
  case count p refs => exact ⟨h.holds.setRec rfl, h.keys⟩
  case point key p => exact ⟨h.holds, h.keys⟩

theorem accounted_start {mem : Mem} {len : Nat} (h1 : BNCL_CTL_BYTES + MIN_BLOCK < len)
    (h2 : len < 2 ^ 32) : (start mem len).Accounted := by
  obtain ⟨bs, fl, hv⟩ := World.valid_init (w := {}) mem h1 h2
  have hok : (Arena.init {} (some mem) len).1 = true := by
    rw [Arena.init, if_neg (Nat.not_le.mpr h1)]
  have e : (start mem len).heap = { arena := (Arena.init {} (some mem) len).2 } := by
    rw [start, World.apply, if_pos hok]
  refine ⟨⟨⟨bs, fl, [], by rw [e]; exact hv⟩, by rw [e]; exact List.nodup_nil, ?_⟩, List.nodup_nil⟩
  rw [e]
  exact .refl _

/-- In every frugal run each allocated block is, exactly once, the record, the text or the payload of
    a statement in `known` or `orphans`, or on the retire list. -/
theorem blocks_accounted (mem : Mem) (len : Nat) (hmin : BNCL_CTL_BYTES + MIN_BLOCK < len)
    (hmax : len < 2 ^ 32) (events : List Event) (d : Daemon)
    (hrun : run step (start mem len) events = some d)
    (hfrugal : Along step Frugal (start mem len) events) :
    ∃ bs fl rl, d.heap.Valid bs fl rl ∧
      ∀ b ∈ bs, b.free = false → d.owned.count (b.off + HDR) + rl.count b.off = 1 := by
  have h : d.Accounted := run_inv_along (I := Accounted)
    (fun _ _ _ h hf hs => accounted_step h hf hs) (accounted_start hmin hmax) hfrugal hrun
  exact h.holds.accounts

instance decidableSeeds (known : List (Bytes × Nat)) (refuse : Bytes → Bool) :
    ∀ w got sqls, Decidable (Seeds known refuse w got sqls)
  | _, _, [] => .isTrue trivial
  | w, got, sql :: rest =>
    let _ := fun w got => decidableSeeds known refuse w got rest
    decidable_of_iff _ (Iff.of_eq (Seeds.eq_2 known refuse w got sql rest).symm)

instance (d : Daemon) : (e : Event) → Decidable (d.Frugal e)
  | .loadStatements lines _ refuse _ =>
    inferInstanceAs (Decidable (Seeds d.known refuse d.heap false (loadList lines)))
  | .serveLookup key env => inferInstanceAs (Decidable ((d.pipes key = 0 ∨ d.pipes key ∈ d.stmts) ∧
      (d.misses (d.recs (d.pipes key)) env → (d.recs (d.pipes key)).data = 0)))
  | .serveStore key _ _ => inferInstanceAs (Decidable (d.pipes key = 0 ∨ d.pipes key ∈ d.stmts))
  | .collectOrphans _ | .reclaim _ | .count .. | .point .. => .isTrue trivial

/-- Valkey with nothing in it, asked at `now`. -/
def emptyAt (now : UInt64) : Env := ⟨true, true, some ⟨fun _ => none, fun _ _ h => nomatch h⟩, 60, now, now⟩

theorem blocks_accounted_sample :
    ∃ d, run step (start (fun _ => 0) 600) [.loadStatements [[83]] 60 (fun _ => false) 1, .point 0 112,
        .serveLookup 0 (emptyAt 3), .serveStore 0 Mysql.oneRow (emptyAt 5), .serveLookup 0 (emptyAt 7),
        .loadStatements [[84]] 60 (fun _ => false) 9, .reclaim 9] = some d ∧
      d.owned = [296, 264] ∧ ∃ bs fl rl, d.heap.Valid bs fl rl ∧
        ∀ b ∈ bs, b.free = false → d.owned.count (b.off + HDR) + rl.count b.off = 1 := by
  refine exists_run_of_map owned [296, 264] (by decide +kernel) ?_
  intro d hd ho
  exact ⟨ho, blocks_accounted _ 600 (by decide) (by decide) _ d hd (by decide +kernel)⟩

/-- A payload that has aged out is forgotten when Valkey has lost it too: the block at 192 is still
    allocated, was never retired, and belongs to no statement. -/
theorem payload_leaked :
    ∃ d, run step (start (fun _ => 0) 600) [.loadStatements [[83]] 60 (fun _ => false) 1, .point 0 112,
        .serveStore 0 Mysql.oneRow (emptyAt 5), .serveLookup 0 (emptyAt 70000000000)] = some d ∧
      192 ∈ d.heap.live ∧ 192 ∉ d.owned ∧ 192 ∉ d.heap.retired := by
  refine exists_run_of_map (fun d => (d.heap.live, d.owned, d.heap.retired))
    ([192, 112, 80], [112, 80], []) (by decide +kernel) ?_
  intro d _ he
  simp only [Prod.mk.injEq] at he
  exact ⟨by simp [he.1], by simp [he.2.1], by simp [he.2.2]⟩

end Barnacle.Daemon
