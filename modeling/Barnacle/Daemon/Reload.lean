import Barnacle.Daemon.Table

/-! A load that fails, and a map that was not empty (`loadStatements` and `start` in
    `src/daemon/main.cpp`). Nothing is undone: a load that gives up leaves what it has allocated,
    the TTLs it has set and the keys it has bound. And nothing is cleared: a daemon that starts
    binds the keys of its own list and deletes only keys it knows, which are none. -/

namespace Barnacle.Daemon.Table
open Barnacle.Lib Barnacle.Arena

/-! ### A load that fails -/

/-- What a failed load should leave as it was: the map, the two lists, every record, and the blocks
    that are allocated or retired. -/
structure Unchanged (s s' : Table) : Prop where
  stmts_map : s'.stmts_map = s.stmts_map
  known : s'.daemon.known = s.daemon.known
  orphans : s'.daemon.orphans = s.daemon.orphans
  recs : s'.daemon.recs = s.daemon.recs
  live : s'.daemon.heap.live = s.daemon.heap.live
  retired : s'.daemon.heap.retired = s.daemon.heap.retired

/-- The load goes through, or gives up before it has changed anything. A known statement changes
    something if its TTL is another one (`touched`) or its key is bound to something else (`dirty`
    lists the keys bound otherwise than before); a new one that gets a block always does. -/
def Clean (s : Table) (ttl : UInt32) (refuse : Bytes → Bool) : World → Bool → List Bytes → List Bytes → Prop
  | _, _, _, [] => True
  | w, touched, dirty, sql :: rest =>
    if sql.length > BNCL_STMT_MAX - 1 then Clean s ttl refuse w touched dirty rest
    else
      let key := stmtKey sql
      match s.daemon.known.lookup sql with
      | some p =>
        let touched := touched || (s.daemon.recs p).ttl ≠ ttl
        if refuse sql then touched = false ∧ dirty = []
        else Clean s ttl refuse w touched
          (if s.stmts_map key = some p then dirty.filter (· ≠ key) else key :: dirty) rest
      | none =>
        let t := w.put (sql ++ [0])
        let r := t.2.alloc STMT_BYTES
        match t.1, r.1 with
        | some _, some p => refuse sql = false ∧ Clean s ttl refuse r.2 true
            (if s.stmts_map key = some p then dirty.filter (· ≠ key) else key :: dirty) rest
        | none, none => touched = false ∧ dirty = []
        | _, _ => False

/-- What a file asks of the state before the load. -/
def CleanFile (s : Table) (ttl : UInt32) (refuse : Bytes → Bool) : ListFile → Prop
  | .none | .unreadable => True
  | .lines ls => Clean s ttl refuse s.daemon.heap false [] (loadList ls)

/-- How far a load has come from `s` to `t`. -/
structure Reached (s t : Table) (ttl : UInt32) (touched : Bool) (dirty : List Bytes) : Prop where
  known : t.daemon.known = s.daemon.known
  orphans : t.daemon.orphans = s.daemon.orphans
  same : touched = false → t.daemon.recs = s.daemon.recs ∧ t.daemon.heap = s.daemon.heap
  other : touched = true → s.daemon.heap.live.length < t.daemon.heap.live.length ∨
    ∃ p, (t.daemon.recs p).ttl = ttl ∧ (s.daemon.recs p).ttl ≠ ttl
  grows : s.daemon.heap.live.length ≤ t.daemon.heap.live.length
  dirty : ∀ key, key ∈ dirty ↔ t.stmts_map key ≠ s.stmts_map key

section Steps
variable {s t : Table} {ttl : UInt32} {touched : Bool} {dirty : List Bytes} {next : List (Bytes × Nat)}
  {sql : Bytes} {p : Nat}

/-- Where a load stops, nothing has changed exactly if nothing was touched and no key is dirty. -/
theorem Reached.unchanged_iff (h : Reached s t ttl touched dirty) :
    Unchanged s t ↔ touched = false ∧ dirty = [] := by
  constructor
  · intro hu
    constructor
    · cases touched with
      | false => rfl
      | true =>
        rcases h.other rfl with hl | ⟨p, e1, e2⟩
        · rw [hu.live] at hl
          exact absurd hl (Nat.lt_irrefl _)
        · rw [hu.recs] at e1
          exact absurd e1 e2
    · refine List.eq_nil_iff_forall_not_mem.mpr fun key hk => ?_
      exact (h.dirty key).mp hk (by rw [hu.stmts_map])
  · rintro ⟨ht, rfl⟩
    obtain ⟨e1, e2⟩ := h.same ht
    refine ⟨funext fun key => ?_, h.known, h.orphans, e1, by rw [e2], by rw [e2]⟩
    by_contra hne
    exact List.not_mem_nil ((h.dirty key).mpr hne)

/-- The key is bound. -/
theorem Reached.bound (h : Reached s t ttl touched dirty) (key : Bytes) (p : Nat) :
    Reached s { t with stmts_map := Function.update t.stmts_map key (some p) } ttl touched
      (if s.stmts_map key = some p then dirty.filter (· ≠ key) else key :: dirty) := by
  refine ⟨h.known, h.orphans, h.same, h.other, h.grows, ?_⟩
  intro k
  dsimp only
  by_cases e : k = key
  · subst e
    rw [Function.update_self]
    split
    next hb => simp [hb]
    next hb =>
      refine ⟨fun _ hc => hb hc.symm, fun _ => List.mem_cons_self⟩
  · rw [Function.update_of_ne e, ← h.dirty k]
    split
    · simp [e]
    · simp [e]

/-- A known statement takes the TTL of the load. -/
theorem Reached.setTtl (h : Reached s t ttl touched dirty) (p : Nat) :
    Reached s { t with daemon := t.daemon.setRec p { t.daemon.recs p with ttl := ttl } } ttl
      (touched || decide ((s.daemon.recs p).ttl ≠ ttl)) dirty := by
  refine ⟨h.known, h.orphans, ?_, ?_, h.grows, h.dirty⟩
  · intro hf
    simp only [Bool.or_eq_false_iff, decide_eq_false_iff_not, ne_eq, not_not] at hf
    obtain ⟨e1, e2⟩ := h.same hf.1
    refine ⟨?_, e2⟩
    have hst : ({ t.daemon.recs p with ttl := ttl } : Stmt) = t.daemon.recs p := by
      rw [e1, ← hf.2]
    simp only [setRec, hst, Function.update_eq_self]
    exact e1
  · intro ht
    simp only [Bool.or_eq_true, decide_eq_true_eq] at ht
    have hp : s.daemon.heap.live.length < t.daemon.heap.live.length ∨ ∃ q,
        ((t.daemon.setRec p { t.daemon.recs p with ttl := ttl }).recs q).ttl = ttl ∧
          (s.daemon.recs q).ttl ≠ ttl := by
      rcases ht with ht | ht
      · rcases h.other ht with hl | ⟨q, e1, e2⟩
        · exact .inl hl
        · refine .inr ⟨q, ?_, e2⟩
          by_cases e : q = p
          · rw [e, setRec_self]
          · rw [setRec_of_ne _ e]
            exact e1
      · exact .inr ⟨p, by rw [setRec_self], ht⟩
    exact hp

/-- Blocks were allocated. -/
theorem Reached.grown (h : Reached s t ttl touched dirty) {d : Daemon} (hk : d.known = t.daemon.known)
    (ho : d.orphans = t.daemon.orphans) (hl : t.daemon.heap.live.length < d.heap.live.length)
    {ids : List UInt32} : Reached s { t with daemon := d, ids := ids } ttl true dirty := by
  have hlt := Nat.lt_of_le_of_lt h.grows hl
  exact ⟨hk.trans h.known, ho.trans h.orphans, fun hc => Bool.noConfusion hc, fun _ => .inl hlt,
    Nat.le_of_lt hlt, h.dirty⟩

/-- The text and the record of a new statement: neither is had, one of them, or both. -/
theorem grows_both (w : World) (src : Bytes) :
    ((w.put src).1 = none ∧ ((w.put src).2.alloc STMT_BYTES).1 = none ∧
        ((w.put src).2.alloc STMT_BYTES).2 = w) ∨
      w.live.length < ((w.put src).2.alloc STMT_BYTES).2.live.length ∧
        ((w.put src).1 = none → ((w.put src).2.alloc STMT_BYTES).1 ≠ none) := by
  rcases w.put_grows src with e | ⟨txt, e, hl⟩
  · rw [e]
    rcases w.alloc_grows STMT_BYTES with e' | ⟨p, e', hl'⟩
    · rw [e']
      exact .inl ⟨rfl, rfl, rfl⟩
    · right
      simp [e', hl']
  · right
    rcases (w.put src).2.alloc_grows STMT_BYTES with e' | ⟨p, e', hl'⟩
    · rw [e', e]
      simp [hl]
    · rw [e', e, hl', hl]
      simp only [List.length_cons]
      exact ⟨by omega, by simp⟩

/-- Statement by statement: a load that fails has changed nothing exactly if it is clean. -/
theorem seedAll_clean (refuse : Bytes → Bool) (sqls : List Bytes) :
    ∀ {t : Table} (next : List (Bytes × Nat)) {touched : Bool} {dirty : List Bytes},
      Reached s t ttl touched dirty →
      (((seedAll ttl refuse sqls t next).2 = none → Unchanged s (seedAll ttl refuse sqls t next).1) ↔
        Clean s ttl refuse t.daemon.heap touched dirty sqls) := by
  induction sqls with
  | nil =>
    intro t next touched dirty _
    exact ⟨fun _ => trivial, fun _ hc => by cases hc⟩
  | cons sql rest ih =>
    intro t next touched dirty h
    -- where the key is bound, the load goes on from there
    have hbind : ∀ {t' : Table} {touched' : Bool} (p : Nat), Reached s t' ttl touched' dirty →
        ∀ out : Table × Option (List (Bytes × Nat)),
        ((t'.bind next sql p (refuse sql)).2 = none → out = ((t'.bind next sql p (refuse sql)).1, none)) →
        (∀ next', (t'.bind next sql p (refuse sql)).2 = some next' →
          out = seedAll ttl refuse rest (t'.bind next sql p (refuse sql)).1 next') →
        ((out.2 = none → Unchanged s out.1) ↔
          if refuse sql then touched' = false ∧ dirty = []
          else Clean s ttl refuse t'.daemon.heap touched'
            (if s.stmts_map (stmtKey sql) = some p then dirty.filter (· ≠ stmtKey sql)
              else stmtKey sql :: dirty) rest) := by
      intro t' touched' p h' out hnone hsome
      cases hr : refuse sql with
      | true =>
        rw [hr] at hnone
        rw [hnone rfl]
        simp only [bind, if_true, forall_const]
        exact h'.unchanged_iff
      | false =>
        rw [hr] at hsome
        rw [hsome _ rfl]
        simp only [bind, Bool.false_eq_true, if_false]
        exact ih _ (h'.bound (stmtKey sql) p)
    rw [seedAll, Clean, seed]
    dsimp only
    by_cases hlong : sql.length > BNCL_STMT_MAX - 1
    · simp only [if_pos hlong]
      exact ih _ h
    have hk : t.daemon.known.lookup sql = s.daemon.known.lookup sql := by rw [h.known]
    simp only [if_neg hlong, hk]
    cases s.daemon.known.lookup sql with
    | some p =>
      have hset := hbind p (h.setTtl p)
      exact hset _ (fun e => by simp only [e]) (fun next' e => by simp only [e])
    | none =>
      dsimp only
      rcases grows_both t.daemon.heap (sql ++ [0]) with ⟨e1, e2, e3⟩ | ⟨hl, hnone⟩
      · simp only [e1, e2, e3, forall_const]
        exact h.unchanged_iff
      · generalize t.daemon.heap.put (sql ++ [0]) = x at hl hnone
        generalize x.2.alloc STMT_BYTES = y at hl hnone
        obtain ⟨x1, x2⟩ := x
        obtain ⟨y1, y2⟩ := y
        dsimp only at hl hnone ⊢
        have hfail : ¬ Unchanged s { t with daemon := { t.daemon with heap := y2 } } := by
          rw [(h.grown (d := { t.daemon with heap := y2 }) rfl rfl hl).unchanged_iff]
          simp
        cases x1 with
        | none =>
          cases y1 with
          | none => exact absurd rfl (hnone rfl)
          | some p => simpa using hfail
        | some txt =>
          cases y1 with
          | none => simpa using hfail
          | some p =>
            have hg : Reached s { t with
                daemon := { t.daemon with heap := y2, next_id := t.daemon.next_id + 1 }.setRec p
                  { txt := txt, len := sql.length, id := t.daemon.next_id, ttl := ttl, refs := 1 }
                ids := t.daemon.next_id :: t.ids } ttl true dirty :=
              h.grown (d := { t.daemon with heap := y2, next_id := t.daemon.next_id + 1 }.setRec p _) rfl rfl hl
            have hset := hbind p hg
            refine (hset _ (fun e => by simp only [e]) (fun next' e => by simp only [e])).trans ?_
            cases refuse sql <;> simp [setRec]

end Steps

/-- For every state and every list: a load that fails has changed nothing exactly if it gives up before
    its first effect. -/
theorem failed_load_unchanged (s : Table) (file : ListFile) (ttl : UInt32) (refuse : Bytes → Bool)
    (now : UInt64) :
    ((s.loadStatements file ttl refuse now).1 = false → Unchanged s (s.loadStatements file ttl refuse now).2) ↔
      CleanFile s ttl refuse file := by
  cases file with
  | none => exact ⟨fun _ => trivial, fun _ hc => by cases hc⟩
  | unreadable => exact ⟨fun _ => trivial, fun _ _ => ⟨rfl, rfl, rfl, rfl, rfl, rfl⟩⟩
  | lines ls =>
    have h0 : Reached s s ttl false [] :=
      ⟨rfl, rfl, fun _ => ⟨rfl, rfl⟩, fun hc => Bool.noConfusion hc, Nat.le_refl _, by simp⟩
    have h := seedAll_clean refuse (loadList ls) [] h0
    rw [CleanFile, ← h, loadStatements]
    dsimp only
    cases (seedAll ttl refuse (loadList ls) s []).2 with
    | none => simp
    | some next => simp

/-- A daemon that serves `S` is told to serve `S`, `T` and `U`, and the map takes no third entry: the
    load fails, and `T` is bound all the same. -/
theorem failed_load_binds :
    ∃ s, Table.loadStatements { daemon := Daemon.start (fun _ => 0) 600 } (.lines [[83]]) 60 (fun _ => false) 1 =
        (true, s) ∧
      (s.loadStatements (.lines [[83], [84], [85]]) 60 (· == [85]) 2).1 = false ∧
      ¬ Unchanged s (s.loadStatements (.lines [[83], [84], [85]]) 60 (· == [85]) 2).2 := by
  have h : ((Table.loadStatements { daemon := Daemon.start (fun _ => 0) 600 } (.lines [[83]]) 60
      (fun _ => false) 1).1,
      (Table.loadStatements { daemon := Daemon.start (fun _ => 0) 600 } (.lines [[83]]) 60
        (fun _ => false) 1).2.stmts_map (stmtKey [84]),
      ((Table.loadStatements { daemon := Daemon.start (fun _ => 0) 600 } (.lines [[83]]) 60
        (fun _ => false) 1).2.loadStatements (.lines [[83], [84], [85]]) 60 (· == [85]) 2).1) =
      (true, none, false) := by decide +kernel
  have h' : ((Table.loadStatements { daemon := Daemon.start (fun _ => 0) 600 } (.lines [[83]]) 60
      (fun _ => false) 1).2.loadStatements (.lines [[83], [84], [85]]) 60 (· == [85]) 2).2.stmts_map
        (stmtKey [84]) ≠ none := by decide +kernel
  obtain ⟨s, hs⟩ : ∃ x, x = (Table.loadStatements { daemon := Daemon.start (fun _ => 0) 600 } (.lines [[83]]) 60
    (fun _ => false) 1).2 := ⟨_, rfl⟩
  rw [← hs] at h h'
  simp only [Prod.mk.injEq] at h
  refine ⟨s, Prod.ext h.1 hs.symm, h.2.2, fun hu => h' ?_⟩
  rw [hu.stmts_map, h.2.1]

/-! ### What an earlier daemon left -/

/-- `start` as far as the map and the arena go. The region is laid out afresh, whatever was in it; the
    map is the pinned one, with what an earlier daemon left in it. -/
def start (leftover : Bytes → Option Nat) (mem : Mem) (len : Nat) (file : ListFile) (ttl : UInt32)
    (refuse : Bytes → Bool) (now : UInt64) : Bool × Table :=
  let d := Daemon.start mem len
  if d.heap.arena.ok then loadStatements { daemon := d, stmts_map := leftover } file ttl refuse now
  else (false, { daemon := d, stmts_map := leftover })

/-- The statements a file asks for that have a key. -/
def ListFile.listed : ListFile → List Bytes
  | .none | .unreadable => []
  | .lines ls => short (loadList ls)

/-- Every key that is bound is the key of a statement in the list, and is bound to the record this
    daemon allocated for it. -/
def OwnBindings (t : Table) (file : ListFile) : Prop :=
  ∀ key p, t.stmts_map key = some p →
    ∃ sql ∈ file.listed, stmtKey sql = key ∧ (sql, p) ∈ t.daemon.known ∧ p ∈ t.daemon.heap.live

/-- What is allocated stays, while a load has nothing to remove. -/
theorem seed_live {s : Table} {next next' : List (Bytes × Nat)} {sql : Bytes} {ttl : UInt32} {refused : Bool}
    (h0 : s.daemon.known = []) (h : ∀ e ∈ next, e.2 ∈ s.daemon.heap.live)
    (hn : (s.seed next sql ttl refused).2 = some next') :
    (s.seed next sql ttl refused).1.daemon.known = [] ∧
      ∀ e ∈ next', e.2 ∈ (s.seed next sql ttl refused).1.daemon.heap.live := by
  obtain ⟨e1, e2⟩ := seed_daemon s next sql ttl refused
  rw [e1]
  rw [e2] at hn
  unfold Daemon.seed at hn ⊢
  by_cases hlong : sql.length > BNCL_STMT_MAX - 1
  · simp only [if_pos hlong] at hn ⊢
    cases hn
    exact ⟨h0, h⟩
  simp only [if_neg hlong, h0, List.lookup_nil] at hn ⊢
  rcases s.daemon.heap.put_grows (sql ++ [0]) with e3 | ⟨txt, e3, hl⟩
  · rw [e3] at hn
    cases hn
  rcases (s.daemon.heap.put (sql ++ [0])).2.alloc_grows STMT_BYTES with e4 | ⟨p, e4, hl'⟩
  · simp only [e3, e4] at hn
    cases hn
  simp only [e3, e4] at hn ⊢
  refine ⟨rfl, ?_⟩
  cases refused with
  | true => cases hn
  | false =>
    cases hn
    intro e he
    show e.2 ∈ ((s.daemon.heap.put (sql ++ [0])).2.alloc STMT_BYTES).2.live
    rw [hl', hl]
    rcases List.mem_append.mp he with he | he
    · exact List.mem_cons_of_mem _ (List.mem_cons_of_mem _ (h e he))
    · rw [List.mem_singleton.mp he]
      exact List.mem_cons_self

theorem seedAll_live (ttl : UInt32) (refuse : Bytes → Bool) (sqls : List Bytes) :
    ∀ {s : Table} {next next' : List (Bytes × Nat)}, s.daemon.known = [] →
      (∀ e ∈ next, e.2 ∈ s.daemon.heap.live) → (seedAll ttl refuse sqls s next).2 = some next' →
      (seedAll ttl refuse sqls s next).1.daemon.known = [] ∧
        ∀ e ∈ next', e.2 ∈ (seedAll ttl refuse sqls s next).1.daemon.heap.live := by
  induction sqls with
  | nil =>
    intro s next next' h0 h hn
    cases hn
    exact ⟨h0, h⟩
  | cons sql rest ih =>
    intro s next next' h0 h hn
    rw [seedAll] at hn ⊢
    cases hr : (s.seed next sql ttl (refuse sql)).2 with
    | none =>
      simp only [hr] at hn
      cases hn
    | some mid =>
      simp only [hr] at hn ⊢
      obtain ⟨h1, h2⟩ := seed_live h0 h hr
      exact ih h1 h2 hn

/-- After a start that goes through, every binding is this daemon's own exactly if each key an earlier
    daemon left is the key of a statement in the new list, and so is bound anew. -/
theorem start_bindings_own (leftover : Bytes → Option Nat) (mem : Mem) (len : Nat) (file : ListFile)
    (ttl : UInt32) (refuse : Bytes → Bool) (now : UInt64)
    (hok : (start leftover mem len file ttl refuse now).1 = true) :
    OwnBindings (start leftover mem len file ttl refuse now).2 file ↔
      ∀ key, leftover key ≠ none → ∃ sql ∈ file.listed, stmtKey sql = key := by
  unfold start at hok ⊢
  dsimp only at hok ⊢
  split at hok
  swap
  · cases hok
  next hopen =>
  rw [if_pos hopen]
  cases file with
  | none =>
    constructor
    · intro h key hk
      obtain ⟨p, hp⟩ := Option.ne_none_iff_exists'.mp hk
      obtain ⟨sql, hs, -⟩ := h key p hp
      exact absurd hs List.not_mem_nil
    · intro h key p hp
      obtain ⟨sql, hs, -⟩ := h key (by rw [show leftover key = some p from hp]; simp)
      exact absurd hs List.not_mem_nil
  | unreadable => cases hok
  | lines ls =>
    obtain ⟨s, hs⟩ : ∃ x : Table, x = { daemon := Daemon.start mem len, stmts_map := leftover } := ⟨_, rfl⟩
    rw [← hs] at hok ⊢
    have hk0 : s.daemon.known = [] := by rw [hs]; rfl
    have hm0 : Maps leftover s.stmts_map [] := fun key => .inr ⟨by simp, by rw [hs]⟩
    unfold loadStatements at hok ⊢
    dsimp only at hok ⊢
    cases hn : (seedAll ttl refuse (loadList ls) s []).2 with
    | none =>
      rw [hn] at hok
      cases hok
    | some next =>
      obtain ⟨hmaps, hkeys⟩ := seedAll_maps ttl refuse (loadList ls) hm0 hn
      obtain ⟨hknown, hlive⟩ := seedAll_live ttl refuse (loadList ls) hk0 (by simp) hn
      rw [List.map_nil, List.nil_append] at hkeys
      simp only [hknown, removeAll]
      constructor
      · intro h key hkey
        rcases hmaps key with ⟨e, he, e1, -⟩ | ⟨-, e2⟩
        · exact ⟨e.1, by rw [ListFile.listed, ← hkeys]; exact List.mem_map_of_mem he, e1⟩
        · rw [← e2] at hkey
          obtain ⟨p, hp⟩ := Option.ne_none_iff_exists'.mp hkey
          obtain ⟨sql, h1, h2, -⟩ := h key p hp
          exact ⟨sql, h1, h2⟩
      · intro h key p hp
        dsimp only at hp
        rcases hmaps key with ⟨e, he, e1, e2⟩ | ⟨hnot, e2⟩
        · have e3 : e.2 = p := by
            rw [e2] at hp
            exact Option.some.inj hp
          refine ⟨e.1, ?_, e1, ?_, ?_⟩
          · rw [ListFile.listed, ← hkeys]
            exact List.mem_map_of_mem he
          · rw [← e3]
            exact he
          · rw [← e3]
            exact hlive e he
        · obtain ⟨sql, h1, h2⟩ := h key (by rw [← e2, hp]; simp)
          rw [ListFile.listed, ← hkeys] at h1
          obtain ⟨e, he, rfl⟩ := List.mem_map.mp h1
          exact absurd h2 (hnot e he)

theorem start_bindings_own_sample :
    (start (Function.update (fun _ => none) (stmtKey [83]) (some 4096)) (fun _ => 7) 600 (.lines [[83], [84]]) 60
        (fun _ => false) 1).1 = true ∧
      OwnBindings (start (Function.update (fun _ => none) (stmtKey [83]) (some 4096)) (fun _ => 7) 600
        (.lines [[83], [84]]) 60 (fun _ => false) 1).2 (.lines [[83], [84]]) := by
  have hok : (start (Function.update (fun _ => none) (stmtKey [83]) (some 4096)) (fun _ => 7) 600
      (.lines [[83], [84]]) 60 (fun _ => false) 1).1 = true := by decide +kernel
  refine ⟨hok, (start_bindings_own _ _ _ _ _ _ _ hok).mpr ?_⟩
  intro key hk
  refine ⟨[83], by decide, ?_⟩
  by_contra hne
  rw [Function.update_of_ne (Ne.symm hne)] at hk
  exact hk rfl

/-- The statement `T` that only the earlier daemon served stays bound to where its record was. -/
theorem start_keeps_stale :
    (start (Function.update (fun _ => none) (stmtKey [84]) (some 4096)) (fun _ => 7) 600 (.lines [[83]]) 60
        (fun _ => false) 1).1 = true ∧
      ¬ OwnBindings (start (Function.update (fun _ => none) (stmtKey [84]) (some 4096)) (fun _ => 7) 600
        (.lines [[83]]) 60 (fun _ => false) 1).2 (.lines [[83]]) := by
  have h : ((start (Function.update (fun _ => none) (stmtKey [84]) (some 4096)) (fun _ => 7) 600
      (.lines [[83]]) 60 (fun _ => false) 1).1,
      (start (Function.update (fun _ => none) (stmtKey [84]) (some 4096)) (fun _ => 7) 600
        (.lines [[83]]) 60 (fun _ => false) 1).2.stmts_map (stmtKey [84])) = (true, some 4096) := by
    decide +kernel
  simp only [Prod.mk.injEq] at h
  refine ⟨h.1, fun ho => ?_⟩
  obtain ⟨sql, hs, e, -⟩ := ho _ _ h.2
  rw [show ListFile.listed (.lines [[83]]) = [[83]] from by decide +kernel, List.mem_singleton] at hs
  rw [hs] at e
  exact absurd e (by decide +kernel)

end Barnacle.Daemon.Table
