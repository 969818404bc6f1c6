import Barnacle.Arena.Vacant
import Barnacle.Daemon.Table

/-! `stmts_map` over whole histories of additions, removals and re-additions (`loadStatements`,
    `collectOrphans` and `retireStmt` in `src/daemon/main.cpp`, `StmtList` in
    `src/common/stmtlist.cpp`). After each load that goes through, the map binds exactly the
    statements of the list, each to the record `known` has for it; a statement that stays keeps its
    record as it was, but for the TTL.

    Ids are a counter of 32 bits, so they repeat, but only after 2^32 records. -/

namespace Barnacle.Daemon.Table
open Barnacle.Lib Barnacle.Arena

/-! ### Keys -/

/-- A text that has a key of its own: short enough, and without zeros. -/
def Plain (sql : Bytes) : Prop := sql.length ≤ BNCL_STMT_MAX - 1 ∧ 0 ∉ sql

theorem stmtKey_takeWhile {sql : Bytes} (h : Plain sql) : (stmtKey sql).takeWhile (· ≠ 0) = sql := by
  obtain ⟨k, hk⟩ : ∃ k, BNCL_STMT_MAX - sql.length = k + 1 := by
    have := h.1
    simp only [BNCL_STMT_MAX] at this ⊢
    exact ⟨511 - sql.length, by omega⟩
  have hall : ∀ x ∈ sql, (decide (x ≠ 0)) = true := by
    intro x hx
    simp only [ne_eq, decide_eq_true_eq]
    rintro rfl
    exact h.2 hx
  rw [stmtKey, hk, List.replicate_succ, List.takeWhile_append_of_pos hall, List.takeWhile_cons_of_neg (by simp),
    List.append_nil]

theorem stmtKey_inj {a b : Bytes} (ha : Plain a) (hb : Plain b) (h : stmtKey a = stmtKey b) : a = b := by
  rw [← stmtKey_takeWhile ha, h, stmtKey_takeWhile hb]

/-! ### What a load keeps -/

/-- The map binds exactly the known statements, each under a key of its own. -/
structure Bound (s : Table) : Prop where
  plain : ∀ e ∈ s.daemon.known, Plain e.1
  binds : ∀ key p, s.stmts_map key = some p ↔ ∃ sql, (sql, p) ∈ s.daemon.known ∧ stmtKey sql = key

section Load
variable {s : Table} {ls : List Bytes} {ttl : UInt32} {refuse : Bytes → Bool} {now : UInt64}
  {lost : List Nat} {last : Nat → Option Bytes} {sql : Nat → Bytes}

/-- What a load that goes through has done, in its two halves. -/
theorem load_ok (hok : (s.loadStatements (.lines ls) ttl refuse now).1 = true) :
    ∃ next, (seedAll ttl refuse (loadList ls) s []).2 = some next ∧
      (s.loadStatements (.lines ls) ttl refuse now).2 =
        { removeAll next now (seedAll ttl refuse (loadList ls) s []).1.daemon.known
            (seedAll ttl refuse (loadList ls) s []).1 with
          daemon := { (removeAll next now (seedAll ttl refuse (loadList ls) s []).1.daemon.known
            (seedAll ttl refuse (loadList ls) s []).1).daemon with known := next } } := by
  unfold loadStatements at hok ⊢
  dsimp only at hok ⊢
  cases hn : (seedAll ttl refuse (loadList ls) s []).2 with
  | none =>
    rw [hn] at hok
    cases hok
  | some next => exact ⟨next, rfl, rfl⟩

/-- A load that goes through, seen from the daemon: its second half leaves the records of the new list
    alone. -/
theorem load_spec (h : s.daemon.Kept lost last sql)
    (hok : (s.loadStatements (.lines ls) ttl refuse now).1 = true) :
    ∃ next lost' sql', (seedAll ttl refuse (loadList ls) s []).2 = some next ∧
      Seeding s.daemon (seedAll ttl refuse (loadList ls) s []).1.daemon next lost' last sql' ∧
      (s.loadStatements (.lines ls) ttl refuse now).2.daemon.known = next ∧
      (s.loadStatements (.lines ls) ttl refuse now).2.daemon.Kept lost' last sql' ∧
      ∀ e ∈ next, (s.loadStatements (.lines ls) ttl refuse now).2.daemon.recs e.2 =
        (seedAll ttl refuse (loadList ls) s []).1.daemon.recs e.2 := by
  obtain ⟨next, hn, e⟩ := load_ok hok
  obtain ⟨e1, e2⟩ := seedAll_daemon ttl refuse (loadList ls) s []
  have hs := seedAll_sound ttl refuse (loadList ls) h.seeding (loadList_nodup ls) (by simp)
  rw [← e2, hn, ← e1] at hs
  obtain ⟨lost', sql', hs⟩ := hs
  obtain ⟨h1, h2⟩ := hs.leave h.keys now
  rw [← removeAll_daemon] at h1 h2
  refine ⟨next, lost', sql', hn, hs, ?_, ?_, ?_⟩
  · rw [e]
  · rw [e]
    exact h1
  · rw [e]
    exact h2

/-- The texts of the new list, and what its first half has bound. -/
theorem load_keys {next : List (Bytes × Nat)} (hn : (seedAll ttl refuse (loadList ls) s []).2 = some next) :
    Maps s.stmts_map (seedAll ttl refuse (loadList ls) s []).1.stmts_map next ∧
      next.map Prod.fst = short (loadList ls) := by
  obtain ⟨h1, h2⟩ := seedAll_maps (m := s.stmts_map) ttl refuse (loadList ls)
    (fun key => .inr ⟨by simp, rfl⟩) hn
  exact ⟨h1, by simpa using h2⟩

theorem mem_short {sqls : List Bytes} {x : Bytes} : x ∈ short sqls ↔ x ∈ sqls ∧ x.length ≤ BNCL_STMT_MAX - 1 := by
  simp [short]

/-- After a load the map binds the new list and nothing else. -/
theorem load_bound (h : s.daemon.Kept lost last sql) (hb : Bound s) (hnul : ∀ x ∈ loadList ls, 0 ∉ x)
    (hok : (s.loadStatements (.lines ls) ttl refuse now).1 = true) :
    Bound (s.loadStatements (.lines ls) ttl refuse now).2 ∧
      (s.loadStatements (.lines ls) ttl refuse now).2.daemon.known.map Prod.fst = short (loadList ls) := by
  obtain ⟨next, lost', sql', hn, hs, hknown, -, -⟩ := load_spec h hok
  obtain ⟨next', hn', e⟩ := load_ok hok
  obtain rfl : next = next' := Option.some.inj (hn.symm.trans hn')
  obtain ⟨hmaps, hkeys⟩ := load_keys hn
  have hplain : ∀ x ∈ next, Plain x.1 := by
    intro x hx
    have hm : x.1 ∈ short (loadList ls) := by
      rw [← hkeys]
      exact List.mem_map_of_mem hx
    obtain ⟨h1, h2⟩ := mem_short.mp hm
    exact ⟨h2, hnul x.1 h1⟩
  have hmap : ∀ key, (s.loadStatements (.lines ls) ttl refuse now).2.stmts_map key =
      if ∃ x ∈ s.daemon.known, x.1 ∉ next.map Prod.fst ∧ stmtKey x.1 = key then none
      else (seedAll ttl refuse (loadList ls) s []).1.stmts_map key := by
    intro key
    rw [e, ← hs.known]
    exact removeAll_map ..
  refine ⟨⟨?_, ?_⟩, by rw [hknown, hkeys]⟩
  · rw [hknown]
    exact hplain
  · intro key p
    rw [hmap, hknown]
    constructor
    · intro hp
      split at hp
      · cases hp
      next hnot =>
        rcases hmaps key with ⟨x, hx, e1, e2⟩ | ⟨hnone, e2⟩
        · rw [e2] at hp
          cases hp
          exact ⟨x.1, hx, e1⟩
        · -- bound before the load: the statement is known, so it would have left the list
          rw [e2] at hp
          obtain ⟨t, ht, rfl⟩ := (hb.binds key p).mp hp
          by_cases hm : t ∈ next.map Prod.fst
          · obtain ⟨x, hx, rfl⟩ := List.mem_map.mp hm
            exact absurd rfl (hnone x hx)
          · exact absurd ⟨(t, p), ht, hm, rfl⟩ hnot
    · rintro ⟨t, ht, rfl⟩
      have hmem : t ∈ next.map Prod.fst := List.mem_map_of_mem (f := Prod.fst) ht
      rw [if_neg]
      · rcases hmaps (stmtKey t) with ⟨x, hx, e1, e2⟩ | ⟨hnone, -⟩
        · have e3 : x.1 = t := stmtKey_inj (hplain x hx) (hplain (t, p) ht) e1
          have e4 : x = (t, p) := List.inj_on_of_nodup_map hs.keys hx ht e3
          rw [e2, e4]
        · exact absurd rfl (hnone (t, p) ht)
      · rintro ⟨x, hx, hxn, e1⟩
        have e2 : x.1 = t := stmtKey_inj (hb.plain x hx) (hplain (t, p) ht) e1
        exact hxn (e2 ▸ hmem)

end Load

/-! ### Ids -/

/-- The ids of the first `n` records, the latest first. -/
def idsUpTo : Nat → List UInt32
  | 0 => []
  | n + 1 => UInt32.ofNat (n + 1) :: idsUpTo n

theorem mem_idsUpTo {n : Nat} {x : UInt32} (h : x ∈ idsUpTo n) : ∃ i < n, x = UInt32.ofNat (i + 1) := by
  induction n with
  | zero => exact absurd h List.not_mem_nil
  | succ n ih =>
    rcases List.mem_cons.mp h with rfl | h
    · exact ⟨n, Nat.lt_succ_self n, rfl⟩
    · obtain ⟨i, hi, e⟩ := ih h
      exact ⟨i, Nat.lt_succ_of_lt hi, e⟩

/-- The counter comes round after 2^32 records, not before. -/
theorem idsUpTo_nodup {n : Nat} (h : n ≤ 2 ^ 32) : (idsUpTo n).Nodup := by
  induction n with
  | zero => exact List.nodup_nil
  | succ n ih =>
    refine List.nodup_cons.mpr ⟨?_, ih (by omega)⟩
    intro hm
    obtain ⟨i, hi, e⟩ := mem_idsUpTo hm
    have e : (n + 1) % 2 ^ 32 = (i + 1) % 2 ^ 32 := congrArg UInt32.toNat e
    omega

theorem mem_idsUpTo_of_lt {n i : Nat} (h : i < n) : UInt32.ofNat (i + 1) ∈ idsUpTo n := by
  induction n with
  | zero => exact absurd h (Nat.not_lt_zero i)
  | succ n ih =>
    rcases Nat.lt_succ_iff_lt_or_eq.mp h with h | rfl
    · exact List.mem_cons_of_mem _ (ih h)
    · exact List.mem_cons_self

theorem idsUpTo_repeat {n : Nat} (h : 2 ^ 32 ≤ n) : ¬(idsUpTo (n + 1)).Nodup := by
  rw [idsUpTo, List.nodup_cons]
  intro hnodup
  refine hnodup.1 ?_
  have e : UInt32.ofNat (n + 1) = UInt32.ofNat (n - 2 ^ 32 + 1) := by
    rw [UInt32.ofNat_eq_iff_mod_eq_toNat, UInt32.toNat_ofNat']
    omega
  rw [e]
  exact mem_idsUpTo_of_lt (by omega)

/-- The ids given out so far are the counter's. -/
structure Counted (s : Table) : Prop where
  ids : s.ids = idsUpTo s.ids.length
  next : s.daemon.next_id = UInt32.ofNat (s.ids.length + 1)

theorem Counted.same {s s' : Table} (h : Counted s) (hi : s'.ids = s.ids)
    (hn : s'.daemon.next_id = s.daemon.next_id) : Counted s' :=
  ⟨by rw [hi]; exact h.ids, by rw [hn, hi]; exact h.next⟩

theorem Counted.seed {s : Table} (h : Counted s) (next : List (Bytes × Nat)) (sql : Bytes) (ttl : UInt32)
    (refused : Bool) : Counted (s.seed next sql ttl refused).1 := by
  have hbind : ∀ {t : Table} {p : Nat}, Counted t → Counted (t.bind next sql p refused).1 := by
    intro t p ht
    cases refused <;> exact ht.same rfl rfl
  unfold Table.seed
  dsimp only
  split
  · exact h
  · split
    · exact hbind (h.same rfl rfl)
    · split
      · refine hbind ⟨?_, ?_⟩
        · dsimp only
          rw [List.length_cons, idsUpTo, ← h.ids, h.next]
        · show s.daemon.next_id + 1 = UInt32.ofNat (s.ids.length + 1 + 1)
          rw [h.next, UInt32.ofNat_add (s.ids.length + 1) 1]
          rfl
      · exact h.same rfl rfl

theorem Counted.seedAll (ttl : UInt32) (refuse : Bytes → Bool) (sqls : List Bytes) :
    ∀ {s : Table} {next : List (Bytes × Nat)}, Counted s → Counted (seedAll ttl refuse sqls s next).1 := by
  induction sqls with
  | nil => exact fun h => h
  | cons sql rest ih =>
    intro s next h
    have h1 := h.seed next sql ttl (refuse sql)
    rw [Table.seedAll]
    cases (s.seed next sql ttl (refuse sql)).2 with
    | none => exact h1
    | some next' => exact ih h1

theorem Counted.removeAll (next : List (Bytes × Nat)) (now : UInt64) (l : List (Bytes × Nat)) :
    ∀ {s : Table}, Counted s → Counted (removeAll next now l s) := by
  induction l with
  | nil => exact fun h => h
  | cons e l ih =>
    intro s h
    rw [Table.removeAll]
    split
    · exact ih h
    · refine ih (h.same rfl ?_)
      dsimp only
      unfold remove
      dsimp only
      split
      · exact (retireStmt_rest ..).2
      · rfl

theorem Counted.load {s : Table} (h : Counted s) (ls : List Bytes) (ttl : UInt32) (refuse : Bytes → Bool)
    (now : UInt64) : Counted (s.loadStatements (.lines ls) ttl refuse now).2 := by
  have h1 : Counted (Table.seedAll ttl refuse (loadList ls) s []).1 := h.seedAll ttl refuse (loadList ls)
  unfold loadStatements
  dsimp only
  cases (Table.seedAll ttl refuse (loadList ls) s []).2 with
  | none => exact h1
  | some next => exact (Counted.removeAll next now _ h1).same rfl rfl

/-! ### Runs -/

/-- A load of a list, or anything else the daemon does. -/
inductive Move
  | load (ls : List Bytes) (ttl : UInt32) (refuse : Bytes → Bool) (now : UInt64)
  | serve (e : Event)

def step (s : Table) : Move → Option Table
  | .load ls ttl refuse now => some (s.loadStatements (.lines ls) ttl refuse now).2
  | .serve (.loadStatements ..) => none
  | .serve e => (s.daemon.step e).map fun d => { s with daemon := d }

/-- Loads go through and their texts have no zeros; requests are served on records the daemon has. -/
def Regular (s : Table) : Move → Prop
  | .load ls ttl refuse now =>
    (∀ x ∈ loadList ls, 0 ∉ x) ∧ (s.loadStatements (.lines ls) ttl refuse now).1 = true
  | .serve e => s.daemon.Served e

instance (s : Table) : (m : Move) → Decidable (s.Regular m)
  | .load .. => inferInstanceAs (Decidable (_ ∧ _))
  | .serve e => inferInstanceAs (Decidable (s.daemon.Served e))

structure Inv (s : Table) : Prop where
  kept : ∃ lost last sql, s.daemon.Kept lost last sql
  bound : Bound s
  counted : Counted s

theorem serve_some {s s' : Table} {e : Event} (hs : s.step (.serve e) = some s') :
    (∀ lines ttl refuse now, e ≠ .loadStatements lines ttl refuse now) ∧
      ∃ d', s.daemon.step e = some d' ∧ s' = { s with daemon := d' } := by
  refine ⟨?_, ?_⟩
  · rintro lines ttl refuse now rfl
    cases hs
  · cases e with
    | loadStatements => cases hs
    | _ =>
      simp only [step, Option.map_eq_some_iff] at hs
      obtain ⟨d', hd, e⟩ := hs
      exact ⟨d', hd, e.symm⟩

theorem inv_step {s s' : Table} {m : Move} (h : Inv s) (hr : s.Regular m) (hs : s.step m = some s') : Inv s' := by
  obtain ⟨lost, last, sql, hk⟩ := h.kept
  cases m with
  | load ls ttl refuse now =>
    cases hs
    obtain ⟨hnul, hok⟩ := hr
    obtain ⟨next, lost', sql', -, -, -, hk', -⟩ := load_spec hk hok
    exact ⟨⟨lost', last, sql', hk'⟩, (load_bound hk h.bound hnul hok).1, h.counted.load ls ttl refuse now⟩
  | serve e =>
    obtain ⟨hl, d', hd, rfl⟩ := serve_some hs
    obtain ⟨lost', hk'⟩ := kept_serve hk hl hr hd
    obtain ⟨e1, e2⟩ := serve_frame hl hd
    refine ⟨⟨lost', _, sql, hk'⟩, ⟨?_, ?_⟩, h.counted.same rfl e2⟩
    · dsimp only
      rw [e1]
      exact h.bound.plain
    · dsimp only
      rw [e1]
      exact h.bound.binds

theorem inv_start {mem : Mem} {len : Nat} (hmin : BNCL_CTL_BYTES + MIN_BLOCK < len) (hmax : len < 2 ^ 32) :
    Inv { daemon := Daemon.start mem len } := by
  refine ⟨⟨[], _, _, kept_start hmin hmax⟩, ⟨?_, ?_⟩, ⟨rfl, rfl⟩⟩
  · exact fun e he => absurd he List.not_mem_nil
  · intro key p
    constructor
    · intro hc
      cases hc
    · rintro ⟨t, ht, -⟩
      exact absurd ht List.not_mem_nil

/-- A statement's record is the same before and after, but for the TTL. -/
structure Same (d d' : Daemon) (p : Nat) : Prop where
  id : (d'.recs p).id = (d.recs p).id
  refs : (d'.recs p).refs = (d.recs p).refs
  data : (d'.recs p).data = (d.recs p).data ∧ (d'.recs p).data_len = (d.recs p).data_len ∧
    (d'.recs p).ts = (d.recs p).ts
  bytes : (d.recs p).data ≠ 0 → d'.heap.arena.mem.read (d'.recs p).data (d'.recs p).data_len =
    d.heap.arena.mem.read (d.recs p).data (d.recs p).data_len

/-- The whole of what a load should achieve. -/
structure Listed (s s' : Table) (ls : List Bytes) : Prop where
  texts : s'.daemon.known.map Prod.fst = short (loadList ls)
  binds : ∀ key p, s'.stmts_map key = some p ↔ ∃ sql, (sql, p) ∈ s'.daemon.known ∧ stmtKey sql = key
  reads : ∀ e ∈ s'.daemon.known, s'.daemon.text (s'.daemon.recs e.2) = e.1 ∧
    (s'.daemon.recs e.2).len = e.1.length
  stays : ∀ e ∈ s.daemon.known, e.1 ∈ loadList ls → e ∈ s'.daemon.known ∧ Same s.daemon s'.daemon e.2
  left : ∀ e ∈ s.daemon.known, e.1 ∉ loadList ls → s'.stmts_map (stmtKey e.1) = none
  nodup : (s'.daemon.known.map Prod.fst).Nodup ∧ (s'.daemon.known.map Prod.snd ++ s'.daemon.orphans).Nodup

/-- A statement in both lists keeps its record. -/
theorem load_same {s : Table} {ls : List Bytes} {ttl : UInt32} {refuse : Bytes → Bool} {now : UInt64}
    {lost : List Nat} {last : Nat → Option Bytes} {sql : Nat → Bytes} (h : s.daemon.Kept lost last sql)
    (hok : (s.loadStatements (.lines ls) ttl refuse now).1 = true) {e : Bytes × Nat}
    (he : e ∈ s.daemon.known) (hm : e.1 ∈ short (loadList ls)) :
    e ∈ (s.loadStatements (.lines ls) ttl refuse now).2.daemon.known ∧
      Same s.daemon (s.loadStatements (.lines ls) ttl refuse now).2.daemon e.2 := by
  obtain ⟨next, lost', sql', hn, hs, hknown, hk', hrecs⟩ := load_spec h hok
  obtain ⟨-, hkeys⟩ := load_keys hn
  rw [← hkeys] at hm
  obtain ⟨x, hx, e1⟩ := List.mem_map.mp hm
  have hxk : x ∈ s.daemon.known := hs.old x hx (by rw [e1]; exact List.mem_map_of_mem he)
  obtain rfl : x = e := List.inj_on_of_nodup_map h.keys hxk he e1
  have hstmts : x.2 ∈ s.daemon.stmts := List.mem_append_left _ (List.mem_map_of_mem (f := Prod.snd) he)
  obtain ⟨t, ht⟩ := hs.kept x.2 hstmts
  have hr := (hrecs x hx).trans ht
  refine ⟨by rw [hknown]; exact hx, ?_, ?_, ⟨?_, ?_, ?_⟩, ?_⟩
  · rw [hr]
  · rw [hr]
  · rw [hr]
  · rw [hr]
  · rw [hr]
  · intro h0
    obtain ⟨body, hlast, hlen, hst⟩ := h.sound.payload x.2 h0
    obtain ⟨body', hlast', hlen', hst'⟩ := hk'.sound.payload x.2 (by rw [hr]; exact h0)
    have eb : body' = body := Option.some.inj (hlast'.symm.trans hlast)
    rw [hlen, hlen', hst.read, hst'.read, eb]

theorem load_listed {s : Table} {ls : List Bytes} {ttl : UInt32} {refuse : Bytes → Bool} {now : UInt64}
    (h : Inv s) (hnul : ∀ x ∈ loadList ls, 0 ∉ x)
    (hok : (s.loadStatements (.lines ls) ttl refuse now).1 = true) :
    Listed s (s.loadStatements (.lines ls) ttl refuse now).2 ls := by
  obtain ⟨lost, last, sql, hk⟩ := h.kept
  obtain ⟨next, lost', sql', hn, hs, hknown, hk', hrecs⟩ := load_spec hk hok
  obtain ⟨hb, hkeys⟩ := load_bound hk h.bound hnul hok
  refine ⟨hkeys, hb.binds, fun e he => hk'.text_eq he, ?_, ?_, hk'.keys,
    (List.nodup_append.mp hk'.sound.nodup).1⟩
  · intro e he hm
    exact load_same hk hok he (mem_short.mpr ⟨hm, (h.bound.plain e he).1⟩)
  · intro e he hm
    cases hc : (s.loadStatements (.lines ls) ttl refuse now).2.stmts_map (stmtKey e.1) with
    | none => rfl
    | some p =>
      -- the key would be bound to a statement of the list with the same text
      obtain ⟨t, ht, hkey⟩ := (hb.binds _ p).mp hc
      have e1 : t = e.1 := stmtKey_inj (hb.plain (t, p) ht) (h.bound.plain e he) hkey
      have : t ∈ short (loadList ls) := by
        rw [← hkeys]
        exact List.mem_map_of_mem (f := Prod.fst) ht
      exact absurd (e1 ▸ (mem_short.mp this).1) hm

/-- In every run that starts with an empty map, with any steps of the daemon between the loads as long as
    requests are served on records it has: a load that goes through leaves the map, the records and the two lists as they should be, and no id has
    been given to two records until 2^32 records have been made. -/
theorem loads_listed (mem : Mem) (len : Nat) (hmin : BNCL_CTL_BYTES + MIN_BLOCK < len) (hmax : len < 2 ^ 32)
    (moves : List Move) (s s' : Table) (hrun : run step { daemon := Daemon.start mem len } moves = some s)
    (hregular : Along step Regular { daemon := Daemon.start mem len } moves) (ls : List Bytes) (ttl : UInt32)
    (refuse : Bytes → Bool) (now : UInt64) (hnul : ∀ x ∈ loadList ls, 0 ∉ x)
    (hload : s.loadStatements (.lines ls) ttl refuse now = (true, s')) :
    Listed s s' ls ∧ (s'.ids.length ≤ 2 ^ 32 → s'.ids.Nodup) := by
  have h : Inv s := run_inv_along (I := Inv) (fun _ _ _ h hr hs => inv_step h hr hs) (inv_start hmin hmax)
    hregular hrun
  have hok : (s.loadStatements (.lines ls) ttl refuse now).1 = true := by rw [hload]
  have e : s' = (s.loadStatements (.lines ls) ttl refuse now).2 := by rw [hload]
  refine ⟨by rw [e]; exact load_listed h hnul hok, ?_⟩
  intro hle
  have hc := h.counted.load ls ttl refuse now
  rw [← e] at hc
  rw [hc.ids]
  exact idsUpTo_nodup hle

theorem loads_listed_sample :
    ∃ s, run step { daemon := Daemon.start (fun _ => 0) 600 }
        [.load [[83], [84]] 60 (fun _ => false) 1, .serve (.count 224 2)] = some s ∧
      ∃ s', s.loadStatements (.lines [[84], [85]]) 60 (fun _ => false) 2 = (true, s') ∧
        Listed s s' [[84], [85]] ∧ s'.ids.Nodup := by
  have hrun : (run step { daemon := Daemon.start (fun _ => 0) 600 }
      [.load [[83], [84]] 60 (fun _ => false) 1, .serve (.count 224 2)]).isSome = true := by decide +kernel
  obtain ⟨s, hs⟩ := Option.isSome_iff_exists.mp hrun
  have hok : (run step { daemon := Daemon.start (fun _ => 0) 600 }
      [.load [[83], [84]] 60 (fun _ => false) 1, .serve (.count 224 2)]).map (fun s =>
        ((s.loadStatements (.lines [[84], [85]]) 60 (fun _ => false) 2).1,
          (s.loadStatements (.lines [[84], [85]]) 60 (fun _ => false) 2).2.ids.length)) =
      some (true, 3) := by decide +kernel
  rw [hs, Option.map_some, Option.some.injEq, Prod.mk.injEq] at hok
  obtain ⟨hlisted, hids⟩ := loads_listed (fun _ => 0) 600 (by decide) (by decide) _ s
    (s.loadStatements (.lines [[84], [85]]) 60 (fun _ => false) 2).2 hs (by decide +kernel) [[84], [85]] 60
    (fun _ => false) 2 (by decide) (Prod.ext hok.1 rfl)
  exact ⟨s, hs, _, Prod.ext hok.1 rfl, hlisted, hids (by rw [hok.2]; decide)⟩

/-! ### Ids come round -/

/-- One statement is added, removed and, when the grace period is over, its blocks are free again. -/
def around : List Move :=
  [.load [[83]] 60 (fun _ => false) 0, .load [] 60 (fun _ => false) 0, .serve (.reclaim 5000000000)]

/-- Nothing is known and nothing is allocated. -/
structure Idle (s : Table) : Prop where
  vacant : s.daemon.heap.Vacant 600
  known : s.daemon.known = []

/-- The list empties: the one statement there is, with no payload and no reference but the list's, is
    retired. -/
theorem load_empty {s : Table} {p txt : Nat} {sql : Bytes} (hknown : s.daemon.known = [(sql, p)])
    (hrec : s.daemon.recs p = { s.daemon.recs p with refs := 1, data := 0, txt := txt }) (h0 : txt ≠ 0)
    (ttl : UInt32) (refuse : Bytes → Bool) (now : UInt64) :
    (s.loadStatements (.lines []) ttl refuse now).1 = true ∧
      (s.loadStatements (.lines []) ttl refuse now).2.daemon.heap = (s.daemon.heap.retire txt now).retire p now ∧
      (s.loadStatements (.lines []) ttl refuse now).2.daemon.known = [] ∧
      (s.loadStatements (.lines []) ttl refuse now).2.ids = s.ids := by
  have hlist : loadList [] = [] := rfl
  rw [loadStatements, hlist, seedAll]
  dsimp only
  rw [hknown, removeAll, if_neg (by simp), removeAll]
  refine ⟨rfl, ?_, rfl, rfl⟩
  dsimp only
  rw [remove, hrec]
  simp [retireStmt, setRec, h0]

theorem around_idle {s : Table} (h : Idle s) :
    ∃ s', run step s around = some s' ∧ Along step Regular s around ∧ Idle s' ∧
      s'.ids.length = s.ids.length + 1 := by
  have hdue : due (5000000000 : UInt64).toNat (0 : UInt64).toNat = true := by decide
  obtain ⟨txt, p, e1, e2, h0, hv⟩ := h.vacant.cycle (n := STMT_BYTES) (List.cons_ne_nil 83 [0]) (by decide)
    (by decide) (by decide) (by decide) hdue
  have hlist : loadList [[83]] = [[83]] := by decide
  have l1 : s.loadStatements (.lines [[83]]) 60 (fun _ => false) 0 = (true,
      { daemon := { s.daemon.setRec p { txt := txt, len := 1, id := s.daemon.next_id, ttl := 60, refs := 1 } with
          heap := ((s.daemon.heap.put [83, 0]).2.alloc STMT_BYTES).2, next_id := s.daemon.next_id + 1,
          known := [([83], p)] }
        stmts_map := Function.update s.stmts_map (stmtKey [83]) (some p)
        ids := s.daemon.next_id :: s.ids }) := by
    simp [loadStatements, hlist, seedAll, seed, bind, h.known, e1, e2, removeAll, setRec, BNCL_STMT_MAX]
  obtain ⟨s₁, hs₁⟩ : ∃ s₁, s₁ = (s.loadStatements (.lines [[83]]) 60 (fun _ => false) 0).2 := ⟨_, rfl⟩
  have hrec : s₁.daemon.recs p = { s₁.daemon.recs p with refs := 1, data := 0, txt := txt } := by
    rw [hs₁, l1]
    simp [setRec]
  have hheap : s₁.daemon.heap = ((s.daemon.heap.put [83, 0]).2.alloc STMT_BYTES).2 := by rw [hs₁, l1]
  have hids : s₁.ids = s.daemon.next_id :: s.ids := by rw [hs₁, l1]
  have hknown : s₁.daemon.known = [([83], p)] := by rw [hs₁, l1]
  obtain ⟨hok, hheap₂, hknown₂, hids₂⟩ := load_empty hknown hrec h0 60 (fun _ => false) 0
  obtain ⟨s₂, hs₂⟩ : ∃ s₂, s₂ = (s₁.loadStatements (.lines []) 60 (fun _ => false) 0).2 := ⟨_, rfl⟩
  rw [← hs₂] at hheap₂ hknown₂ hids₂
  have r1 : s.step (.load [[83]] 60 (fun _ => false) 0) = some s₁ := by rw [step, hs₁]
  have r2 : s₁.step (.load [] 60 (fun _ => false) 0) = some s₂ := by rw [step, hs₂]
  have r3 : s₂.step (.serve (.reclaim 5000000000)) =
      some { s₂ with daemon := { s₂.daemon with heap := s₂.daemon.heap.reclaim 5000000000 } } := rfl
  refine ⟨{ s₂ with daemon := { s₂.daemon with heap := s₂.daemon.heap.reclaim 5000000000 } }, ?_, ?_,
    ⟨?_, ?_⟩, ?_⟩
  · rw [around, run, r1, Option.bind_some, run, r2, Option.bind_some, run, r3, Option.bind_some, run]
  · refine ⟨⟨by rw [hlist]; decide, by rw [l1]⟩, ?_⟩
    intro t ht
    obtain rfl : s₁ = t := Option.some.inj (r1.symm.trans ht)
    refine ⟨⟨fun x hx => absurd hx List.not_mem_nil, hok⟩, ?_⟩
    intro t ht
    obtain rfl : s₂ = t := Option.some.inj (r2.symm.trans ht)
    exact ⟨trivial, fun _ _ => trivial⟩
  · dsimp only
    rw [hheap₂, hheap]
    exact hv
  · exact hknown₂
  · dsimp only
    rw [hids₂, hids, List.length_cons]

/-- The same `n` times over. -/
theorem arounds_idle (n : Nat) : ∀ {s : Table}, Idle s →
    ∃ moves s', run step s moves = some s' ∧ Along step Regular s moves ∧ s'.ids.length = s.ids.length + n := by
  induction n with
  | zero => exact fun {s} _ => ⟨[], s, rfl, trivial, rfl⟩
  | succ n ih =>
    intro s h
    obtain ⟨s₁, hr, ha, h1, hlen⟩ := around_idle h
    obtain ⟨moves, s', hr', ha', hlen'⟩ := ih h1
    refine ⟨around ++ moves, s', ?_, ha.append hr ha', ?_⟩
    · rw [run_append hr]
      exact hr'
    · rw [hlen', hlen]
      omega

/-- The 2^32 + 1st record gets the id the first had. -/
theorem ids_repeat : ∃ moves s, run step { daemon := Daemon.start (fun _ => 0) 600 } moves = some s ∧
    Along step Regular { daemon := Daemon.start (fun _ => 0) 600 } moves ∧ ¬s.ids.Nodup := by
  have hmin : BNCL_CTL_BYTES + MIN_BLOCK < 600 := by decide
  have hmax : 600 < 2 ^ 32 := by decide
  have hvacant : (Daemon.start (fun _ => 0) 600).heap.Vacant 600 :=
    World.vacant_init (fun _ => 0) hmin hmax
  have hidle : Idle { daemon := Daemon.start (fun _ => 0) 600 } := ⟨hvacant, rfl⟩
  obtain ⟨moves, s, hr, ha, hlen⟩ := arounds_idle (2 ^ 32 + 1) hidle
  refine ⟨moves, s, hr, ha, ?_⟩
  have h : Inv s := run_inv_along (I := Inv) (fun _ _ _ h hr hs => inv_step h hr hs)
    (inv_start hmin hmax) ha hr
  have hlen : s.ids.length = 2 ^ 32 + 1 := hlen.trans (Nat.zero_add _)
  rw [h.counted.ids, hlen]
  exact idsUpTo_repeat (Nat.le_refl _)

end Barnacle.Daemon.Table
