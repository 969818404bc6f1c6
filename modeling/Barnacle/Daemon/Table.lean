import Barnacle.Daemon.Payloads

/-! `stmts_map` beside the daemon that fills it (`loadStatements`, `start` and the RELOAD command in
    `src/daemon/main.cpp`). A key is the statement's text padded with zeros. The map is pinned by
    name, so a daemon that starts finds in it whatever an earlier one left.

    A load publishes one statement after another, and gives up at the first that fails: what it has
    done by then stays done. -/

namespace Barnacle.Daemon
open Barnacle.Lib Barnacle.Arena

/-- `memcpy(key.text, sql.data(), sql.size())` into a zeroed `struct stmt_key`. -/
def stmtKey (sql : Bytes) : Bytes := sql ++ List.replicate (BNCL_STMT_MAX - sql.length) 0

structure Table where
  daemon : Daemon
  stmts_map : Bytes → Option Nat := fun _ => none
  /-- the ids given to records so far, the latest first -/
  ids : List UInt32 := []

namespace Table

/-- `bpf_map_update_elem(stmts_map)` and `next[sql] = rec`. -/
def bind (s : Table) (next : List (Bytes × Nat)) (sql : Bytes) (p : Nat) (refused : Bool) :
    Table × Option (List (Bytes × Nat)) :=
  if refused then (s, none)
  else ({ s with stmts_map := Function.update s.stmts_map (stmtKey sql) (some p) }, some (next ++ [(sql, p)]))

/-- One statement of the list, with its map entry. -/
def seed (s : Table) (next : List (Bytes × Nat)) (sql : Bytes) (ttl : UInt32) (refused : Bool) :
    Table × Option (List (Bytes × Nat)) :=
  let d := s.daemon
  if sql.length > BNCL_STMT_MAX - 1 then (s, some next)
  else
    match d.known.lookup sql with
    | some p => bind { s with daemon := d.setRec p { d.recs p with ttl := ttl } } next sql p refused
    | none =>
      let t := d.heap.put (sql ++ [0])
      let r := t.2.alloc STMT_BYTES
      match t.1, r.1 with
      | some txt, some p =>
        bind { s with
          daemon := { d with heap := r.2, next_id := d.next_id + 1 }.setRec p
            { txt := txt, len := sql.length, id := d.next_id, ttl := ttl, refs := 1 }
          ids := d.next_id :: s.ids } next sql p refused
      | _, _ => ({ s with daemon := { d with heap := r.2 } }, none)

def seedAll (ttl : UInt32) (refuse : Bytes → Bool) :
    List Bytes → Table → List (Bytes × Nat) → Table × Option (List (Bytes × Nat))
  | [], s, next => (s, some next)
  | sql :: rest, s, next =>
    let r := s.seed next sql ttl (refuse sql)
    match r.2 with
    | none => (r.1, none)
    | some next => seedAll ttl refuse rest r.1 next

/-- The statements that left the list, in the order `known` is walked in: of each the key goes first, then
    the list's reference. -/
def removeAll (next : List (Bytes × Nat)) (now : UInt64) : List (Bytes × Nat) → Table → Table
  | [], s => s
  | (sql, p) :: rest, s =>
    if sql ∈ next.map Prod.fst then removeAll next now rest s
    else removeAll next now rest { s with
      stmts_map := Function.update s.stmts_map (stmtKey sql) none
      daemon := s.daemon.remove p now }

/-- The file `opt.stmt_list` names: no name is given, the file cannot be opened, or it has lines. -/
inductive ListFile
  | none
  | unreadable
  | lines (ls : List Bytes)

/-- `loadStatements`, with what it returns. -/
def loadStatements (s : Table) (file : ListFile) (ttl : UInt32) (refuse : Bytes → Bool) (now : UInt64) :
    Bool × Table :=
  match file with
  | .none => (true, s)
  | .unreadable => (false, s)
  | .lines ls =>
    let r := seedAll ttl refuse (loadList ls) s []
    match r.2 with
    | none => (false, r.1)
    | some next =>
      let t := removeAll next now r.1.daemon.known r.1
      (true, { t with daemon := { t.daemon with known := next } })

/-! ### The daemon's part -/

theorem seed_daemon (s : Table) (next : List (Bytes × Nat)) (sql : Bytes) (ttl : UInt32) (refused : Bool) :
    (s.seed next sql ttl refused).1.daemon = (s.daemon.seed next sql ttl refused).1 ∧
      (s.seed next sql ttl refused).2 = (s.daemon.seed next sql ttl refused).2 := by
  unfold seed Daemon.seed
  dsimp only
  by_cases hl : sql.length > BNCL_STMT_MAX - 1
  · simp only [if_pos hl, and_self]
  simp only [if_neg hl]
  cases s.daemon.known.lookup sql with
  | some p => cases refused <;> exact ⟨rfl, rfl⟩
  | none =>
    generalize s.daemon.heap.put (sql ++ [0]) = t
    generalize t.2.alloc STMT_BYTES = r
    obtain ⟨_ | txt, w⟩ := t
    · exact ⟨rfl, rfl⟩
    · obtain ⟨_ | p, w'⟩ := r
      · exact ⟨rfl, rfl⟩
      · cases refused <;> exact ⟨rfl, rfl⟩

theorem seedAll_daemon (ttl : UInt32) (refuse : Bytes → Bool) (sqls : List Bytes) :
    ∀ (s : Table) (next : List (Bytes × Nat)),
      (seedAll ttl refuse sqls s next).1.daemon = (Daemon.seedAll ttl refuse sqls s.daemon next).1 ∧
        (seedAll ttl refuse sqls s next).2 = (Daemon.seedAll ttl refuse sqls s.daemon next).2 := by
  induction sqls with
  | nil => exact fun s next => ⟨rfl, rfl⟩
  | cons sql rest ih =>
    intro s next
    obtain ⟨e1, e2⟩ := seed_daemon s next sql ttl (refuse sql)
    rw [seedAll, Daemon.seedAll, e2]
    cases (s.daemon.seed next sql ttl (refuse sql)).2 with
    | none => exact ⟨e1, rfl⟩
    | some next' =>
      rw [← e1]
      exact ih _ next'

theorem removeAll_daemon (next : List (Bytes × Nat)) (now : UInt64) (l : List (Bytes × Nat)) :
    ∀ s : Table, (removeAll next now l s).daemon = Daemon.removeAll next now l s.daemon := by
  induction l with
  | nil => exact fun s => rfl
  | cons e l ih =>
    intro s
    rw [removeAll, Daemon.removeAll]
    split
    · exact ih s
    · exact ih _

/-- Without the map it is the `loadStatements` of the daemon. -/
theorem loadStatements_daemon (s : Table) (ls : List Bytes) (ttl : UInt32) (refuse : Bytes → Bool)
    (now : UInt64) :
    (s.loadStatements (.lines ls) ttl refuse now).2.daemon = s.daemon.loadStatements ls ttl refuse now := by
  obtain ⟨e1, e2⟩ := seedAll_daemon ttl refuse (loadList ls) s []
  unfold loadStatements Daemon.loadStatements
  dsimp only
  rw [e2]
  cases (Daemon.seedAll ttl refuse (loadList ls) s.daemon []).2 with
  | none => exact e1
  | some next =>
    dsimp only
    rw [removeAll_daemon, e1]

/-! ### The map -/

/-- The statements that are short enough to have a key. -/
def short (sqls : List Bytes) : List Bytes := sqls.filter fun sql => sql.length ≤ BNCL_STMT_MAX - 1

/-- Over what was in the map, `next` has been bound. -/
def Maps (m m' : Bytes → Option Nat) (next : List (Bytes × Nat)) : Prop :=
  ∀ key, (∃ e ∈ next, stmtKey e.1 = key ∧ m' key = some e.2) ∨
    (∀ e ∈ next, stmtKey e.1 ≠ key) ∧ m' key = m key

theorem Maps.bind {m m' : Bytes → Option Nat} {next : List (Bytes × Nat)} (h : Maps m m' next) (sql : Bytes)
    (p : Nat) : Maps m (Function.update m' (stmtKey sql) (some p)) (next ++ [(sql, p)]) := by
  intro key
  by_cases e : key = stmtKey sql
  · left
    exact ⟨(sql, p), by simp, e.symm, by rw [e, Function.update_self]⟩
  · rw [Function.update_of_ne e]
    refine (h key).imp ?_ ?_
    · rintro ⟨x, hx, e1, e2⟩
      exact ⟨x, List.mem_append_left _ hx, e1, e2⟩
    · rintro ⟨hx, e2⟩
      refine ⟨?_, e2⟩
      intro x hm
      rcases List.mem_append.mp hm with hm | hm
      · exact hx x hm
      · rw [List.mem_singleton.mp hm]
        exact fun hc => e hc.symm

/-- A statement that goes through is bound, and those before it stay bound. -/
theorem seed_maps {m : Bytes → Option Nat} {s : Table} {next next' : List (Bytes × Nat)} {sql : Bytes}
    {ttl : UInt32} {refused : Bool} (h : Maps m s.stmts_map next)
    (hn : (s.seed next sql ttl refused).2 = some next') :
    Maps m (s.seed next sql ttl refused).1.stmts_map next' ∧
      next'.map Prod.fst = next.map Prod.fst ++ short [sql] := by
  have hbind : ∀ {t : Table} {p : Nat}, t.stmts_map = s.stmts_map → ¬ sql.length > BNCL_STMT_MAX - 1 →
      (t.bind next sql p refused).2 = some next' →
      Maps m (t.bind next sql p refused).1.stmts_map next' ∧
        next'.map Prod.fst = next.map Prod.fst ++ short [sql] := by
    intro t p ht hshort hb
    cases refused with
    | true => cases hb
    | false =>
      cases hb
      refine ⟨?_, ?_⟩
      · have := h.bind sql p
        rw [← ht] at this
        exact this
      · rw [short, List.filter_cons_of_pos (by simpa using Nat.le_of_not_lt hshort), List.map_append]
        rfl
  unfold seed at hn ⊢
  dsimp only at hn ⊢
  by_cases hlong : sql.length > BNCL_STMT_MAX - 1
  · simp only [if_pos hlong] at hn ⊢
    cases hn
    refine ⟨h, ?_⟩
    rw [short, List.filter_cons_of_neg (by simpa using hlong)]
    simp
  simp only [if_neg hlong] at hn ⊢
  cases hk : s.daemon.known.lookup sql with
  | some p =>
    simp only [hk] at hn ⊢
    exact hbind rfl hlong hn
  | none =>
    simp only [hk] at hn ⊢
    generalize s.daemon.heap.put (sql ++ [0]) = x at hn
    generalize x.2.alloc STMT_BYTES = y at hn
    obtain ⟨_ | txt, w⟩ := x
    · cases hn
    · obtain ⟨_ | p, w'⟩ := y
      · cases hn
      · exact hbind rfl hlong hn

theorem seedAll_maps {m : Bytes → Option Nat} (ttl : UInt32) (refuse : Bytes → Bool) (sqls : List Bytes) :
    ∀ {s : Table} {next next' : List (Bytes × Nat)}, Maps m s.stmts_map next →
      (seedAll ttl refuse sqls s next).2 = some next' →
      Maps m (seedAll ttl refuse sqls s next).1.stmts_map next' ∧
        next'.map Prod.fst = next.map Prod.fst ++ short sqls := by
  induction sqls with
  | nil =>
    intro s next next' h hn
    cases hn
    exact ⟨h, by simp [short]⟩
  | cons sql rest ih =>
    intro s next next' h hn
    rw [seedAll] at hn ⊢
    cases hr : (s.seed next sql ttl (refuse sql)).2 with
    | none =>
      simp only [hr] at hn
      cases hn
    | some mid =>
      simp only [hr] at hn ⊢
      obtain ⟨h1, e1⟩ := seed_maps h hr
      obtain ⟨h2, e2⟩ := ih h1 hn
      refine ⟨h2, ?_⟩
      rw [e2, e1, List.append_assoc, short, short, short, ← List.filter_append]
      rfl

/-- Every key a load deletes is the key of a known statement that left the list. -/
theorem removeAll_map (next : List (Bytes × Nat)) (now : UInt64) (l : List (Bytes × Nat)) :
    ∀ (s : Table) (key : Bytes),
      (removeAll next now l s).stmts_map key =
        if ∃ e ∈ l, e.1 ∉ next.map Prod.fst ∧ stmtKey e.1 = key then none else s.stmts_map key := by
  induction l with
  | nil => simp [removeAll]
  | cons e l ih =>
    obtain ⟨sql, p⟩ := e
    intro s key
    rw [removeAll]
    by_cases hm : sql ∈ next.map Prod.fst
    · rw [if_pos hm, ih]
      refine if_congr ?_ rfl rfl
      simp only [List.mem_cons, exists_eq_or_imp, hm, not_true_eq_false, false_and, false_or]
    · rw [if_neg hm, ih]
      dsimp only
      by_cases hk : stmtKey sql = key
      · have hd : ∃ e ∈ (sql, p) :: l, e.1 ∉ next.map Prod.fst ∧ stmtKey e.1 = key :=
          ⟨(sql, p), List.mem_cons_self, hm, hk⟩
        rw [if_pos hd, hk, Function.update_self]
        simp
      · rw [Function.update_of_ne (Ne.symm hk)]
        refine if_congr ?_ rfl rfl
        simp only [List.mem_cons, exists_eq_or_imp, hk, and_false, false_or]

end Table

end Barnacle.Daemon
