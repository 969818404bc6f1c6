import Barnacle.Daemon.Hosts
import Barnacle.Daemon.Listing
import Barnacle.Lib.Simulation

/-! The daemon as a cache (`loadStatements`, `store`, `serve` and `collectOrphans` in
    `src/daemon/main.cpp`), seen without arena, records and pointers: for each statement of the list a
    TTL, at most one body, and when the body came.

    A load keeps what there is for the statements that stay. A LOOKUP is answered from the body that is
    there while it is young, then from Valkey, and its answer is what is there afterwards. Whatever the
    daemon does beside that, to its heap, its orphans and its counts, does not show. -/

namespace Barnacle.Daemon
open Barnacle.Lib Barnacle.Arena
open Barnacle.Pipes (Status BNCL_STORE_MAX)
open Barnacle.Pipes.Sys (storable)
open Table (short)

/-! ### The cache -/

/-- What there is for a statement. -/
structure Item where
  ttl : UInt32
  ts : UInt64 := 0
  body : Option Bytes := none
deriving DecidableEq

def Item.young (it : Item) (now : UInt64) : Bool :=
  it.ttl = 0 || it.ts ≠ 0 && decide ((now - it.ts).toNat ≤ span it.ttl)

/-- A LOOKUP: the answer, and what there is afterwards. `room` says whether the arena has room for what
    Valkey has. -/
def Item.answer (it : Item) (sql : Bytes) (env : Env) (room : Bool) : Status × Item :=
  if env.local_on && it.body.isSome && it.young env.now then (.AGENT_OK, it)
  else
    match env.valkey with
    | none => (.AGENT_CACHE_ERROR, it)
    | some v =>
      match (v.get (valkeyKey sql)).filter (!·.isEmpty) with
      | some body => if room then (.AGENT_OK, ⟨env.ttl, env.now, some body⟩) else (.AGENT_CACHE_ERROR, it)
      | none => (.AGENT_WRITE_THROUGH, ⟨it.ttl, 0, none⟩)

/-- A STORE. -/
def Item.store (it : Item) (body : Bytes) (env : Env) (room : Bool) : Item :=
  if body ≠ [] ∧ body.length ≤ BNCL_STORE_MAX ∧ storable body ∧ room then ⟨env.ttl, env.now, some body⟩ else it

/-- An item for each statement of the list. -/
abbrev Cache := Bytes → Option Item

namespace Cache

inductive Op
  /-- a load that goes through -/
  | load (sqls : List Bytes) (ttl : UInt32)
  /-- a load that fails, and the statements it has gone through by then -/
  | giveUp (sqls : List Bytes) (ttl : UInt32)
  | lookup (sql : Bytes) (env : Env) (room : Bool)
  | store (sql body : Bytes) (env : Env) (room : Bool)

def next (c : Cache) : Op → Cache
  | .load sqls ttl => fun sql => if sql ∈ sqls then some { (c sql).getD ⟨ttl, 0, none⟩ with ttl := ttl } else none
  | .giveUp sqls ttl => fun sql => (c sql).map fun it => if sql ∈ sqls then { it with ttl := ttl } else it
  | .lookup sql env room => Function.update c sql ((c sql).map fun it => (it.answer sql env room).2)
  | .store sql body env room => Function.update c sql ((c sql).map fun it => it.store body env room)

def reply (c : Cache) : Op → Option Status
  | .lookup sql env room => (c sql).map fun it => (it.answer sql env room).1
  | .load .. | .giveUp .. | .store .. => none

/-- An operation and what is replied to it, which has to be what the cache replies. -/
def step (c : Cache) (o : Op × Option Status) : Option Cache := if o.2 = c.reply o.1 then some (c.next o.1) else none

end Cache

/-! ### What shows of the daemon -/

def item (d : Daemon) (p : Nat) : Item :=
  let st := d.recs p
  ⟨st.ttl, st.ts, if st.data = 0 then none else some (d.heap.arena.mem.read st.data st.data_len)⟩

def cache (d : Daemon) : Cache := fun sql => (d.known.lookup sql).map d.item

/-- The statement a record is listed for. -/
def statementOf (d : Daemon) (p : Nat) : Option Bytes := (d.known.find? fun e => e.2 == p).map Prod.fst

/-- The arena has room for the body a request brings. -/
def room (d : Daemon) (e : Event) : Bool :=
  (d.brought e).all fun (p, body, env) => (keep d.heap (d.recs p) body env.kept).1.isSome

/-- The statements a load goes through, the last of them the one it fails at. -/
def reached (ttl : UInt32) (refuse : Bytes → Bool) : List Bytes → Daemon → List (Bytes × Nat) → List Bytes
  | [], _, _ => []
  | sql :: rest, d, next =>
    let r := d.seed next sql ttl (refuse sql)
    sql :: r.2.elim [] fun next => reached ttl refuse rest r.1 next

/-- What an event is for the cache, with the status the daemon replies. -/
def op (d : Daemon) : Event → Option (Cache.Op × Option Status)
  | .loadStatements lines ttl refuse _ =>
    if (seedAll ttl refuse (loadList lines) d []).2.isSome then some (.load (short (loadList lines)) ttl, none)
    else some (.giveUp (short (reached ttl refuse (loadList lines) d [])) ttl, none)
  | .serveLookup key env =>
    if env.spliced then
      (d.statementOf (d.pipes key)).map fun sql =>
        (.lookup sql env (d.room (.serveLookup key env)), (d.serveLookup key env).1.map Prod.fst)
    else none
  | .serveStore key body env =>
    (d.statementOf (d.pipes key)).map fun sql => (.store sql body env (d.room (.serveStore key body env)), none)
  | .collectOrphans _ | .reclaim _ | .count .. | .point .. => none

section View
variable {d d' : Daemon} {lost : List Nat} {last : Nat → Option Bytes} {sql : Nat → Bytes} {s : Bytes} {p : Nat}

theorem Kept.item_eq (h : d.Kept lost last sql) (p : Nat) :
    d.item p = ⟨(d.recs p).ttl, (d.recs p).ts, if (d.recs p).data = 0 then none else last p⟩ := by
  by_cases h0 : (d.recs p).data = 0
  · simp only [item, h0, if_true]
  · obtain ⟨body, hlast, hlen, hst⟩ := h.sound.payload p h0
    simp only [item, h0, if_false, hlast, hlen]
    rw [hst.read]

/-- The record's fields that show, and what is last for it, are the same. -/
theorem Kept.item_congr (h : d.Kept lost last sql) {lost' : List Nat} {last' : Nat → Option Bytes}
    {sql' : Nat → Bytes} (h' : d'.Kept lost' last' sql') (hr : d'.recs p = d.recs p) (hl : last' p = last p) :
    d'.item p = d.item p := by
  rw [h.item_eq, h'.item_eq, hr, hl]

theorem lookup_none_iff {l : List (Bytes × Nat)} : l.lookup s = none ↔ s ∉ l.map Prod.fst := by
  rw [List.lookup_eq_none_iff, List.mem_map]
  constructor
  · rintro h ⟨e, he, rfl⟩
    simpa using h e he
  · intro h e he
    rw [bne_iff_ne]
    exact fun hs => h ⟨e, he, hs.symm⟩

theorem Kept.lookup_iff (h : d.Kept lost last sql) : d.known.lookup s = some p ↔ (s, p) ∈ d.known := by
  refine ⟨mem_of_lookup, fun hm => ?_⟩
  cases hl : d.known.lookup s with
  | none => exact absurd (List.mem_map_of_mem hm) (lookup_none_iff.mp hl)
  | some q =>
    have hq : (s, q) ∈ d.known := mem_of_lookup hl
    have e : ((s, q) : Bytes × Nat) = (s, p) := List.inj_on_of_nodup_map h.keys hq hm rfl
    exact congrArg some (Prod.mk.inj e).2

/-- No two statements have one record. -/
theorem Kept.same_statement (h : d.Kept lost last sql) {e e' : Bytes × Nat} (he : e ∈ d.known) (he' : e' ∈ d.known)
    (hp : e.2 = e'.2) : e.1 = e'.1 := by
  rw [← (h.named e he).1, ← (h.named e' he').1, hp]

theorem Kept.statementOf_iff (h : d.Kept lost last sql) : d.statementOf p = some s ↔ (s, p) ∈ d.known := by
  rw [statementOf, Option.map_eq_some_iff]
  constructor
  · rintro ⟨⟨t, q⟩, hf, rfl⟩
    have hq : q = p := by simpa using List.find?_some hf
    exact hq ▸ List.mem_of_find?_eq_some hf
  · intro hm
    cases hf : d.known.find? fun e => e.2 == p with
    | none =>
      have := List.find?_eq_none.mp hf _ hm
      simp at this
    | some e =>
      have hq : e.2 = p := by simpa using List.find?_some hf
      exact ⟨e, rfl, h.same_statement (List.mem_of_find?_eq_some hf) hm hq⟩

/-- A record that is listed is not at the null pointer. -/
theorem Kept.ne_zero (h : d.Kept lost last sql) (hm : (s, p) ∈ d.known) : p ≠ 0 := by
  have hp : p ∈ d.stmts ++ lost :=
    List.mem_append_left _ (List.mem_append_left _ (List.mem_map_of_mem (f := Prod.snd) hm))
  obtain ⟨bs, fl, rl, hv⟩ := h.sound.owns.valid
  obtain ⟨b, -, -, -, e⟩ := hv.block (h.sound.owns.perm.mem_iff.mpr (mem_blocksOf hp))
  rw [e, HDR]
  omega

theorem cache_congr (hk : d'.known = d.known) (hi : ∀ e ∈ d.known, d'.item e.2 = d.item e.2) :
    d'.cache = d.cache := by
  funext s
  rw [cache, cache, hk]
  cases hl : d.known.lookup s with
  | none => rfl
  | some p => exact congrArg some (hi (s, p) (mem_of_lookup hl))

/-- One statement's record changes. -/
theorem Kept.cache_update (h : d.Kept lost last sql) (hk : d'.known = d.known) (hm : (s, p) ∈ d.known)
    (hi : ∀ e ∈ d.known, e.2 ≠ p → d'.item e.2 = d.item e.2) :
    d'.cache = Function.update d.cache s (some (d'.item p)) := by
  funext t
  by_cases ht : t = s
  · rw [ht, Function.update_self, cache, hk, h.lookup_iff.mpr hm]
    rfl
  · rw [Function.update_of_ne ht, cache, cache, hk]
    cases hl : d.known.lookup t with
    | none => rfl
    | some q =>
      refine congrArg some (hi (t, q) (mem_of_lookup hl) ?_)
      exact fun hq => ht (h.same_statement (mem_of_lookup hl) hm hq)

theorem Kept.cache_eq (h : d.Kept lost last sql) (hm : (s, p) ∈ d.known) : d.cache s = some (d.item p) := by
  rw [cache, h.lookup_iff.mpr hm]
  rfl

end View

/-! ### Requests -/

section Requests
variable {d d' : Daemon} {lost : List Nat} {last : Nat → Option Bytes} {sql : Nat → Bytes} {s body : Bytes}
  {p key : Nat} {env : Env}

theorem young_iff (st : Stmt) (body : Option Bytes) (now : UInt64) :
    Item.young ⟨st.ttl, st.ts, body⟩ now = !expired st now := by
  have hex := expired_iff st now
  by_cases httl : st.ttl = 0
  · have : expired st now = false := by
      by_contra hc
      exact (hex.mp (by simpa using hc)).1 httl
    simp [Item.young, httl, this]
  by_cases hts : st.ts = 0
  · simp [Item.young, httl, hts, hex.mpr ⟨httl, .inl hts⟩]
  by_cases hage : span st.ttl < (now - st.ts).toNat
  · simp [Item.young, httl, hex.mpr ⟨httl, .inr hage⟩, hage]
  · have : expired st now = false := by
      by_contra hc
      exact (hex.mp (by simpa using hc)).2.elim hts hage
    simp [Item.young, httl, hts, this, Nat.le_of_not_lt hage]

theorem hit_iff (hlocal : (d.recs p).state = .STMT_S_LOCAL) (env : Env) :
    hit (d.recs p) env = (env.local_on && (d.item p).body.isSome && (d.item p).young env.now) := by
  rw [hit, item, young_iff, hlocal]
  by_cases h0 : (d.recs p).data = 0
  · simp [h0]
  · simp [h0]

/-- A body that is brought to a listed record: it becomes what there is, or the arena has no room. -/
theorem Kept.install_item (h : d.Kept lost last sql) (hm : (s, p) ∈ d.known) (hlen : body.length < 2 ^ 63) (env : Env) :
    (keep d.heap (d.recs p) body env.kept).1 = none ∧ d.install p body env = d ∨
      (keep d.heap (d.recs p) body env.kept).1.isSome ∧
        (d.install p body env).item p = ⟨env.ttl, env.now, some body⟩ ∧
        ∀ e ∈ d.known, e.2 ≠ p → (d.install p body env).item e.2 = d.item e.2 := by
  have hp : p ∈ d.stmts := List.mem_append_left _ (List.mem_map_of_mem (f := Prod.snd) hm)
  rcases install_kept h hp hlen env with hfull | ⟨hroom, h'⟩
  · exact .inl hfull
  right
  refine ⟨hroom, ?_⟩
  rcases h.sound.publish (List.mem_append_left lost hp) hlen env.kept with he | ⟨x, he, hx0, -⟩
  · rw [he] at hroom
    cases hroom
  have hi : (d.install p body env).recs =
      Function.update d.recs p ((d.recs p).publish x body.length env.ttl env.now) := by
    unfold install
    dsimp only
    rw [he]
    rfl
  refine ⟨?_, fun e _ hne => ?_⟩
  · rw [h'.item_eq, hi, Function.update_self, Function.update_self]
    simp [Stmt.publish, hx0]
  · refine h.item_congr h' ?_ (Function.update_of_ne hne ..)
    rw [hi, Function.update_of_ne hne]

/-- A LOOKUP for a listed statement is answered as the cache answers, and leaves what the cache leaves. -/
theorem Kept.lookup_item (h : d.Kept lost last sql) (hlocal : (d.recs p).state = .STMT_S_LOCAL)
    (hm : (s, p) ∈ d.known) (hne : s ≠ []) (hkey : d.pipes key = p) (hspliced : env.spliced = true) :
    (d.serveLookup key env).1.map Prod.fst =
        some ((d.item p).answer s env (d.room (.serveLookup key env))).1 ∧
      (d.serveLookup key env).2.known = d.known ∧
      (d.serveLookup key env).2.item p = ((d.item p).answer s env (d.room (.serveLookup key env))).2 ∧
      ∀ e ∈ d.known, e.2 ≠ p → (d.serveLookup key env).2.item e.2 = d.item e.2 := by
  have h0 : p ≠ 0 := h.ne_zero hm
  obtain ⟨htext, -⟩ := h.text_eq hm
  have hfetch : ∀ v : Valkey, d.fetch (d.recs p) v = (v.get (valkeyKey s)).filter (!·.isEmpty) := by
    intro v
    rw [fetch, htext, if_neg hne]
  rw [Item.answer, ← hit_iff hlocal env]
  unfold serveLookup
  dsimp only
  rw [hkey, if_neg (by simp [hspliced]), if_neg h0]
  by_cases hhit : hit (d.recs p) env = true
  · rw [if_pos hhit, if_pos hhit]
    exact ⟨rfl, rfl, rfl, fun _ _ _ => rfl⟩
  rw [if_neg hhit, if_neg hhit]
  cases hv : env.valkey with
  | none => exact ⟨rfl, rfl, rfl, fun _ _ _ => rfl⟩
  | some v =>
    dsimp only
    rw [hfetch v]
    cases hf : (v.get (valkeyKey s)).filter (!·.isEmpty) with
    | none =>
      refine ⟨rfl, rfl, ?_, fun e _ hep => ?_⟩
      · simp [item, setRec_self]
      · simp only [item, setRec_of_ne d hep]
        rfl
    | some payload =>
      have hlen : payload.length < 2 ^ 63 := fetch_length ((hfetch v).trans hf)
      have hb : d.brought (.serveLookup key env) = some (p, payload, env) := by
        unfold brought
        dsimp only
        rw [hkey, if_neg (by simp [hspliced, h0, hhit]), hv, Option.bind_some, hfetch v, hf]
        rfl
      have hroom : d.room (.serveLookup key env) = (keep d.heap (d.recs p) payload env.kept).1.isSome := by
        rw [room, hb]
        rfl
      rw [hroom]
      have hinstall := h.install_item hm hlen env
      have hframe := install_frame d p payload env
      unfold install at hinstall hframe
      rcases hinstall with ⟨hn, hd⟩ | ⟨hs, hp, hrest⟩
      · simp only [hn] at hd ⊢
        rw [hd]
        exact ⟨rfl, trivial, rfl, fun _ _ _ => rfl⟩
      · obtain ⟨q, hq⟩ := Option.isSome_iff_exists.mp hs
        simp only [hq] at hp hrest hframe ⊢
        exact ⟨rfl, hframe.1, hp, hrest⟩

/-- A STORE for a listed statement. -/
theorem Kept.store_item (h : d.Kept lost last sql) (hm : (s, p) ∈ d.known) (hne : s ≠ []) (hkey : d.pipes key = p)
    (body : Bytes) (env : Env) :
    (d.serveStore key body env).known = d.known ∧
      (d.serveStore key body env).item p = (d.item p).store body env (d.room (.serveStore key body env)) ∧
      ∀ e ∈ d.known, e.2 ≠ p → (d.serveStore key body env).item e.2 = d.item e.2 := by
  have h0 : p ≠ 0 := h.ne_zero hm
  obtain ⟨htext, -⟩ := h.text_eq hm
  have hb : d.brought (.serveStore key body env) =
      if body ≠ [] ∧ body.length ≤ BNCL_STORE_MAX ∧ storable body then some (p, body, env) else none := by
    unfold brought
    dsimp only
    rw [hkey, htext]
    by_cases hc : body ≠ [] ∧ body.length ≤ BNCL_STORE_MAX ∧ storable body
    · rw [if_pos hc, if_neg]
      simp [h0, hne, hc.1, hc.2.2, Nat.not_lt.mpr hc.2.1]
    · rw [if_neg hc, if_pos]
      by_contra hno
      simp only [not_or, List.length_eq_zero_iff, Nat.not_lt, Bool.not_eq_true', Bool.not_eq_false] at hno
      exact hc ⟨hno.1, hno.2.1, hno.2.2.2.2⟩
  rw [serveStore_eq, room, hb, Item.store]
  by_cases hc : body ≠ [] ∧ body.length ≤ BNCL_STORE_MAX ∧ storable body
  · rw [if_pos hc]
    dsimp only
    have hlen : body.length < 2 ^ 63 := by
      have := hc.2.1
      rw [BNCL_STORE_MAX] at this
      omega
    rcases h.install_item hm hlen env with ⟨hn, hd⟩ | ⟨hs, hp, hrest⟩
    · rw [hd, if_neg (by simp [hn])]
      exact ⟨rfl, rfl, fun _ _ _ => rfl⟩
    · rw [if_pos ⟨hc.1, hc.2.1, hc.2.2, by simpa using hs⟩]
      exact ⟨(install_frame ..).1, hp, hrest⟩
  · rw [if_neg hc, if_neg fun hx => hc ⟨hx.1, hx.2.1, hx.2.2.1⟩]
    exact ⟨rfl, rfl, fun _ _ _ => rfl⟩

end Requests

/-! ### Loads -/

section Loads
variable {d₀ d : Daemon} {lost : List Nat} {last : Nat → Option Bytes} {sql : Nat → Bytes} {s : Bytes}
  {ttl : UInt32} {next : List (Bytes × Nat)} {gone : List Bytes}

/-- The records of the list a load starts from, once it has gone through the statements `gone`. -/
def Retimed (d₀ d : Daemon) (ttl : UInt32) (gone : List Bytes) : Prop :=
  ∀ e ∈ d₀.known, d.recs e.2 = if e.1 ∈ short gone then { d₀.recs e.2 with ttl := ttl } else d₀.recs e.2

/-- A load has gone through the statements `gone`, and `next` is what it has of them. -/
structure Seen (d₀ d : Daemon) (ttl : UInt32) (next : List (Bytes × Nat)) (gone : List Bytes) : Prop where
  old : Retimed d₀ d ttl gone
  fresh : ∀ e ∈ next, e.1 ∉ d₀.known.map Prod.fst →
    (d.recs e.2).data = 0 ∧ (d.recs e.2).ts = 0 ∧ (d.recs e.2).ttl = ttl
  keys : next.map Prod.fst = short gone

theorem short_snoc (gone : List Bytes) (hs : s.length ≤ BNCL_STMT_MAX - 1) :
    short (gone ++ [s]) = short gone ++ [s] := by
  rw [short, List.filter_append, List.filter_cons_of_pos (by simpa using hs), List.filter_nil, short]

theorem short_snoc_long (gone : List Bytes) (hs : s.length > BNCL_STMT_MAX - 1) :
    short (gone ++ [s]) = short gone := by
  rw [short, List.filter_append, List.filter_cons_of_neg (by simpa using hs), List.filter_nil, List.append_nil, short]

/-- A statement that is not in the list a load starts from makes no difference to that list's records. -/
theorem Retimed.other (h : Retimed d₀ d ttl gone) (hs : s.length ≤ BNCL_STMT_MAX - 1)
    (hkey : s ∉ d₀.known.map Prod.fst) {d' : Daemon} (hr : ∀ e ∈ d₀.known, d'.recs e.2 = d.recs e.2) :
    Retimed d₀ d' ttl (gone ++ [s]) := by
  intro e he
  have hne : e.1 ≠ s := by
    rintro rfl
    exact hkey (List.mem_map_of_mem he)
  rw [hr e he, h e he, short_snoc gone hs]
  simp [hne]

/-- A known statement is gone through. -/
theorem Seeding.seen_known (h : Seeding d₀ d next lost last sql) (hk : (d₀.known.map Prod.fst).Nodup)
    (hs : Seen d₀ d ttl next gone) (hlen : s.length ≤ BNCL_STMT_MAX - 1) {p : Nat} (hm : (s, p) ∈ d₀.known)
    (hnew : s ∉ next.map Prod.fst) :
    Seen d₀ (d.setRec p { d.recs p with ttl := ttl }) ttl (next ++ [(s, p)]) (gone ++ [s]) := by
  have hname : ∀ e ∈ d₀.known ++ next, e.2 = p → e.1 = s := by
    intro e he hp
    rw [← (h.named e he).1, hp]
    exact (h.named (s, p) (List.mem_append_left _ hm)).1
  refine ⟨?_, ?_, ?_⟩
  · intro e he
    rw [short_snoc gone hlen]
    by_cases hp : e.2 = p
    · have he1 := hname e (List.mem_append_left _ he) hp
      rw [hp, setRec_self, if_pos (by simp [he1]), ← hp, hs.old e he]
      split <;> rfl
    · have hne : e.1 ≠ s := by
        intro he1
        have hep : e = (s, p) := List.inj_on_of_nodup_map hk he hm he1
        exact hp (by rw [hep])
      rw [setRec_of_ne d hp, hs.old e he]
      simp [hne]
  · intro e he hkey
    rcases List.mem_append.mp he with he | he
    · have hp : e.2 ≠ p := fun hp => hnew (hname e (List.mem_append_right _ he) hp ▸ List.mem_map_of_mem he)
      rw [setRec_of_ne d hp]
      exact hs.fresh e he hkey
    · rw [List.mem_singleton.mp he] at hkey
      exact absurd (List.mem_map_of_mem (f := Prod.fst) hm) hkey
  · rw [List.map_append, hs.keys, short_snoc gone hlen]
    rfl

/-- A new statement is gone through. -/
theorem Seen.new (hs : Seen d₀ d ttl next gone) (hlen : s.length ≤ BNCL_STMT_MAX - 1)
    (hkey : s ∉ d₀.known.map Prod.fst) {d' : Daemon} {p : Nat} {st : Stmt}
    (hp : p ∉ d₀.stmts ++ added d₀.known next) (hr : d'.recs = Function.update d.recs p st) (hdata : st.data = 0)
    (hts : st.ts = 0) (httl : st.ttl = ttl) : Seen d₀ d' ttl (next ++ [(s, p)]) (gone ++ [s]) := by
  rw [List.mem_append, not_or] at hp
  refine ⟨?_, ?_, ?_⟩
  · refine hs.old.other hlen hkey fun e he => ?_
    rw [hr, Function.update_of_ne]
    rintro rfl
    exact hp.1 (List.mem_append_left _ (List.mem_map_of_mem (f := Prod.snd) he))
  · intro e he hke
    rw [hr]
    by_cases hep : e.2 = p
    · rw [hep, Function.update_self]
      exact ⟨hdata, hts, httl⟩
    · rw [Function.update_of_ne hep]
      rcases List.mem_append.mp he with he | he
      · exact hs.fresh e he hke
      · exact absurd (by rw [List.mem_singleton.mp he]) hep
  · rw [List.map_append, hs.keys, short_snoc gone hlen]
    rfl

/-- One statement of a load, whether it goes through or not. -/
theorem Seeding.seen_step (h : Seeding d₀ d next lost last sql) (hk : (d₀.known.map Prod.fst).Nodup)
    (hs : Seen d₀ d ttl next gone) (hnew : s ∉ next.map Prod.fst) (refused : Bool) :
    Retimed d₀ (d.seed next s ttl refused).1 ttl (gone ++ [s]) ∧
      ∀ next' ∈ (d.seed next s ttl refused).2, Seen d₀ (d.seed next s ttl refused).1 ttl next' (gone ++ [s]) := by
  have hboth : ∀ {d' : Daemon} {p : Nat}, Seen d₀ d' ttl (next ++ [(s, p)]) (gone ++ [s]) →
      Retimed d₀ d' ttl (gone ++ [s]) ∧
        ∀ next' ∈ (if refused then none else some (next ++ [(s, p)])), Seen d₀ d' ttl next' (gone ++ [s]) := by
    intro d' p hd
    refine ⟨hd.old, fun next' hn => ?_⟩
    cases refused with
    | true => cases hn
    | false =>
      cases hn
      exact hd
  rw [seed]
  by_cases hlong : s.length > BNCL_STMT_MAX - 1
  · have hsame : Seen d₀ d ttl next (gone ++ [s]) := by
      refine ⟨?_, hs.fresh, ?_⟩
      · rw [Retimed, short_snoc_long gone hlong]
        exact hs.old
      · rw [short_snoc_long gone hlong]
        exact hs.keys
    rw [if_pos hlong]
    refine ⟨hsame.old, fun next' hn => ?_⟩
    cases hn
    exact hsame
  rw [if_neg hlong]
  have hlen : s.length ≤ BNCL_STMT_MAX - 1 := Nat.le_of_not_lt hlong
  cases hl : d.known.lookup s with
  | some p => exact hboth (h.seen_known hk hs hlen (h.known ▸ mem_of_lookup hl) hnew)
  | none =>
    have hkey : s ∉ d₀.known.map Prod.fst := h.known ▸ lookup_none_iff.mp hl
    have hsrc : (s ++ [0]).length < 2 ^ 63 := by
      simp only [BNCL_STMT_MAX] at hlen
      simp only [List.length_append, List.length_cons, List.length_nil]
      omega
    dsimp only
    rcases h.sound.put_alloc hsrc with ⟨hnone, -⟩ | ⟨txt, x, e1, e2, -, h1, -⟩
    · have hsame : Retimed d₀ { d with heap := ((d.heap.put (s ++ [0])).2.alloc STMT_BYTES).2 } ttl (gone ++ [s]) :=
        hs.old.other hlen hkey fun e _ => rfl
      rcases hnone with e | e
      · rw [e]
        exact ⟨hsame, fun next' hn => by cases hn⟩
      · rw [e]
        cases (d.heap.put (s ++ [0])).1 <;> exact ⟨hsame, fun next' hn => by cases hn⟩
    · have hx : x ∉ d₀.stmts ++ added d₀.known next := fun hm =>
        (List.nodup_cons.mp (List.nodup_cons.mp h1.nodup).2).1 (List.mem_append_left _ hm)
      simp only [e1, e2]
      exact hboth (hs.new hlen hkey hx rfl rfl rfl rfl)

/-- All the statements of a load, up to the first that fails. -/
theorem Seeding.seen_all (hk : (d₀.known.map Prod.fst).Nodup) (refuse : Bytes → Bool) (sqls : List Bytes) :
    ∀ {d : Daemon} {next : List (Bytes × Nat)} {lost : List Nat} {sql : Nat → Bytes} {gone : List Bytes},
      Seeding d₀ d next lost last sql → Seen d₀ d ttl next gone → sqls.Nodup →
      (∀ s ∈ sqls, s ∉ next.map Prod.fst) →
      Retimed d₀ (seedAll ttl refuse sqls d next).1 ttl (gone ++ reached ttl refuse sqls d next) ∧
        ∀ next' ∈ (seedAll ttl refuse sqls d next).2,
          Seen d₀ (seedAll ttl refuse sqls d next).1 ttl next' (gone ++ sqls) := by
  induction sqls with
  | nil =>
    intro d next lost sql gone _ hs _ _
    rw [seedAll, reached, List.append_nil]
    exact ⟨hs.old, fun next' hn => Option.some.inj hn ▸ hs⟩
  | cons s rest ih =>
    intro d next lost sql gone h hs hnd hnew
    obtain ⟨hsr, hnd⟩ := List.nodup_cons.mp hnd
    have hns := hnew s List.mem_cons_self
    obtain ⟨hold, hgo⟩ := h.seen_step hk hs hns (refuse s)
    have hseed := seed_step h hns ttl (refuse s)
    rw [seedAll, reached]
    generalize d.seed next s ttl (refuse s) = r at hold hgo hseed
    obtain ⟨d', _ | next'⟩ := r
    · exact ⟨hold, fun _ hn => by cases hn⟩
    · obtain ⟨hkeys, lost', sql', h'⟩ := hseed
      have hnew' : ∀ k ∈ rest, k ∉ next'.map Prod.fst := by
        intro k hkr hm
        rcases hkeys k hm with hm | rfl
        · exact hnew k (List.mem_cons_of_mem _ hkr) hm
        · exact hsr hkr
      have hall := ih h' (hgo next' rfl) hnd hnew'
      rw [List.append_assoc, List.append_assoc] at hall
      exact hall

theorem Kept.seen (h : d.Kept lost last sql) (lines : List Bytes) (ttl : UInt32) (refuse : Bytes → Bool) :
    Retimed d (seedAll ttl refuse (loadList lines) d []).1 ttl (reached ttl refuse (loadList lines) d []) ∧
      ∀ next ∈ (seedAll ttl refuse (loadList lines) d []).2,
        Seen d (seedAll ttl refuse (loadList lines) d []).1 ttl next (loadList lines) := by
  have hstart : Seen d d ttl [] [] := by
    refine ⟨fun e _ => ?_, fun e he => absurd he List.not_mem_nil, rfl⟩
    rw [if_neg (by simp [short])]
  exact Seeding.seen_all h.keys refuse (loadList lines) h.seeding hstart (loadList_nodup lines) (by simp)

theorem Retimed.item {d' : Daemon} {lost' : List Nat} {sql' : Nat → Bytes} (h : d.Kept lost last sql)
    (h' : d'.Kept lost' last sql') (hr : Retimed d d' ttl gone) {e : Bytes × Nat} (he : e ∈ d.known) :
    d'.item e.2 = if e.1 ∈ short gone then { d.item e.2 with ttl := ttl } else d.item e.2 := by
  rw [h.item_eq, h'.item_eq, hr e he]
  split <;> rfl

/-- A load is a load of the cache, or gives up as the cache does. -/
theorem Kept.load_cache (h : d.Kept lost last sql) (lines : List Bytes) (ttl : UInt32) (refuse : Bytes → Bool)
    (now : UInt64) :
    (d.loadStatements lines ttl refuse now).cache = d.cache.next
      (if (seedAll ttl refuse (loadList lines) d []).2.isSome then .load (short (loadList lines)) ttl
        else .giveUp (short (reached ttl refuse (loadList lines) d [])) ttl) := by
  have hseed := seedAll_sound ttl refuse (loadList lines) h.seeding (loadList_nodup lines) (by simp)
  obtain ⟨hold, hall⟩ := h.seen lines ttl refuse
  obtain ⟨lost', sql', h'⟩ := load_kept h lines ttl refuse now
  unfold loadStatements at h' ⊢
  dsimp only at h' ⊢
  cases hn : (seedAll ttl refuse (loadList lines) d []).2 with
  | none =>
    rw [hn] at hseed h'
    dsimp only at h' ⊢
    obtain ⟨_, _, _, hs⟩ := hseed
    funext t
    rw [if_neg (by simp)]
    simp only [Cache.next, cache, hs.known]
    cases hl : d.known.lookup t with
    | none => rfl
    | some p => exact congrArg some (hold.item h h' (mem_of_lookup hl))
  | some next =>
    rw [hn] at hseed h'
    dsimp only at h' ⊢
    obtain ⟨lost₁, sql₁, hs⟩ := hseed
    have hseen := hall next hn
    obtain ⟨-, hrecs⟩ := hs.leave h.keys now
    funext t
    rw [if_pos (by simp)]
    simp only [Cache.next]
    by_cases ht : t ∈ short (loadList lines)
    · rw [if_pos ht]
      obtain ⟨e, he, rfl⟩ := List.mem_map.mp (hseen.keys ▸ ht)
      rw [h'.cache_eq he]
      refine congrArg some ?_
      rw [h'.item_eq, hrecs e he]
      by_cases hm : e.1 ∈ d.known.map Prod.fst
      · have hek := hs.old e he hm
        rw [h.cache_eq hek, hseen.old e hek, if_pos ht, Option.getD_some, h.item_eq]
      · obtain ⟨e1, e2, e3⟩ := hseen.fresh e he hm
        rw [cache, lookup_none_iff.mpr hm, e1, e2, e3]
        rfl
    · rw [if_neg ht, cache]
      have hnone : next.lookup t = none := lookup_none_iff.mpr (hseen.keys ▸ ht)
      rw [hnone]
      rfl

end Loads

/-! ### States -/

/-- No record is ever marked as pending or failed. -/
def Local (d : Daemon) : Prop := ∀ p, (d.recs p).state = .STMT_S_LOCAL

section States
variable {d d' : Daemon}

theorem Local.setRec (h : d.Local) (p : Nat) (st : Stmt) (hs : st.state = .STMT_S_LOCAL) : (d.setRec p st).Local := by
  intro q
  by_cases e : q = p
  · rw [e, setRec_self, hs]
  · rw [setRec_of_ne d e]
    exact h q

theorem Local.onHeap (h : d.Local) (w : World) : ({ d with heap := w } : Daemon).Local := h

theorem Local.install (h : d.Local) (p : Nat) (body : Bytes) (env : Env) : (d.install p body env).Local := by
  unfold Daemon.install
  dsimp only
  split
  · exact h.onHeap _
  · exact (h.onHeap _).setRec p _ rfl

theorem Local.retireStmt (h : d.Local) (p : Nat) (now : UInt64) : (d.retireStmt p now).Local := by
  unfold Daemon.retireStmt
  dsimp only
  split
  · have h1 := (h.onHeap (d.heap.retire (d.recs p).data now)).setRec p { d.recs p with data := 0, data_len := 0 } (h p)
    split
    · refine ((h1.onHeap _).setRec p _ ?_).onHeap _
      exact h1 p
    · exact h1.onHeap _
  · split
    · refine ((h.onHeap _).setRec p _ ?_).onHeap _
      exact h p
    · exact h.onHeap _

theorem Local.collectLoop (now : UInt64) (rest : List Nat) : ∀ {d : Daemon} (keep : List Nat), d.Local →
    (collectLoop now rest d keep).1.Local := by
  induction rest with
  | nil => exact fun _ h => h
  | cons p rest ih =>
    intro d keep h
    rw [Daemon.collectLoop]
    split
    · exact ih keep (h.retireStmt p now)
    · exact ih _ h

theorem Local.removeAll (next : List (Bytes × Nat)) (now : UInt64) (l : List (Bytes × Nat)) :
    ∀ {d : Daemon}, d.Local → (removeAll next now l d).Local := by
  induction l with
  | nil => exact fun h => h
  | cons e l ih =>
    intro d h
    rw [Daemon.removeAll]
    split
    · exact ih h
    · refine ih ?_
      have h1 : (d.setRec e.2 { d.recs e.2 with refs := (d.recs e.2).refs - 1 }).Local :=
        h.setRec e.2 _ (h e.2)
      unfold remove
      dsimp only
      split
      · exact h1.retireStmt e.2 now
      · exact h1

theorem Local.seed (h : d.Local) (next : List (Bytes × Nat)) (sql : Bytes) (ttl : UInt32) (refused : Bool) :
    (d.seed next sql ttl refused).1.Local := by
  unfold Daemon.seed
  split
  · exact h
  split
  next p _ => exact h.setRec p _ (h p)
  · dsimp only
    split
    next txt p _ _ =>
      refine Local.setRec ?_ p _ rfl
      exact h
    · exact h.onHeap _

theorem Local.seedAll (ttl : UInt32) (refuse : Bytes → Bool) (sqls : List Bytes) :
    ∀ {d : Daemon} (next : List (Bytes × Nat)), d.Local → (seedAll ttl refuse sqls d next).1.Local := by
  induction sqls with
  | nil => exact fun _ h => h
  | cons sql rest ih =>
    intro d next h
    have h1 := h.seed next sql ttl (refuse sql)
    rw [Daemon.seedAll]
    generalize d.seed next sql ttl (refuse sql) = r at h1
    obtain ⟨d', _ | next'⟩ := r
    · exact h1
    · exact ih next' h1

theorem Local.load (h : d.Local) (lines : List Bytes) (ttl : UInt32) (refuse : Bytes → Bool) (now : UInt64) :
    (d.loadStatements lines ttl refuse now).Local := by
  have h1 := Local.seedAll ttl refuse (loadList lines) [] h
  unfold loadStatements
  dsimp only
  split
  · exact h1
  next next _ => exact Local.removeAll next now _ h1

theorem Local.step (h : d.Local) {e : Event} (hs : d.step e = some d') : d'.Local := by
  cases e <;> cases hs
  case loadStatements lines ttl refuse now => exact h.load lines ttl refuse now
  case serveLookup key env =>
    rcases serveLookup_cases d key env with ⟨p, body, -, -, -, -, e⟩ | ⟨-, e | ⟨-, e⟩⟩
    · rw [e]
      exact h.install p body env
    · rw [e]
      exact h
    · rw [e]
      exact h.setRec _ _ (h _)
  case serveStore key body env =>
    rw [serveStore_eq]
    split
    · exact h
    next p body env _ => exact h.install p body env
  case collectOrphans now => exact Local.collectLoop now _ [] h
  case reclaim now => exact h
  case count p refs => exact h.setRec p _ (h p)
  case point key p => exact h

end States

/-! ### Whole runs -/

/-- What the daemon needs for its table to be a cache. -/
structure Caches (d : Daemon) : Prop where
  kept : ∃ lost last sql, d.Kept lost last sql
  states : d.Local
  named : ∀ e ∈ d.known, e.1 ≠ []

section Step
variable {d d' : Daemon} {e : Event}

theorem loadList_ne_nil (lines : List Bytes) : ∀ sql ∈ loadList lines, sql ≠ [] := by
  have key : ∀ (lines acc : List Bytes), (∀ sql ∈ acc, sql ≠ []) → ∀ sql ∈ lines.foldl (fun stmts line =>
      if trim line = [] ∨ (trim line).head? = some 35 then stmts else addStmt stmts (trim line)) acc,
      sql ≠ [] := by
    intro lines
    induction lines with
    | nil => exact fun acc h => h
    | cons line lines ih =>
      intro acc h
      refine ih _ ?_
      dsimp only
      split
      · exact h
      next hline =>
        unfold addStmt
        split
        · exact h
        · intro sql hm
          rcases List.mem_append.mp hm with hm | hm
          · exact h sql hm
          · exact List.mem_singleton.mp hm ▸ fun h0 => hline (.inl h0)
  exact key lines [] fun _ hm => absurd hm List.not_mem_nil

/-- The statements of a list that has been loaded. -/
theorem load_texts (h : d.Caches) (lines : List Bytes) (ttl : UInt32) (refuse : Bytes → Bool) (now : UInt64) :
    (d.loadStatements lines ttl refuse now).known = d.known ∨
      (d.loadStatements lines ttl refuse now).known.map Prod.fst = short (loadList lines) := by
  obtain ⟨lost, last, sql, hk⟩ := h.kept
  have hseed := seedAll_sound ttl refuse (loadList lines) hk.seeding (loadList_nodup lines) (by simp)
  obtain ⟨-, hall⟩ := hk.seen lines ttl refuse
  unfold loadStatements
  dsimp only
  cases hn : (seedAll ttl refuse (loadList lines) d []).2 with
  | none =>
    rw [hn] at hseed
    obtain ⟨_, _, _, hs⟩ := hseed
    exact .inl hs.known
  | some next =>
    exact .inr (hall next hn).keys

theorem Caches.step (h : d.Caches) (hp : d.Served e) (hs : d.step e = some d') : d'.Caches := by
  obtain ⟨lost, last, sql, hk⟩ := h.kept
  obtain ⟨lost', sql', hk'⟩ := kept_step hk hp hs
  refine ⟨⟨lost', _, sql', hk'⟩, h.states.step hs, ?_⟩
  by_cases hl : ∃ lines ttl refuse now, e = .loadStatements lines ttl refuse now
  · obtain ⟨lines, ttl, refuse, now, rfl⟩ := hl
    cases hs
    rcases load_texts h lines ttl refuse now with hsame | hnew
    · rw [hsame]
      exact h.named
    · intro e he
      have hm : e.1 ∈ short (loadList lines) := hnew ▸ List.mem_map_of_mem he
      exact loadList_ne_nil lines e.1 (Table.mem_short.mp hm).1
  · rw [(serve_frame (fun l t r n e => hl ⟨l, t, r, n, e⟩) hs).1]
    exact h.named

theorem install_other {p q : Nat} (hq : q ≠ p) (body : Bytes) (env : Env) :
    (d.install p body env).recs q = d.recs q := by
  unfold install
  dsimp only
  split
  · rfl
  · exact setRec_of_ne _ hq _

/-- A body that is brought to one record is last for that one. -/
theorem afterStep_other {last : Nat → Option Bytes} {p q : Nat} {body : Bytes} {env : Env}
    (hb : d.brought e = some (p, body, env)) (hq : q ≠ p) : d.afterStep last e q = last q := by
  refine afterStep_of_ne fun b hs => ?_
  rw [stored, hb, Option.bind_some] at hs
  split at hs
  · cases hs
    exact hq rfl
  · cases hs

/-- A request does nothing to other records than the one its pipe names. -/
theorem serveLookup_other (last : Nat → Option Bytes) {key q : Nat} (env : Env) (hq : q ≠ d.pipes key) :
    (d.serveLookup key env).2.recs q = d.recs q ∧ d.afterStep last (.serveLookup key env) q = last q := by
  rcases serveLookup_cases d key env with ⟨p, body, hb, rfl, -, -, e⟩ | ⟨hb, e | ⟨-, e⟩⟩
  · rw [e]
    exact ⟨install_other hq body env, afterStep_other hb hq⟩
  · rw [e, afterStep_of_none hb]
    exact ⟨rfl, rfl⟩
  · rw [e, afterStep_of_none hb]
    exact ⟨setRec_of_ne d hq _, rfl⟩

theorem serveStore_other (last : Nat → Option Bytes) {key q : Nat} (body : Bytes) (env : Env)
    (hq : q ≠ d.pipes key) :
    (d.serveStore key body env).recs q = d.recs q ∧ d.afterStep last (.serveStore key body env) q = last q := by
  rw [serveStore_eq]
  cases hb : d.brought (.serveStore key body env) with
  | none => exact ⟨rfl, by rw [afterStep_of_none hb]⟩
  | some r =>
    obtain ⟨p, b, env'⟩ := r
    have hp : p = d.pipes key := by
      unfold brought at hb
      dsimp only at hb
      split at hb
      · cases hb
      · cases hb
        rfl
    exact ⟨install_other (hp ▸ hq) b env', afterStep_other hb (hp ▸ hq)⟩

/-- A request on a pipe that names no listed record does not show. -/
theorem Kept.cache_unlisted {lost lost' : List Nat} {last last' : Nat → Option Bytes} {sql sql' : Nat → Bytes}
    {p : Nat} (h : d.Kept lost last sql) (h' : d'.Kept lost' last' sql') (hk : d'.known = d.known)
    (hp : d.statementOf p = none) (hq : ∀ q, q ≠ p → d'.recs q = d.recs q ∧ last' q = last q) :
    d'.cache = d.cache := by
  refine cache_congr hk fun e he => ?_
  have hne : e.2 ≠ p := by
    rintro rfl
    rw [h.statementOf_iff.mpr he] at hp
    cases hp
  exact h.item_congr h' (hq _ hne).1 (hq _ hne).2

/-- Every step of the daemon is a step of the cache, with the same reply, or does not show. -/
theorem Caches.matches (h : d.Caches) (hp : d.Served e) (hs : d.step e = some d') :
    Matches Cache.step d.cache (d.op e) d'.cache := by
  obtain ⟨lost, last, sql, hk⟩ := h.kept
  obtain ⟨lost', sql', hk'⟩ := kept_step hk hp hs
  cases e <;> cases hs
  case loadStatements lines ttl refuse now =>
    have hload := hk.load_cache lines ttl refuse now
    rw [op]
    split
    next hok =>
      rw [if_pos hok] at hload
      exact congrArg some hload.symm
    next hno =>
      rw [if_neg hno] at hload
      exact congrArg some hload.symm
  case serveLookup key env =>
    rw [op]
    by_cases hsp : env.spliced = true
    · rw [if_pos hsp]
      cases hst : d.statementOf (d.pipes key) with
      | none =>
        have hknown : (d.serveLookup key env).2.known = d.known :=
          (serve_frame (e := .serveLookup key env) (by simp) rfl).1
        exact hk.cache_unlisted hk' hknown hst fun q => serveLookup_other last env
      | some s =>
        have hm := hk.statementOf_iff.mp hst
        obtain ⟨e1, e2, e3, e4⟩ := hk.lookup_item (h.states _) hm (h.named _ hm) rfl hsp
        have hc := hk.cache_eq hm
        rw [Option.map_some, e1]
        show Cache.step _ _ = _
        rw [Cache.step, if_pos (by rw [Cache.reply, hc]; rfl), hk.cache_update e2 hm e4, e3, Cache.next, hc]
        rfl
    · have hno : (d.serveLookup key env).2 = d := by
        unfold serveLookup
        rw [if_pos (by simpa using hsp)]
      rw [if_neg hsp, hno]
      rfl
  case serveStore key body env =>
    rw [op]
    cases hst : d.statementOf (d.pipes key) with
    | none =>
      have hknown : (d.serveStore key body env).known = d.known :=
        (serve_frame (e := .serveStore key body env) (by simp) rfl).1
      exact hk.cache_unlisted hk' hknown hst fun q => serveStore_other last body env
    | some s =>
      have hm := hk.statementOf_iff.mp hst
      obtain ⟨e2, e3, e4⟩ := hk.store_item hm (h.named _ hm) rfl body env
      have hc := hk.cache_eq hm
      rw [Option.map_some]
      show Cache.step _ _ = _
      rw [Cache.step, if_pos (by rfl), hk.cache_update e2 hm e4, e3, Cache.next, hc]
      rfl
  case collectOrphans now =>
    obtain ⟨-, hrecs⟩ := collect_kept hk now
    exact cache_congr (collectLoop_rest ..).2.2 fun e he => hk.item_congr hk' (hrecs e he) rfl
  case reclaim now => exact cache_congr rfl fun e _ => hk.item_congr hk' rfl rfl
  case count p refs =>
    refine cache_congr rfl fun e _ => ?_
    by_cases he : e.2 = p
    · rw [item, item, he, setRec_self]
      rfl
    · rw [item, item, setRec_of_ne d he]
      rfl
  case point key p => rfl

theorem caches_start {mem : Mem} {len : Nat} (h1 : BNCL_CTL_BYTES + MIN_BLOCK < len) (h2 : len < 2 ^ 32) :
    (start mem len).Caches :=
  ⟨⟨[], _, _, kept_start h1 h2⟩, fun _ => rfl, fun _ he => absurd he List.not_mem_nil⟩

theorem caches_run {mem : Mem} {len : Nat} (hmin : BNCL_CTL_BYTES + MIN_BLOCK < len) (hmax : len < 2 ^ 32)
    {events : List Event} (hrun : run Daemon.step (start mem len) events = some d)
    (hserved : Along Daemon.step Served (start mem len) events) :
    d.Caches ∧ run Cache.step (fun _ => none) (visible Daemon.step op (start mem len) events) = some d.cache :=
  run_view (fun _ _ _ h hp hs => ⟨h.step hp hs, h.matches hp hs⟩) (caches_start hmin hmax) hserved hrun

end Step

/-- Whatever the daemon goes through, it is a cache: the loads, the LOOKUPs and the STOREs for listed
    statements, with what is replied to them, are a run of the cache, and what the daemon has at the end
    is what the cache has. -/
theorem cache_refines (mem : Mem) (len : Nat) (hmin : BNCL_CTL_BYTES + MIN_BLOCK < len) (hmax : len < 2 ^ 32)
    (events : List Event) (d : Daemon) (hrun : run Daemon.step (start mem len) events = some d)
    (hserved : Along Daemon.step Served (start mem len) events) :
    run Cache.step (fun _ => none) (visible Daemon.step op (start mem len) events) = some d.cache :=
  (caches_run hmin hmax hrun hserved).2

/-- Two statements, a STORE, a LOOKUP that it answers, and a list without the other statement. -/
def oneStored : List Event :=
  [.loadStatements [[83], [84]] 60 (fun _ => false) 1, .point 0 112, .serveStore 0 Mysql.oneRow (emptyAt 5),
    .serveLookup 0 (emptyAt 7), .loadStatements [[83]] 30 (fun _ => false) 8]

theorem oneStored_refines : ∃ d, run Daemon.step (start (fun _ => 0) 600) oneStored = some d ∧
    run Cache.step (fun _ => none) (visible Daemon.step op (start (fun _ => 0) 600) oneStored) = some d.cache ∧
      d.cache [83] = some ⟨30, 5, some Mysql.oneRow⟩ ∧ d.cache [84] = none := by
  refine exists_run_of_map (fun d => (d.cache [83], d.cache [84])) (some ⟨30, 5, some Mysql.oneRow⟩, none)
    (by decide +kernel) ?_
  intro d hd hx
  exact ⟨cache_refines _ 600 (by decide) (by decide) _ d hd (by decide +kernel), (Prod.mk.inj hx).1,
    (Prod.mk.inj hx).2⟩

/-! ### Where an answer comes from -/

section Since
variable {d d' : Daemon} {e : Event} {s body : Bytes} {ts : UInt64}

/-- There is this body for the statement, and it came then. -/
def Has (s body : Bytes) (ts : UInt64) (d : Daemon) : Prop := ∃ ttl, d.cache s = some ⟨ttl, ts, some body⟩

/-- A body that was not there is there after a step: a request has brought it. -/
theorem Caches.brought_of_has (h : d.Caches) (hp : d.Served e) (hs : d.step e = some d') (h0 : ¬Has s body ts d)
    (h' : Has s body ts d') : ∃ p env, (s, p) ∈ d.known ∧ d.brought e = some (p, body, env) ∧ env.now = ts := by
  obtain ⟨ttl', hc'⟩ := h'
  obtain ⟨lost, last, sql, hk⟩ := h.kept
  obtain ⟨lost', sql', hk'⟩ := kept_step hk hp hs
  by_cases hl : ∃ lines ttl refuse now, e = .loadStatements lines ttl refuse now
  · obtain ⟨lines, ttl, refuse, now, rfl⟩ := hl
    cases hs
    rw [hk.load_cache lines ttl refuse now] at hc'
    refine absurd ?_ h0
    split at hc'
    · simp only [Cache.next] at hc'
      split at hc'
      · cases hc : d.cache s with
        | none => simp [hc] at hc'
        | some it =>
          simp only [hc, Option.getD_some, Option.some.injEq, Item.mk.injEq] at hc'
          exact ⟨it.ttl, by rw [hc, ← hc'.2.1, ← hc'.2.2]⟩
      · cases hc'
    · simp only [Cache.next, Option.map_eq_some_iff] at hc'
      obtain ⟨it, hc, hit⟩ := hc'
      have hsame : it.ts = ts ∧ it.body = some body := by
        split at hit
        · exact (Item.mk.inj hit).2
        · exact hit ▸ ⟨rfl, rfl⟩
      exact ⟨it.ttl, by rw [hc, ← hsame.1, ← hsame.2]⟩
  · have hload : ∀ lines ttl refuse now, e ≠ .loadStatements lines ttl refuse now :=
      fun l t r n e => hl ⟨l, t, r, n, e⟩
    have hknown := (serve_frame hload hs).1
    rw [cache, hknown, Option.map_eq_some_iff] at hc'
    obtain ⟨p, hlook, hitem⟩ := hc'
    have hm : (s, p) ∈ d.known := mem_of_lookup hlook
    rw [hk'.item_eq, Item.mk.injEq] at hitem
    obtain ⟨-, hts, hbody⟩ := hitem
    have hdata : (d'.recs p).data ≠ 0 := by
      intro hz
      rw [if_pos hz] at hbody
      cases hbody
    rw [if_neg hdata] at hbody
    rcases rec_step hk hload hp hs (s, p) hm with ⟨hno, -, hstay⟩ | ⟨b, env, hb, hst, -, hnow, -⟩
    · -- nothing was stored: it was there before
      obtain ⟨e1, e2⟩ := hstay.resolve_left hdata
      rw [afterStep_of_ne hno] at hbody
      refine absurd ⟨(d.recs p).ttl, ?_⟩ h0
      rw [hk.cache_eq hm, hk.item_eq, if_neg (by rw [← e1]; exact hdata), hbody, ← e2, hts]
    · rw [afterStep, hst] at hbody
      simp only [Function.update_self, Option.some.injEq] at hbody
      exact ⟨p, env, hm, hbody ▸ hb, hnow.symm.trans hts⟩

end Since

/-- What the local tier answers a LOOKUP for a listed statement with: the body that an earlier request
    of the same run brought for that statement, no longer ago than the TTL, and that has been there
    without a break ever since. -/
theorem local_answer_fresh (mem : Mem) (len : Nat) (hmin : BNCL_CTL_BYTES + MIN_BLOCK < len) (hmax : len < 2 ^ 32)
    (events : List Event) (d : Daemon) (hrun : run Daemon.step (start mem len) events = some d)
    (hserved : Along Daemon.step Served (start mem len) events) (s : Bytes) (p : Nat) (hm : (s, p) ∈ d.known)
    (env : Env) (hhit : hit (d.recs p) env = true) :
    ∃ before e after t t' q body env', events = before ++ e :: after ∧
      run Daemon.step (start mem len) before = some t ∧ t.step e = some t' ∧ (s, q) ∈ t.known ∧
      t.brought e = some (q, body, env') ∧ (d.item p).body = some body ∧
      ((d.recs p).ttl = 0 ∨ (env.now - env'.now).toNat ≤ span (d.recs p).ttl) ∧
      ∀ ls₁ ls₂ u, after = ls₁ ++ ls₂ → run Daemon.step t' ls₁ = some u → Has s body env'.now u := by
  obtain ⟨hd, -⟩ := caches_run hmin hmax hrun hserved
  obtain ⟨lost, last, sql, hk⟩ := hd.kept
  rw [hit_iff (hd.states p), Bool.and_eq_true, Bool.and_eq_true] at hhit
  obtain ⟨⟨-, hsome⟩, hyoung⟩ := hhit
  obtain ⟨body, hbody⟩ := Option.isSome_iff_exists.mp hsome
  have hhas : Has s body (d.item p).ts d := ⟨(d.item p).ttl, by rw [hk.cache_eq hm, ← hbody]⟩
  have hstart : ¬Has s body (d.item p).ts (start mem len) := by
    rintro ⟨ttl, hc⟩
    cases hc
  obtain ⟨before, e, after, t, t', rfl, hbefore, hnot, hstep, hhas', hsince⟩ := run_since hrun hstart hhas
  obtain ⟨ht, -⟩ := caches_run hmin hmax hbefore hserved.earlier
  obtain ⟨q, env', hq, hb, hnow⟩ := ht.brought_of_has (hserved.later hbefore).1 hstep hnot hhas'
  refine ⟨before, e, after, t, t', q, body, env', rfl, hbefore, hstep, hq, hb, hbody, ?_, ?_⟩
  · rw [hnow]
    simp only [Item.young, Bool.or_eq_true, Bool.and_eq_true, decide_eq_true_eq] at hyoung
    exact hyoung.imp_right And.right
  · rw [hnow]
    exact hsince

theorem oneStored_fresh : ∃ d, run Daemon.step (start (fun _ => 0) 600) oneStored = some d ∧
    hit (d.recs 112) (emptyAt 9) = true ∧ ∃ before e after t t' q body env', oneStored = before ++ e :: after ∧
      run Daemon.step (start (fun _ => 0) 600) before = some t ∧ t.step e = some t' ∧ ([83], q) ∈ t.known ∧
      t.brought e = some (q, body, env') ∧ (d.item 112).body = some body ∧
      ((d.recs 112).ttl = 0 ∨ ((9 : UInt64) - env'.now).toNat ≤ span (d.recs 112).ttl) ∧
      ∀ ls₁ ls₂ u, after = ls₁ ++ ls₂ → run Daemon.step t' ls₁ = some u → Has [83] body env'.now u := by
  refine exists_run_of_map (fun d => (decide (([83], 112) ∈ d.known), hit (d.recs 112) (emptyAt 9))) (true, true)
    (by decide +kernel) ?_
  intro d hd hx
  obtain ⟨hm, hhit⟩ := Prod.mk.inj hx
  exact ⟨hhit, local_answer_fresh _ 600 (by decide) (by decide) _ d hd (by decide +kernel) [83] 112
    (of_decide_eq_true hm) (emptyAt 9) hhit⟩

end Barnacle.Daemon
