import Barnacle.Daemon.Records

/-! Payloads over whole runs of the daemon. Every record in `known` points at nothing, or at an
    allocated block of its own that holds the body last stored or fetched for it. A body that finds no
    room in the arena changes nothing at all. -/

namespace Barnacle.Daemon
open Barnacle.Lib Barnacle.Arena
open Barnacle.Pipes (BNCL_STORE_MAX)
open Barnacle.Pipes.Sys (storable)

/-! ### Bodies -/

/-- The body a request brings, and for which record: what a STORE hands in once it has passed the
    checks, or what Valkey answers a LOOKUP that the local tier does not. -/
def brought (d : Daemon) : Event → Option (Nat × Bytes × Env)
  | .serveStore key body env =>
    let p := d.pipes key
    if body.length = 0 ∨ body.length > BNCL_STORE_MAX ∨ p = 0 ∨ d.text (d.recs p) = [] ∨ !storable body then
      none
    else some (p, body, env)
  | .serveLookup key env =>
    let p := d.pipes key
    if !env.spliced ∨ p = 0 ∨ hit (d.recs p) env then none
    else (env.valkey.bind fun v => d.fetch (d.recs p) v).map fun payload => (p, payload, env)
  | _ => none

/-- The body becomes the record's payload, if the arena has room for it. -/
def install (d : Daemon) (p : Nat) (body : Bytes) (env : Env) : Daemon :=
  let r := keep d.heap (d.recs p) body env.kept
  match r.1 with
  | none => { d with heap := r.2 }
  | some q => { d with heap := r.2 }.setRec p ((d.recs p).publish q body.length env.ttl env.now)

/-- The body a step stores or fetches. -/
def stored (d : Daemon) (e : Event) : Option (Nat × Bytes) :=
  (d.brought e).bind fun r =>
    if (keep d.heap (d.recs r.1) r.2.1 r.2.2.kept).1.isSome then some (r.1, r.2.1) else none

theorem install_frame (d : Daemon) (p : Nat) (body : Bytes) (env : Env) :
    (d.install p body env).known = d.known ∧ (d.install p body env).pipes = d.pipes ∧
      (d.install p body env).next_id = d.next_id := by
  unfold install
  dsimp only
  split <;> exact ⟨rfl, rfl, rfl⟩

/-- A LOOKUP that finds nothing anywhere clears the record. -/
def clear (d : Daemon) (p : Nat) : Daemon := d.setRec p { d.recs p with data := 0, data_len := 0, ts := 0 }

theorem serveStore_eq (d : Daemon) (key : Nat) (body : Bytes) (env : Env) :
    d.serveStore key body env =
      match d.brought (.serveStore key body env) with
      | none => d
      | some (p, body, env) => d.install p body env := by
  unfold serveStore store brought
  dsimp only
  by_cases h1 : body.length = 0 ∨ body.length > BNCL_STORE_MAX
  · rw [if_pos h1, if_pos (h1.elim .inl fun h => .inr (.inl h))]
  rw [if_neg h1]
  by_cases h2 : d.pipes key = 0
  · rw [if_pos h2, if_pos (.inr (.inr (.inl h2)))]
  rw [if_neg h2]
  have hne : body ≠ [] := fun e => h1 (.inl (by rw [e]; rfl))
  by_cases h3 : d.text (d.recs (d.pipes key)) = [] ∨ (!storable body) = true
  · rw [if_pos (h3.elim .inl fun h => .inr (.inr h)), if_pos (h3.elim (fun h => .inr (.inr (.inr (.inl h))))
      fun h => .inr (.inr (.inr (.inr h))))]
  · rw [if_neg, if_neg]
    · rfl
    · tauto
    · tauto

theorem serveLookup_cases (d : Daemon) (key : Nat) (env : Env) :
    (∃ p body, d.brought (.serveLookup key env) = some (p, body, env) ∧ p = d.pipes key ∧ p ≠ 0 ∧
        body.length < 2 ^ 63 ∧ (d.serveLookup key env).2 = d.install p body env) ∨
      d.brought (.serveLookup key env) = none ∧ ((d.serveLookup key env).2 = d ∨
        d.pipes key ≠ 0 ∧ (d.serveLookup key env).2 = d.clear (d.pipes key)) := by
  unfold serveLookup brought
  dsimp only
  by_cases h1 : (!env.spliced) = true
  · rw [if_pos h1, if_pos (.inl h1)]
    exact .inr ⟨rfl, .inl rfl⟩
  rw [if_neg h1]
  by_cases h2 : d.pipes key = 0
  · rw [if_pos h2, if_pos (.inr (.inl h2))]
    exact .inr ⟨rfl, .inl rfl⟩
  rw [if_neg h2]
  by_cases h3 : hit (d.recs (d.pipes key)) env = true
  · rw [if_pos h3, if_pos (.inr (.inr h3))]
    exact .inr ⟨rfl, .inl rfl⟩
  rw [if_neg h3, if_neg (by tauto)]
  cases hv : env.valkey with
  | none => exact .inr ⟨rfl, .inl rfl⟩
  | some v =>
    dsimp only [Option.bind_some]
    cases hf : d.fetch (d.recs (d.pipes key)) v with
    | none => exact .inr ⟨rfl, .inr ⟨h2, rfl⟩⟩
    | some payload =>
      refine .inl ⟨d.pipes key, payload, rfl, rfl, h2, fetch_length hf, ?_⟩
      unfold install
      dsimp only
      cases (keep d.heap (d.recs (d.pipes key)) payload env.kept).1 <;> rfl

/-! ### One step -/

/-- The daemon's records and its heap agree; `lost` is what it has lost sight of. -/
structure Kept (d : Daemon) (lost : List Nat) (last : Nat → Option Bytes) (sql : Nat → Bytes) : Prop where
  sound : Sound d.heap d.recs (d.stmts ++ lost) last sql
  keys : (d.known.map Prod.fst).Nodup
  named : ∀ e ∈ d.known, sql e.2 = e.1 ∧ (d.recs e.2).txt ≠ 0

section Step
variable {d : Daemon} {lost : List Nat} {last : Nat → Option Bytes} {sql : Nat → Bytes} {p : Nat}

/-- A record of the daemon's changes, its text staying. -/
theorem Kept.setRec (h : d.Kept lost last sql) {d' : Daemon} {st : Stmt} {lost' : List Nat}
    {last' : Nat → Option Bytes} (hr : d'.recs = Function.update d.recs p st) (hk : d'.known = d.known)
    (ho : d'.orphans = d.orphans) (htxt : st.txt = (d.recs p).txt)
    (hs : Sound d'.heap (Function.update d.recs p st) (d.stmts ++ lost') last' sql) :
    d'.Kept lost' last' sql := by
  have e : d'.stmts = d.stmts := by rw [stmts, hk, ho, stmts]
  refine ⟨by rw [hr, e]; exact hs, by rw [hk]; exact h.keys, ?_⟩
  intro k hm
  rw [hk] at hm
  obtain ⟨h1, h2⟩ := h.named k hm
  refine ⟨h1, ?_⟩
  rw [hr]
  by_cases e : k.2 = p
  · rw [e, Function.update_self, htxt, ← e]
    exact h2
  · rw [Function.update_of_ne e]
    exact h2

theorem install_kept (h : d.Kept lost last sql) (hp : p ∈ d.stmts) {body : Bytes}
    (hlen : body.length < 2 ^ 63) (env : Env) :
    (keep d.heap (d.recs p) body env.kept).1 = none ∧ d.install p body env = d ∨
      (keep d.heap (d.recs p) body env.kept).1.isSome ∧
        (d.install p body env).Kept lost (Function.update last p (some body)) sql := by
  have hps : p ∈ d.stmts ++ lost := List.mem_append_left _ hp
  unfold install
  dsimp only
  rcases h.sound.publish hps hlen env.kept with e | ⟨x, e, -, hx⟩
  · left
    rw [e]
    exact ⟨rfl, rfl⟩
  · right
    rw [e]
    exact ⟨rfl, h.setRec rfl rfl rfl rfl (hx env.ttl env.now)⟩

/-- The payload the record had stays allocated, and is nobody's. -/
theorem clear_kept (h : d.Kept lost last sql) (hp : p ∈ d.stmts) :
    ∃ lost', (d.clear p).Kept lost' last sql := by
  have hps : p ∈ d.stmts ++ lost := List.mem_append_left _ hp
  by_cases h0 : (d.recs p).data = 0
  · refine ⟨lost, h.setRec rfl rfl rfl rfl (h.sound.fields _ hps ?_ (fun hc => absurd rfl hc) rfl rfl)⟩
    simp only [Stmt.blocks, Stmt.text, Stmt.payload, h0]
  · refine ⟨(d.recs p).data :: lost, h.setRec rfl rfl rfl rfl ?_⟩
    refine Sound.perm (h.sound.forget (x := (d.recs p).data) _ hps ?_ (fun hc => absurd rfl hc)
      (fun _ => ⟨rfl, rfl⟩)) List.perm_middle.symm
    simp only [Stmt.blocks, Stmt.payload, Stmt.text, h0, if_true, if_false, List.append_nil]
    exact List.perm_append_comm

theorem Kept.seeding (h : d.Kept lost last sql) : Seeding d d [] lost last sql := by
  refine ⟨?_, rfl, rfl, List.nodup_nil, ?_, ?_, fun q _ => ⟨(d.recs q).ttl, rfl⟩⟩
  · simpa [added] using h.sound
  · exact fun e he => absurd he List.not_mem_nil
  · intro e he
    rw [List.append_nil] at he
    exact h.named e he

/-- A load that fails has lost what it allocated. -/
theorem Failed.kept {d' : Daemon} (h : d.Kept lost last sql) (hf : Failed d d' last) :
    ∃ lost' sql', d'.Kept lost' last sql' := by
  obtain ⟨next, more, sql', hs⟩ := hf
  have e : d'.stmts = d.stmts := by rw [stmts, hs.known, hs.orphans, stmts]
  refine ⟨added d.known next ++ more, sql', ?_, ?_, ?_⟩
  · rw [e, ← List.append_assoc]
    exact hs.sound
  · rw [hs.known]
    exact h.keys
  · intro k hk
    rw [hs.known] at hk
    exact hs.named k (List.mem_append_left _ hk)

/-- The second half of a load that goes through: statements that left the list. -/
theorem Seeding.leave {d₀ : Daemon} {next : List (Bytes × Nat)} (h : Seeding d₀ d next lost last sql)
    (hk : (d₀.known.map Prod.fst).Nodup) (now : UInt64) :
    ({ removeAll next now d.known d with known := next } : Daemon).Kept lost last sql ∧
      ∀ e ∈ next, (removeAll next now d.known d).recs e.2 = d.recs e.2 := by
  have hs : Sound d.heap d.recs (d.known.map Prod.snd ++ d.orphans ++ (added d.known next ++ lost))
      last sql := by
    rw [h.known, h.orphans, ← List.append_assoc]
    exact h.sound
  obtain ⟨h1, f1⟩ := removeAll_sound next now d.known hs
  have hframe : ∀ e ∈ next, (removeAll next now d.known d).recs e.2 = d.recs e.2 := by
    intro e he
    refine f1 e.2 fun k hkn hnot hke => hnot ?_
    -- two statements with one record are the same statement
    have e1 := (h.named k (List.mem_append_left _ (h.known ▸ hkn))).1
    have e2 := (h.named e (List.mem_append_right _ he)).1
    rw [← e1, hke, e2]
    exact List.mem_map_of_mem he
  refine ⟨⟨Sound.perm h1 ?_, h.keys, ?_⟩, hframe⟩
  · show List.Perm _ (next.map Prod.snd ++ (removeAll next now d.known d).orphans ++ lost)
    have hold : ∀ e ∈ next, e.1 ∈ d.known.map Prod.fst → e ∈ d.known := by
      rw [h.known]
      exact h.old
    rw [← List.append_assoc]
    refine List.Perm.append_right lost ?_
    rw [List.append_assoc]
    refine (List.perm_append_comm.append_left _).trans ?_
    rw [← List.append_assoc]
    exact (stay_added_perm (by rw [h.known]; exact hk) h.keys hold).append_right _
  · intro e he
    obtain ⟨e1, e2⟩ := h.named e (List.mem_append_right _ he)
    refine ⟨e1, ?_⟩
    show ((removeAll next now d.known d).recs e.2).txt ≠ 0
    rw [hframe e he]
    exact e2

theorem load_kept (h : d.Kept lost last sql) (lines : List Bytes) (ttl : UInt32) (refuse : Bytes → Bool)
    (now : UInt64) : ∃ lost' sql', (d.loadStatements lines ttl refuse now).Kept lost' last sql' := by
  have hs := seedAll_sound ttl refuse (loadList lines) h.seeding (loadList_nodup lines) (by simp)
  unfold loadStatements
  dsimp only
  cases hn : (seedAll ttl refuse (loadList lines) d []).2 with
  | none =>
    rw [hn] at hs
    exact hs.kept h
  | some next =>
    rw [hn] at hs
    obtain ⟨lost', sql', hs⟩ := hs
    exact ⟨lost', sql', (hs.leave h.keys now).1⟩

/-- Collecting orphans leaves the statements of the list alone. -/
theorem collect_kept (h : d.Kept lost last sql) (now : UInt64) :
    (d.collectOrphans now).Kept lost last sql ∧
      ∀ k ∈ d.known, (d.collectOrphans now).recs k.2 = d.recs k.2 := by
  have hperm : (d.stmts ++ lost).Perm (d.orphans ++ [] ++ (d.known.map Prod.snd ++ lost)) := by
    rw [List.append_nil, ← List.append_assoc]
    exact List.perm_append_comm.append_right _
  obtain ⟨h1, f1⟩ := collectLoop_sound now _ (h.sound.perm hperm)
  have hknown : (d.collectOrphans now).known = d.known := (collectLoop_rest ..).2.2
  have hframe : ∀ k ∈ d.known, (d.collectOrphans now).recs k.2 = d.recs k.2 := by
    intro k hkm
    refine f1 k.2 ?_
    -- known and orphans have no record in common
    intro hm
    have hnd := (List.nodup_append.mp h.sound.nodup).1
    exact (List.nodup_append.mp hnd).2.2 _ (List.mem_map_of_mem hkm) _ hm rfl
  refine ⟨⟨Sound.perm h1 ?_, by rw [hknown]; exact h.keys, ?_⟩, hframe⟩
  · show List.Perm _ ((d.collectOrphans now).known.map Prod.snd ++ (collectLoop now d.orphans d []).2 ++ lost)
    rw [hknown, ← List.append_assoc]
    exact List.perm_append_comm.append_right _
  · intro e he
    rw [hknown] at he
    rw [hframe e he]
    exact h.named e he

/-- The request is served on a pipe that names a record the daemon still has, or none. -/
def Served (d : Daemon) : Event → Prop
  | .serveLookup key _ | .serveStore key _ _ => d.pipes key = 0 ∨ d.pipes key ∈ d.stmts
  | _ => True

instance (d : Daemon) : (e : Event) → Decidable (d.Served e)
  | .serveLookup .. | .serveStore .. => inferInstanceAs (Decidable (_ ∨ _))
  | .loadStatements .. | .collectOrphans _ | .reclaim _ | .count .. | .point .. => .isTrue trivial

/-- What is last for each record after a step. -/
def afterStep (d : Daemon) (last : Nat → Option Bytes) (e : Event) : Nat → Option Bytes :=
  match d.stored e with
  | some (p, body) => Function.update last p (some body)
  | none => last

/-- A request that brings a body does nothing but install it. -/
theorem brought_install {d' : Daemon} {e : Event} {env : Env} {body : Bytes}
    (hb : d.brought e = some (p, body, env)) (hs : d.step e = some d') :
    d' = d.install p body env ∧ body.length < 2 ^ 63 ∧ (d.Served e → p ∈ d.stmts) := by
  cases e <;> cases hs
  case serveLookup key env' =>
    rcases serveLookup_cases d key env' with ⟨q, b, hb', rfl, h0, hlen, e⟩ | ⟨hb', -⟩
    · rw [hb'] at hb
      cases hb
      exact ⟨e, hlen, fun hp => hp.resolve_left h0⟩
    · rw [hb'] at hb
      cases hb
  case serveStore key b env' =>
    rw [serveStore_eq, hb]
    refine ⟨rfl, ?_⟩
    unfold brought at hb
    dsimp only at hb
    split at hb
    · cases hb
    next hn =>
      cases hb
      simp only [not_or, BNCL_STORE_MAX] at hn
      exact ⟨by omega, fun hp => hp.resolve_left hn.2.2.1⟩
  all_goals cases hb

theorem kept_brought {d' : Daemon} {e : Event} {env : Env} {body : Bytes} (h : d.Kept lost last sql)
    (hb : d.brought e = some (p, body, env)) (hp : d.Served e) (hs : d.step e = some d') :
    d'.Kept lost (d.afterStep last e) sql := by
  obtain ⟨rfl, hlen, hmem⟩ := brought_install hb hs
  rcases install_kept h (hmem hp) hlen env with ⟨e1, e2⟩ | ⟨e1, h1⟩
  · have hst : d.stored e = none := by
      rw [stored, hb, Option.bind_some, e1]
      rfl
    rw [afterStep, hst, e2]
    exact h
  · have hst : d.stored e = some (p, body) := by
      rw [stored, hb, Option.bind_some, if_pos e1]
    rw [afterStep, hst]
    exact h1

theorem count_kept (h : d.Kept lost last sql) (p : Nat) (refs : UInt32) :
    (d.setRec p { d.recs p with refs := refs }).Kept lost last sql := by
  have hf : ∀ q, ((d.setRec p { d.recs p with refs := refs }).recs q).txt = (d.recs q).txt ∧
      ((d.setRec p { d.recs p with refs := refs }).recs q).len = (d.recs q).len ∧
      ((d.setRec p { d.recs p with refs := refs }).recs q).data = (d.recs q).data ∧
      ((d.setRec p { d.recs p with refs := refs }).recs q).data_len = (d.recs q).data_len := by
    intro q
    by_cases e : q = p
    · rw [e, setRec_self]
      exact ⟨rfl, rfl, rfl, rfl⟩
    · rw [setRec_of_ne d e]
      exact ⟨rfl, rfl, rfl, rfl⟩
  refine ⟨h.sound.congr hf, h.keys, ?_⟩
  intro e he
  rw [(hf e.2).1]
  exact h.named e he

/-- Events that bring no body and load no list keep the texts and what is last for each record. -/
theorem kept_quiet {d' : Daemon} {e : Event} (h : d.Kept lost last sql) (hb : d.brought e = none)
    (hl : ∀ lines ttl refuse now, e ≠ .loadStatements lines ttl refuse now) (hp : d.Served e)
    (hs : d.step e = some d') : ∃ lost', d'.Kept lost' last sql := by
  cases e <;> cases hs
  case loadStatements lines ttl refuse now => exact absurd rfl (hl lines ttl refuse now)
  case serveLookup key env =>
    rcases serveLookup_cases d key env with ⟨p, body, hb', -⟩ | ⟨-, e | ⟨h0, e⟩⟩
    · rw [hb'] at hb
      cases hb
    · rw [e]
      exact ⟨lost, h⟩
    · rw [e]
      exact clear_kept h (hp.resolve_left h0)
  case serveStore key body env =>
    rw [serveStore_eq, hb]
    exact ⟨lost, h⟩
  case collectOrphans now => exact ⟨lost, (collect_kept h now).1⟩
  case reclaim now => exact ⟨lost, h.sound.reclaim now, h.keys, h.named⟩
  case count p refs => exact ⟨lost, count_kept h p refs⟩
  case point key p => exact ⟨lost, h.sound, h.keys, h.named⟩

theorem stored_of_none {e : Event} (hb : d.brought e = none) : d.stored e = none := by
  rw [stored, hb]
  rfl

theorem afterStep_of_none {e : Event} (hb : d.brought e = none) : d.afterStep last e = last := by
  rw [afterStep, stored_of_none hb]

/-- A step that loads no list. -/
theorem kept_serve {d' : Daemon} {e : Event} (h : d.Kept lost last sql)
    (hl : ∀ lines ttl refuse now, e ≠ .loadStatements lines ttl refuse now) (hp : d.Served e)
    (hs : d.step e = some d') : ∃ lost', d'.Kept lost' (d.afterStep last e) sql := by
  cases hb : d.brought e with
  | some r =>
    obtain ⟨p, body, env⟩ := r
    exact ⟨lost, kept_brought h hb hp hs⟩
  | none =>
    rw [afterStep_of_none hb]
    exact kept_quiet h hb hl hp hs

theorem kept_step {d' : Daemon} {e : Event} (h : d.Kept lost last sql) (hp : d.Served e)
    (hs : d.step e = some d') : ∃ lost' sql', d'.Kept lost' (d.afterStep last e) sql' := by
  by_cases hl : ∃ lines ttl refuse now, e = .loadStatements lines ttl refuse now
  · obtain ⟨lines, ttl, refuse, now, rfl⟩ := hl
    cases hs
    rw [afterStep_of_none rfl]
    exact load_kept h lines ttl refuse now
  · obtain ⟨lost', h'⟩ := kept_serve h (fun l t r n e => hl ⟨l, t, r, n, e⟩) hp hs
    exact ⟨lost', sql, h'⟩

/-- A step that loads no list leaves the list, and gives out no id. -/
theorem serve_frame {d' : Daemon} {e : Event}
    (hl : ∀ lines ttl refuse now, e ≠ .loadStatements lines ttl refuse now) (hs : d.step e = some d') :
    d'.known = d.known ∧ d'.next_id = d.next_id := by
  cases e <;> cases hs
  case loadStatements lines ttl refuse now => exact absurd rfl (hl lines ttl refuse now)
  case serveLookup key env =>
    rcases serveLookup_cases d key env with ⟨p, body, -, -, -, -, e⟩ | ⟨-, e | ⟨-, e⟩⟩
    · rw [e]
      exact ⟨(install_frame ..).1, (install_frame ..).2.2⟩
    · rw [e]
      exact ⟨rfl, rfl⟩
    · rw [e]
      exact ⟨rfl, rfl⟩
  case serveStore key body env =>
    rw [serveStore_eq]
    split
    · exact ⟨rfl, rfl⟩
    · exact ⟨(install_frame ..).1, (install_frame ..).2.2⟩
  case collectOrphans now => exact ⟨(collectLoop_rest ..).2.2, (collectLoop_rest ..).2.1⟩
  all_goals exact ⟨rfl, rfl⟩

/-- A record's text is the statement it is known by. -/
theorem Kept.text_eq (h : d.Kept lost last sql) {k : Bytes × Nat} (hk : k ∈ d.known) :
    d.text (d.recs k.2) = k.1 ∧ (d.recs k.2).len = k.1.length := by
  obtain ⟨e, h0⟩ := h.named k hk
  obtain ⟨hlen, hst⟩ := h.sound.text k.2 h0
  rw [e] at hlen hst
  refine ⟨?_, hlen⟩
  have hread := hst.read
  rw [List.length_append, List.length_singleton, Mem.read_add] at hread
  rw [text, if_neg h0, hlen]
  exact (List.append_inj hread (Mem.length_read ..)).1

end Step

/-! ### Runs -/

/-- The daemon, and beside it the body last stored or fetched for each record. -/
structure Traced where
  daemon : Daemon
  last : Nat → Option Bytes := fun _ => none

def Traced.step (s : Traced) (e : Event) : Option Traced :=
  (s.daemon.step e).map fun d => ⟨d, s.daemon.afterStep s.last e⟩

def Traced.start (mem : Mem) (len : Nat) : Traced := { daemon := Daemon.start mem len }

/-- The record points at nothing, or at the payload of a block in use that is not retired and that no
    other record points at, and the block holds what is last for the record. -/
def PayloadOk (s : Traced) (p : Nat) : Prop :=
  let st := s.daemon.recs p
  st.data = 0 ∨ ∃ bs fl rl b body, s.daemon.heap.Valid bs fl rl ∧ b ∈ bs ∧ b.free = false ∧ b.off ∉ rl ∧
    st.data = b.off + HDR ∧ HDR + st.data_len + FTR ≤ b.size ∧ s.last p = some body ∧
    s.daemon.heap.arena.mem.read st.data st.data_len = body ∧ ∀ q, q ≠ p → st.data ∉ (s.daemon.recs q).blocks

theorem Kept.payloadOk {s : Traced} {lost : List Nat} {sql : Nat → Bytes}
    (h : s.daemon.Kept lost s.last sql) (p : Nat) : PayloadOk s p := by
  by_cases h0 : (s.daemon.recs p).data = 0
  · exact .inl h0
  obtain ⟨body, hlast, hlen, hst⟩ := h.sound.payload p h0
  obtain ⟨bs, fl, rl, hv⟩ := h.sound.owns.valid
  obtain ⟨b, hb, hf, hr, e⟩ := hv.block hst.live
  have hroom := hst.room
  rw [e, Nat.add_sub_cancel, hv.heap.size_eq hb] at hroom
  refine .inr ⟨bs, fl, rl, b, body, hv, hb, hf, hr, e, by omega, hlast, ?_, ?_⟩
  · rw [hlen]
    exact hst.read
  · intro q hne hq
    exact hne (h.sound.owner (Stmt.data_mem h0) hq).symm

theorem kept_start {mem : Mem} {len : Nat} (h1 : BNCL_CTL_BYTES + MIN_BLOCK < len) (h2 : len < 2 ^ 32) :
    (start mem len).Kept [] (fun _ => none) (fun _ => []) := by
  refine ⟨⟨(accounted_start h1 h2).holds, fun _ _ => rfl, ?_, ?_⟩, List.nodup_nil, ?_⟩
  · exact fun p hp => absurd rfl hp
  · exact fun p hp => absurd rfl hp
  · exact fun e he => absurd he List.not_mem_nil

/-- The trace is kept along every run of requests on records the daemon has. -/
theorem kept_run {mem : Mem} {len : Nat} (hmin : BNCL_CTL_BYTES + MIN_BLOCK < len) (hmax : len < 2 ^ 32)
    {events : List Event} {s : Traced} (hrun : run Traced.step (Traced.start mem len) events = some s)
    (hserved : Along Traced.step (fun s e => s.daemon.Served e) (Traced.start mem len) events) :
    ∃ lost sql, s.daemon.Kept lost s.last sql := by
  refine run_inv_along (I := fun s : Traced => ∃ lost sql, s.daemon.Kept lost s.last sql) ?_
    ⟨[], _, kept_start hmin hmax⟩ hserved hrun
  rintro t e t' ⟨lost, sql, h⟩ hp hs
  obtain ⟨d', hd, rfl⟩ := Option.map_eq_some_iff.mp hs
  exact kept_step h hp hd

/-- Between any two steps every record in `known` has no payload, or a block of its own that holds
    exactly the body last stored or fetched for it; and a body the arena has no room for leaves the
    whole daemon as it was. -/
theorem payloads_intact (mem : Mem) (len : Nat) (hmin : BNCL_CTL_BYTES + MIN_BLOCK < len)
    (hmax : len < 2 ^ 32) (events : List Event) (s : Traced)
    (hrun : run Traced.step (Traced.start mem len) events = some s)
    (hserved : Along Traced.step (fun s e => s.daemon.Served e) (Traced.start mem len) events) :
    (∀ k ∈ s.daemon.known, PayloadOk s k.2) ∧
      ∀ e d' p body env, s.daemon.Served e → s.daemon.step e = some d' →
        s.daemon.brought e = some (p, body, env) →
        (keep s.daemon.heap (s.daemon.recs p) body env.kept).1 = none → d' = s.daemon := by
  obtain ⟨lost, sql, h⟩ := kept_run hmin hmax hrun hserved
  refine ⟨fun k _ => h.payloadOk k.2, ?_⟩
  intro e d' p body env hp hstep hb hfull
  obtain ⟨rfl, hlen, hmem⟩ := brought_install hb hstep
  rcases install_kept h (hmem hp) hlen env with ⟨-, e1⟩ | ⟨e1, -⟩
  · exact e1
  · rw [hfull] at e1
    cases e1

theorem payloads_intact_sample :
    ∃ s, run Traced.step (Traced.start (fun _ => 0) 600) [.loadStatements [[83], [84]] 60 (fun _ => false) 1,
        .point 0 112, .serveStore 0 Mysql.oneRow (emptyAt 5), .serveLookup 0 (emptyAt 70000000000),
        .serveStore 0 Mysql.oneRow (emptyAt 71000000000)] = some s ∧
      (s.daemon.recs 112).data ≠ 0 ∧ ∀ k ∈ s.daemon.known, PayloadOk s k.2 := by
  refine exists_run_of_map (fun s => decide ((s.daemon.recs 112).data ≠ 0)) true (by decide +kernel) ?_
  intro s hs hd
  exact ⟨of_decide_eq_true hd,
    (payloads_intact _ 600 (by decide) (by decide) _ s hs (by decide +kernel)).1⟩

end Barnacle.Daemon
