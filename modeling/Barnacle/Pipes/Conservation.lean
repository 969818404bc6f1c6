import Mathlib.Data.Set.Card
import Barnacle.Pipes.Retirement

/-! Where the references of a record are. As long as every client gives back what it takes, a record
    counts the statement list and the clients that hold a pipe on it, each once and nothing else; so
    when a statement has left the list and its clients are done, its record can be collected. -/

namespace Barnacle.Pipes
open Barnacle.Lib

def Owner.client? : Owner → Option Nat
  | client c => some c
  | _ => none

namespace Pc

/-- The client is not inside a call. -/
def returned : Pc → Bool
  | idle | dead | held .. | waiting .. => true
  | _ => false

/-- The pipe a client has from an `acquire` that succeeded. -/
def pipe? : Pc → Option (Target × Nat)
  | held t k | waiting t k _ => some (t, k)
  | _ => none

/-- The client is inside `acquire`. -/
def acquires : Pc → Bool
  | locking .. | popMeta .. | popSlot .. | popWrite .. | popFail | readPipe .. | getRef .. | claim ..
  | unlock .. | splice .. | pair .. => true
  | _ => false

/-- Between calls, who has a reference has a pipe. -/
theorem pipe?_of_holds {q : Pc} (hq : q.returned = true) {t : Target} (ht : q.holds? = some t) :
    ∃ k, q.pipe? = some (t, k) ∧ q.key? = some k := by
  cases q <;> simp_all [returned, holds?, pipe?, key?]

theorem holds?_of_pipe {q : Pc} {t : Target} {k : Nat} (h : q.pipe? = some (t, k)) :
    q.holds? = some t ∧ q.key? = some k := by
  cases q <;> simp_all [holds?, pipe?, key?]

end Pc

namespace Sys

variable {s s' : Sys} {l : Label} {c p : Nat}

/-! ### Whom a step concerns -/

/-- The others stay where they are. -/
theorem pc_other (hs : s.step l = some s') (hc : Label.client? l ≠ some c) : s'.pc c = s.pc c := by
  have move : ∀ {s₁ : Sys} {d : Nat} {q : Pc}, s₁.pc = s.pc → some d ≠ some c →
      (s₁.goto d q).pc c = s.pc c := by
    intro s₁ d q hp hd
    rw [← hp]
    exact Function.update_of_ne (fun e => hd (by rw [e])) ..
  cases l <;> simp only [step, askLookup, askStore] at hs <;> simp only [Label.client?] at hc
  case acquire d sql | lookupPayload d sql =>
    obtain ⟨-, rfl | ⟨x, -, rfl⟩⟩ := resolve_cases hs
    · rfl
    · exact move rfl hc
  case next d ok =>
    obtain ⟨q, hp, -⟩ := (next_cases hs).pc
    rw [hp]
    exact Function.update_of_ne (fun e => hc (by rw [e])) ..
  case askLookup d ok | askStore d canonical ok =>
    obtain ⟨t, key, -, rfl | ⟨-, rfl⟩ | ⟨k, -, rfl⟩⟩ := post_cases hs <;> exact move rfl hc
  case takeReply d => obtain ⟨t, key, num, x, rest, -, -, rfl⟩ := takeReply_cases hs; exact move rfl hc
  case giveUp d => obtain ⟨t, key, num, -, -, rfl⟩ := giveUp_cases hs; exact move rfl hc
  case die d => cases hs; exact move rfl hc
  case serve key env => obtain ⟨req, hv⟩ := serve_cases hs; rw [hv.frame]
  case publish sql x => obtain ⟨-, rfl⟩ := publish_cases hs; rfl
  case unpublish sql => obtain ⟨x, r, -, -, -, rfl⟩ := unpublish_cases hs; rfl
  case drop x => obtain ⟨r, -, -, ⟨-, rfl⟩ | ⟨-, rfl⟩⟩ := drop_cases hs <;> rfl
  case collect x => obtain ⟨r, -, -, -, rfl⟩ := collect_cases hs; rfl
  case reclaim x => obtain ⟨r, -, -, rfl⟩ := reclaim_cases hs; rfl
  case breakLock => obtain ⟨d, -, rfl⟩ := breakLock_cases hs; rfl

/-- The address that a record is put at. -/
def Label.address? : Label → Option Nat
  | .publish _ p => some p
  | _ => none

theorem recs_none_step (hs : s.step l = some s') (hl : Label.address? l ≠ some p)
    (hp : s.recs p = none) : s'.recs p = none := by
  -- what changes is a record that is there
  have upd : ∀ {x : Nat} {r₀ : Rec} {r' : Option Rec}, s.recs x = some r₀ →
      s'.recs = Function.update s.recs x r' → s'.recs p = none := by
    intro x r₀ r' hx e
    rw [e, Function.update_of_ne (by rintro rfl; rw [hp] at hx; cases hx), hp]
  cases kept_step hs with
  | count hk _ _ _ =>
    rcases hk p with ⟨-, e⟩ | ⟨r₀, r', h0, -, -⟩
    · exact e
    · rw [hp] at h0
      cases h0
  | payload x r₀ d hx e _ _ _ => exact upd hx e
  | publish sql x _ hpub e _ _ _ =>
    subst hpub
    rw [e, Function.update_of_ne (by rintro rfl; exact hl rfl), hp]
  | list x r₀ refs owners phase hx hb _ e => exact upd hx (by rw [e]; rfl)
  | retire x r₀ refs owners hx _ e => exact upd hx (by rw [e]; rfl)
  | reclaim x r₀ hx _ e => exact upd hx (by rw [e]; rfl)

/-- Clients never touch the map. -/
theorem next_stmts {ok : Bool} (hs : s.next c ok = some s') : s'.stmts = s.stmts := by
  cases hpc : s.pc c <;> simp only [next, hpc] at hs
  case idle | dead | held | waiting => cases hs
  case locking | pushLock => split at hs <;> [skip; split at hs] <;> cases hs <;> rfl
  case popMeta | popSlot | popWrite | readPipe | pushMeta | pushSlot | pushWrite =>
    split at hs <;> cases hs <;> rfl
  case getRef t key | peekGet t =>
    split at hs <;> cases hs
    · rfl
    · rename_i s₁ hg
      rw [get_recs hg]
      rfl
  case splice t key | pair t key | relRead t key =>
    split at hs <;> cases hs
    · rfl
    · rw [forget_recs]
      rfl
  case relPut t key stmt =>
    cases stmt <;> cases hs
    · rfl
    · rw [put_recs]
      rfl
  case peek t =>
    cases hs
    rw [put_recs]
    rfl
  all_goals
    cases hs
    rfl

/-! ### Who is counted -/

/-- The record at `p` counts the list and clients that have a reference on it, each once. -/
structure Clean (s : Sys) (p : Nat) (r : Rec) : Prop where
  nodup : r.owners.Nodup
  kept : .lost ∉ r.owners
  client : ∀ c, .client c ∈ r.owners → ∃ t, (s.pc c).holds? = some t ∧ t.ptr = p
  list : .list ∈ r.owners → r.phase = .known ∨ r.phase = .removing
  entry : r.phase = .known → ∃ sql, s.stmts sql = some p

def Conserved (s : Sys) : Prop := ∀ p r, s.recs p = some r → s.Clean p r

/-- Every step gives back what it takes. A call that `acquire` or `release` makes with a reference
    succeeds, no client dies with one, a statement is not published over an entry that a failed load
    has left, memory is not reused while a client is about to take a reference there, and the freelist
    lock is freed only when its holder has died. -/
def Returned (s : Sys) : Label → Prop
  | .next c ok => (s.pc c).risks = true → ok = true
  | .die c => (s.pc c).holds? = none
  | .publish sql _ => s.stmts sql = none
  | .reclaim p => ∀ c t, (s.pc c).seeks? = some t → t.ptr ≠ p
  | .breakLock => ∀ c ∈ s.lock, s.pc c = .dead
  | _ => True

theorem Returned.unsought (h : s.Returned l) : s.Unsought l := by
  cases l <;> first | exact h | trivial

theorem Returned.abandoned (h : s.Returned l) : s.Abandoned l := by
  cases l <;> first | exact h | trivial

namespace Clean
variable {r r' : Rec}

/-- The record stays, and so do its entry and the references of its clients. -/
theorem congr (h : s.Clean p r) (hpc : ∀ d t, (s.pc d).holds? = some t → (s'.pc d).holds? = some t)
    (hst : ∀ sql, s.stmts sql = some p → s'.stmts sql = some p) : s'.Clean p r := by
  refine ⟨h.nodup, h.kept, fun c hc => ?_, h.list, fun hk => ?_⟩
  · obtain ⟨t, ht, e⟩ := h.client c hc
    exact ⟨t, hpc c t ht, e⟩
  · obtain ⟨sql, e⟩ := h.entry hk
    exact ⟨sql, hst sql e⟩

/-- The daemon changes the record; the clients it counts are among those it counted. -/
theorem amend (h : s.Clean p r) (hpc : s'.pc = s.pc) (ho : r'.owners.Sublist r.owners)
    (hlist : .list ∈ r'.owners → r'.phase = .known ∨ r'.phase = .removing)
    (hentry : r'.phase = .known → ∃ sql, s'.stmts sql = some p) : s'.Clean p r' := by
  refine ⟨h.nodup.sublist ho, fun hm => h.kept (ho.subset hm), fun c hc => ?_, hlist, hentry⟩
  rw [hpc]
  exact h.client c (ho.subset hc)

end Clean

theorem conserved_next {ok : Bool} (h : s.Conserved) (hc : s.Counted)
    (hr : (s.pc c).risks = true → ok = true) (hs : s.next c ok = some s') : s'.Conserved := by
  have hst := next_stmts hs
  have others : ∀ d, d ≠ c → s'.pc d = s.pc d := by
    intro d hd
    obtain ⟨q, hp, -⟩ := (next_cases hs).pc
    rw [hp]
    exact Function.update_of_ne hd ..
  -- a record that does not change: its clients keep their references
  have quiet : ∀ {p r}, s.Clean p r → .client c ∉ r.owners → s'.Clean p r := by
    intro p r hcl hno
    refine ⟨hcl.nodup, hcl.kept, fun d hd => ?_, hcl.list, fun hk => by rw [hst]; exact hcl.entry hk⟩
    rw [others d (by rintro rfl; exact hno hd)]
    exact hcl.client d hd
  cases counting_next hs with
  | same hrecs hh =>
    intro p r hp
    rw [hrecs] at hp
    refine (h p r hp).congr (fun d t hd => ?_) fun sql e => by rw [hst]; exact e
    by_cases hdc : d = c
    · subst hdc
      rcases hh with hh | ⟨t', k, hpc⟩
      · rw [hh]; exact hd
      · cases hc.put d t' k none hpc
    · rw [others d hdc]; exact hd
  | get t s₁ htakes hg hrecs hbefore hholds =>
    obtain ⟨r₀, h0, -⟩ := hc.seeks c t (seeks_of_takes htakes)
    have hclean := h _ r₀ h0
    -- the client had no reference anywhere
    have hno : ∀ {p r}, s.Clean p r → .client c ∉ r.owners := by
      intro p r hcl hm
      obtain ⟨t', ht', -⟩ := hcl.client c hm
      rw [hbefore] at ht'
      cases ht'
    intro p r hp
    by_cases e : p = t.ptr
    · subst e
      rw [bncl_stmt_get, h0] at hg
      simp only at hg
      split at hg
      · cases hg
      · cases hg
        rw [hrecs] at hp
        simp only [setRec, Function.update_self, Option.some.injEq] at hp
        subst hp
        refine ⟨List.nodup_cons.mpr ⟨hno hclean, hclean.nodup⟩, by simpa using hclean.kept,
          fun d hd => ?_, fun hm => hclean.list (by simpa using hm),
          fun hk => by rw [hst]; exact hclean.entry hk⟩
        rcases List.mem_cons.mp hd with hd | hd
        · cases hd
          exact ⟨t, hholds, rfl⟩
        · exact (quiet hclean (hno hclean)).client d hd
    · rw [hrecs, get_other hg e] at hp
      exact quiet (h p r hp) (hno (h p r hp))
  | put t x ht hw hrecs hholds =>
    obtain rfl := hc.gives_back hw
    intro p r hp
    by_cases e : p = t.ptr
    · subst e
      obtain ⟨r₀, h0, -, hmem⟩ := hc.holds c t ht
      have hclean := h _ r₀ h0
      rw [hrecs, bncl_stmt_put, h0] at hp
      simp only [setRec, Function.update_self, Option.some.injEq] at hp
      subst hp
      have hsub := List.erase_sublist (a := Owner.client c) (l := r₀.owners)
      refine ⟨hclean.nodup.sublist hsub, fun hm => hclean.kept (hsub.subset hm), fun d hd => ?_,
        fun hm => hclean.list (hsub.subset hm), fun hk => by rw [hst]; exact hclean.entry hk⟩
      have hd' := (hclean.nodup.mem_erase_iff).mp hd
      rw [others d (by rintro rfl; exact hd'.1 rfl)]
      exact hclean.client d hd'.2
    · rw [hrecs, put_other _ e] at hp
      refine quiet (h p r hp) fun hm => ?_
      obtain ⟨t', ht', e'⟩ := (h p r hp).client c hm
      rw [ht] at ht'
      cases ht'
      exact e e'.symm
  | forget t hrisk hfail ht hrecs hholds =>
    rw [hr hrisk] at hfail
    cases hfail

theorem Conserved.move (h : s.Conserved) {s₁ : Sys} {q : Pc} (hr : s₁.recs = s.recs)
    (hst : s₁.stmts = s.stmts) (hp : s₁.pc = s.pc)
    (hq : ∀ t, (s.pc c).holds? = some t → q.holds? = some t) : (s₁.goto c q).Conserved := by
  intro p r hpr
  have hpr' : s.recs p = some r := by rw [← hr]; exact hpr
  refine (h p r hpr').congr (fun d t hd => ?_) fun sql e => by rw [← hst] at e; exact e
  have hpc : (s₁.goto c q).pc = Function.update s.pc c q := by rw [← hp]; rfl
  rw [hpc]
  by_cases e : d = c
  · subst e
    rw [Function.update_self]
    exact hq t hd
  · rw [Function.update_of_ne e]
    exact hd

/-- The daemon changes one record. -/
theorem Conserved.amend (h : s.Conserved) {x : Nat} {r' : Option Rec}
    (hr : s'.recs = Function.update s.recs x r') (hpc : s'.pc = s.pc)
    (hst : ∀ p, p ≠ x → ∀ sql, s.stmts sql = some p → s'.stmts sql = some p)
    (hx : ∀ r₁, r' = some r₁ → s'.Clean x r₁) : s'.Conserved := by
  intro p r hp
  rw [hr] at hp
  by_cases e : p = x
  · subst e
    rw [Function.update_self] at hp
    exact hx r hp
  · rw [Function.update_of_ne e] at hp
    exact (h p r hp).congr (fun d t hd => by rw [hpc]; exact hd) (hst p e)

theorem conserved_step (h : s.Conserved) (hc : s.Counted) (ht : s.Returned l)
    (hs : s.step l = some s') : s'.Conserved := by
  cases l <;> simp only [step, askLookup, askStore] at hs <;> simp only [Returned] at ht
  case acquire d sql | lookupPayload d sql =>
    obtain ⟨hpc, rfl | ⟨x, -, rfl⟩⟩ := resolve_cases hs
    · exact h
    · exact h.move rfl rfl rfl (by rw [hpc]; simp [Pc.holds?])
  case next d ok => exact conserved_next h hc ht hs
  case askLookup d ok | askStore d canonical ok =>
    obtain ⟨t, key, hpc, rfl | ⟨-, rfl⟩ | ⟨k, -, rfl⟩⟩ := post_cases hs <;>
      exact h.move rfl rfl rfl (by rw [hpc]; exact fun _ e => e)
  case takeReply d =>
    obtain ⟨t, key, num, x, rest, hpc, -, rfl⟩ := takeReply_cases hs
    exact h.move rfl rfl rfl (by rw [hpc]; exact fun _ e => e)
  case giveUp d =>
    obtain ⟨t, key, num, hpc, -, rfl⟩ := giveUp_cases hs
    exact h.move rfl rfl rfl (by rw [hpc]; exact fun _ e => e)
  case die d =>
    cases hs
    exact h.move rfl rfl rfl (by rw [ht]; simp)
  case serve key env =>
    obtain ⟨req, hv⟩ := serve_cases hs
    have hpc : s'.pc = s.pc := by rw [hv.frame]
    have hst : s'.stmts = s.stmts := by rw [hv.frame]
    rcases hv.recs with ⟨e, -⟩ | ⟨x, r₀, d, -, hx, -, e, -⟩
    · intro p r hp
      rw [e] at hp
      exact (h p r hp).congr (fun d t hd => by rw [hpc]; exact hd) fun sql he => by rw [hst]; exact he
    · refine h.amend e hpc (fun p _ sql he => by rw [hst]; exact he) fun r₁ e₁ => ?_
      cases e₁
      have hcl := h x r₀ hx
      exact hcl.amend hpc (List.Sublist.refl _) hcl.list (by rw [hst]; exact hcl.entry)
  case publish sql x =>
    obtain ⟨hx, rfl⟩ := publish_cases hs
    refine h.amend rfl rfl (fun p _ sql' he => ?_) fun r₁ e₁ => ?_
    · -- no other record loses its entry: the statement had none
      have hne : sql' ≠ sql := by
        rintro rfl
        rw [ht] at he
        cases he
      exact (Function.update_of_ne hne ..).trans he
    · cases e₁
      exact ⟨by simp, by simp, fun c hc => by simp at hc, fun _ => .inl rfl,
        fun _ => ⟨sql, Function.update_self ..⟩⟩
  case unpublish sql =>
    obtain ⟨x, r₀, hsql, hx, -, rfl⟩ := unpublish_cases hs
    refine h.amend rfl rfl (fun p hp sql' he => ?_) fun r₁ e₁ => ?_
    · have hne : sql' ≠ sql := by
        rintro rfl
        rw [hsql] at he
        cases he
        exact hp rfl
      exact (Function.update_of_ne hne ..).trans he
    · cases e₁
      exact (h x r₀ hx).amend rfl (List.Sublist.refl _) (fun _ => .inr rfl) fun hk => by cases hk
  case drop x =>
    -- the list was counted once, so it is not counted any more
    obtain ⟨r₀, hx, -, ⟨-, rfl⟩ | ⟨-, rfl⟩⟩ := drop_cases hs <;>
      refine h.amend rfl rfl (fun _ _ _ he => he) fun r₁ e₁ => ?_ <;> cases e₁ <;>
      exact (h x r₀ hx).amend rfl List.erase_sublist
        (fun hm => absurd rfl ((h x r₀ hx).nodup.mem_erase_iff.mp hm).1) fun hk => by cases hk
  case collect x =>
    obtain ⟨r₀, hx, hph, -, rfl⟩ := collect_cases hs
    refine h.amend rfl rfl (fun _ _ _ he => he) fun r₁ e₁ => ?_
    cases e₁
    refine (h x r₀ hx).amend rfl (List.Sublist.refl _) (fun hm => ?_) fun hk => by cases hk
    rcases (h x r₀ hx).list hm with hk | hk <;> rw [hph] at hk <;> cases hk
  case reclaim x =>
    obtain ⟨r₀, -, -, rfl⟩ := reclaim_cases hs
    exact h.amend rfl rfl (fun _ _ _ he => he) fun r₁ e₁ => by cases e₁
  case breakLock =>
    obtain ⟨d, -, rfl⟩ := breakLock_cases hs
    exact fun p r hp => (h p r hp).congr (fun _ _ hd => hd) fun _ he => he

theorem conserved_start (pipes : Nat) : (start pipes).Conserved := by
  intro p r hp
  cases hp

/-! ### Between calls -/

/-- No call is in progress: no client is inside one, and the daemon has put away every record it has
    taken out of the map. -/
structure Quiescent (s : Sys) : Prop where
  clients : ∀ c, (s.pc c).returned = true
  daemon : ∀ p r, s.recs p = some r → r.phase ≠ .removing

/-- The statement list has the record. -/
def Published (s : Sys) (p : Nat) : Prop := ∃ sql, s.stmts sql = some p

/-- The pipes that clients hold on the record. -/
def pipesOn (s : Sys) (p : Nat) : Set Nat := {k | ∃ c t, (s.pc c).pipe? = some (t, k) ∧ t.ptr = p}

/-- Owners that are counted once and known are the list and clients. -/
theorem owners_length {os : List Owner} (hn : os.Nodup) (hk : .lost ∉ os) :
    os.length = (if .list ∈ os then 1 else 0) + (os.filterMap Owner.client?).length := by
  induction os with
  | nil => rfl
  | cons o os ih =>
    obtain ⟨hno, hn⟩ := List.nodup_cons.mp hn
    have ih := ih hn fun hm => hk (List.mem_cons_of_mem _ hm)
    cases o with
    | list =>
      rw [if_neg hno] at ih
      simp only [List.length_cons, List.mem_cons_self, if_true, List.filterMap_cons, Owner.client?]
      omega
    | client c =>
      simp only [List.length_cons, List.mem_cons, reduceCtorEq, false_or, List.filterMap_cons,
        Owner.client?]
      omega
    | lost => exact absurd List.mem_cons_self hk

theorem clients_nodup {os : List Owner} (hn : os.Nodup) : (os.filterMap Owner.client?).Nodup := by
  refine hn.filterMap fun a b c ha hb => ?_
  cases a <;> cases b <;> simp_all [Owner.client?]

/-- Between calls the clients a record counts are those that hold a pipe on it. -/
theorem Clean.pipes (h : s.Clean p r) (hc : s.Counted) (hx : s.Exclusive) (hp : s.recs p = some r)
    (hq : s.Quiescent) : (s.pipesOn p).ncard = (r.owners.filterMap Owner.client?).length := by
  have mem : ∀ c, c ∈ r.owners.filterMap Owner.client? ↔ .client c ∈ r.owners := by
    intro c
    rw [List.mem_filterMap]
    constructor
    · rintro ⟨o, ho, e⟩
      cases o <;> simp_all [Owner.client?]
    · exact fun ho => ⟨_, ho, rfl⟩
  let key := fun c => ((s.pc c).key?).getD 0
  have hkey : ∀ c, .client c ∈ r.owners →
      ∃ t, (s.pc c).pipe? = some (t, key c) ∧ (s.pc c).key? = some (key c) ∧ t.ptr = p := by
    intro c ho
    obtain ⟨t, ht, e⟩ := h.client c ho
    obtain ⟨k, hk, hk'⟩ := Pc.pipe?_of_holds (hq.clients c) ht
    have hkc : key c = k := by simp [key, hk']
    exact ⟨t, by rw [hkc]; exact hk, by rw [hkc]; exact hk', e⟩
  have hset : s.pipesOn p = ↑((r.owners.filterMap Owner.client?).map key).toFinset := by
    ext k
    simp only [pipesOn, Set.mem_ofPred_eq, List.coe_toFinset, List.mem_map, mem]
    constructor
    · rintro ⟨c, t, hpipe, rfl⟩
      obtain ⟨hh, hk⟩ := Pc.holds?_of_pipe hpipe
      exact ⟨c, Counted.owner (hc.holds c t hh) r hp, by simp [key, hk]⟩
    · rintro ⟨c, ho, rfl⟩
      obtain ⟨t, hpipe, -, e⟩ := hkey c ho
      exact ⟨c, t, hpipe, e⟩
  have hnodup : ((r.owners.filterMap Owner.client?).map key).Nodup := by
    refine (clients_nodup h.nodup).map_on fun c hcm d hdm e => ?_
    obtain ⟨-, -, hk, -⟩ := hkey c ((mem c).mp hcm)
    obtain ⟨-, -, hk', -⟩ := hkey d ((mem d).mp hdm)
    exact hx.key_inj c d _ hk (by rw [e]; exact hk')
  rw [hset, Set.ncard_coe_finset, List.toFinset_card_of_nodup hnodup, List.length_map]

/-- An `acquire` that fails has changed no record. -/
theorem acquire_fails {ok : Bool} (hp : (s.pc c).acquires = true)
    (hr : (s.pc c).risks = true → ok = true) (hs : s.next c ok = some s')
    (hend : (s'.pc c).acquires = false) : (s'.pc c).pipe?.isSome ∨ s'.recs = s.recs := by
  have here : ∀ (s₁ : Sys) (q : Pc), (s₁.goto c q).pc c = q := fun s₁ q => Function.update_self ..
  cases hpc : s.pc c <;> simp only [next, hpc] at hs <;> rw [hpc] at hp hr <;>
    simp only [Pc.acquires, reduceCtorEq] at hp
  case locking | popMeta | popSlot | popWrite | readPipe =>
    split at hs <;> (try split at hs) <;> cases hs <;> exact .inr rfl
  case getRef t key =>
    split at hs <;> cases hs
    · exact .inr rfl
    · rw [here] at hend
      cases hend
  case splice | pair =>
    rw [if_pos (hr rfl)] at hs
    cases hs
    first
    | exact .inl (by rw [here]; rfl)
    | rw [here] at hend; cases hend
  all_goals
    cases hs
    exact .inr rfl

/-- In every run whose steps give back what they take, with no reference taken on a record that counts
    2^32 - 1 already, whenever no call is in progress: a record that the list has counts one and the
    pipes that clients hold on it, a record that the list has not counts these pipes only, and one nobody
    holds any more has been retired or can be. And an `acquire` that fails changes no record. -/
theorem references_conserved (pipes : Nat) (ls : List Label) (s : Sys)
    (hrun : run step (start pipes) ls = some s)
    (hback : Along step (fun s l => s.Returned l) (start pipes) ls)
    (hroomy : Along step Roomy (start pipes) ls) :
    (s.Quiescent → ∀ p r, s.recs p = some r →
      (s.Published p → r.refs.toNat = 1 + (s.pipesOn p).ncard) ∧
      (¬s.Published p → r.refs.toNat = (s.pipesOn p).ncard) ∧
      (¬s.Published p → s.pipesOn p = ∅ → r.phase = .retired ∨ ∃ s', s.step (.collect p) = some s')) ∧
    (∀ c ok s', (s.pc c).acquires = true → s.Returned (.next c ok) → s.step (.next c ok) = some s' →
      (s'.pc c).acquires = false → (s'.pc c).pipe?.isSome ∨ s'.recs = s.recs) := by
  obtain ⟨hx, hreg, hcons⟩ : s.Exclusive ∧ s.Regular ∧ s.Conserved :=
    run_inv_along (I := fun v => v.Exclusive ∧ v.Regular ∧ v.Conserved)
      (fun _ _ _ ⟨hx, hreg, hcons⟩ ⟨ht, hroom⟩ hs => ⟨exclusive_step hx ht.abandoned hs,
        regular_step hreg hx.key_inj ht.unsought hroom hs, conserved_step hcons hreg.counted ht hs⟩)
      ⟨exclusive_start pipes, regular_start pipes, conserved_start pipes⟩ (hback.and hroomy) hrun
  refine ⟨fun hq p r hp => ?_, fun c ok s' ha hr hs he => acquire_fails ha hr hs he⟩
  have hcl := hcons p r hp
  have hsound := hreg.counted.sound p r hp
  have hlen := owners_length hcl.nodup hcl.kept
  rw [← hsound.toNat_refs (hreg.inRange p r hp), ← hcl.pipes hreg.counted hx hp hq] at hlen
  -- in the list, in `known` and counted as such are the same
  have hknown : s.Published p → r.phase = .known := by
    rintro ⟨sql, hsql⟩
    obtain ⟨r', hr', hk, -⟩ := hreg.counted.published sql p hsql
    rw [hp] at hr'
    cases hr'
    exact hk
  have hunlisted : ¬s.Published p → .list ∉ r.owners := by
    intro hno hm
    rcases hcl.list hm with hk | hk
    · exact hno (hcl.entry hk)
    · exact hq.daemon p r hp hk
  refine ⟨fun hpub => ?_, fun hno => ?_, fun hno he => ?_⟩
  · rw [if_pos (hsound.listed (.inl (hknown hpub)))] at hlen
    exact hlen
  · rw [if_neg (hunlisted hno), Nat.zero_add] at hlen
    exact hlen
  · rw [if_neg (hunlisted hno), he, Set.ncard_empty] at hlen
    cases hph : r.phase with
    | known => exact absurd (hcl.entry hph) hno
    | removing => exact absurd hph (hq.daemon p r hp)
    | orphan => exact .inr ⟨_, step_collect hp hph (UInt32.toNat_inj.mp hlen)⟩
    | retired => exact .inl rfl

/-- A run with one client and one record: whether a call is in progress is for these to say. -/
theorem quiescent_alone {pipes : Nat} {ls : List Label} {r : Rec}
    (hrun : run step (start pipes) ls = some s)
    (hone : ∀ l ∈ ls, (Label.client? l = none ∨ Label.client? l = some c) ∧
      (Label.address? l = none ∨ Label.address? l = some p))
    (hc : (s.pc c).returned = true) (hp : s.recs p = some r) (hr : r.phase ≠ .removing) :
    s.Quiescent ∧ ∀ d, d ≠ c → s.pc d = .idle := by
  obtain ⟨hpc, hrecs⟩ : (∀ d, d ≠ c → s.pc d = .idle) ∧ ∀ q, q ≠ p → s.recs q = none := by
    refine run_inv_along (I := fun v => (∀ d, d ≠ c → v.pc d = .idle) ∧ ∀ q, q ≠ p → v.recs q = none)
      (fun v l v' h hl hs => ⟨fun d hd => ?_, fun q hq => ?_⟩) ⟨fun _ _ => rfl, fun _ _ => rfl⟩
      (along_of_forall (fun l hm _ => hone l hm)) hrun
    · rw [pc_other hs (by rcases hl.1 with e | e <;> simp [e, hd.symm]), h.1 d hd]
    · exact recs_none_step hs (by rcases hl.2 with e | e <;> simp [e, hq.symm]) (h.2 q hq)
  refine ⟨⟨fun d => ?_, fun q r' hq => ?_⟩, hpc⟩
  · by_cases e : d = c
    · rw [e]; exact hc
    · rw [hpc d e]; rfl
  · by_cases e : q = p
    · subst e
      rw [hp] at hq
      cases hq
      exact hr
    · rw [hrecs q e] at hq
      cases hq

theorem references_conserved_sample :
    ∃ s r, run step (start 1) (.publish [83] 100 :: acquiring 0 [83]) = some s ∧ s.Quiescent ∧
      s.recs 100 = some r ∧ r.refs.toNat = 1 + (s.pipesOn 100).ncard := by
  have h : (run step (start 1) (.publish [83] 100 :: acquiring 0 [83])).map (fun s =>
      ((s.recs 100).map Rec.phase, (s.pc 0).returned, s.stmts [83])) =
        some (some .known, true, some 100) := by decide +kernel
  obtain ⟨s, hs, h⟩ := Option.map_eq_some_iff.mp h
  simp only [Prod.mk.injEq, Option.map_eq_some_iff] at h
  obtain ⟨⟨r, hr, hph⟩, hpc, hst⟩ := h
  obtain ⟨hq, -⟩ := quiescent_alone hs (by decide) hpc hr (by rw [hph]; simp)
  have hback : Along step (fun s l => s.Returned l) (start 1) (.publish [83] 100 :: acquiring 0 [83]) := by
    refine ⟨rfl, fun s' _ => along_of_forall fun l hm v => ?_⟩
    rcases List.mem_cons.mp hm with rfl | hm
    · trivial
    · rw [List.eq_of_mem_replicate hm]
      exact fun _ => rfl
  obtain ⟨hrefs, -⟩ := references_conserved 1 _ s hs hback (by decide +kernel)
  exact ⟨s, r, hs, hq, hr, (hrefs hq 100 r hr).1 ⟨_, hst⟩⟩

/-- Client 0's `acquire` fails when it puts its socket into `cpipe_map`: it gives its pipe back and
    keeps the reference, so the record counts two with no pipe held. -/
theorem failed_acquire_keeps_reference :
    ∃ s r, run step (start 1) ([.publish [83] 100, .acquire 0 [83]] ++
        List.replicate 8 (.next 0 true) ++ .next 0 false :: List.replicate 5 (.next 0 true)) = some s ∧
      s.Quiescent ∧ s.recs 100 = some r ∧ s.Published 100 ∧ s.pipesOn 100 = ∅ ∧ r.refs = 2 := by
  have h : (run step (start 1) ([.publish [83] 100, .acquire 0 [83]] ++
      List.replicate 8 (.next 0 true) ++ .next 0 false :: List.replicate 5 (.next 0 true))).map
        (fun s => ((s.recs 100).map (fun r => (r.phase, r.refs)), s.pc 0, s.stmts [83])) =
          some (some (.known, 2), .idle, some 100) := by decide +kernel
  obtain ⟨s, hs, h⟩ := Option.map_eq_some_iff.mp h
  simp only [Prod.mk.injEq, Option.map_eq_some_iff] at h
  obtain ⟨⟨r, hr, hph, hrefs⟩, hpc, hst⟩ := h
  obtain ⟨hq, hidle⟩ := quiescent_alone (c := 0) hs (by decide) (by rw [hpc]; rfl) hr (by rw [hph]; simp)
  refine ⟨s, r, hs, hq, hr, ⟨_, hst⟩, ?_, hrefs⟩
  refine Set.eq_empty_of_forall_notMem ?_
  rintro k ⟨d, t, hd, -⟩
  have : s.pc d = .idle := by
    by_cases e : d = 0
    · rw [e]; exact hpc
    · exact hidle d e
  rw [this] at hd
  cases hd

end Sys

end Barnacle.Pipes
