import Barnacle.Pipes.Delivery
import Barnacle.Pipes.References

/-! What a queued request is served with. The request carries no statement: the daemon follows
    `dpipes[key].stmt` when it serves, long after the client that posted it may have released the
    pipe. So the record must still be there, and still be the one the poster resolved. -/

namespace Barnacle.Pipes
open Barnacle.Lib Barnacle.Mysql

/-- The pipe the client is about to point at its record. -/
def Pc.claiming? : Pc → Option (Target × Nat)
  | claim t k => some (t, k)
  | _ => none

namespace Sys

variable {s s' : Sys} {l : Label}

/-! ### What a record holds -/

/-- The record at `p` may be read: it is not retired, and its fields are the ones published for it. -/
def Readable (s : Sys) (p : Nat) : Prop :=
  ∃ r, s.recs p = some r ∧ r.phase ≠ .retired ∧ r.txt = s.texts r.uid ∧ r.data = s.payloads r.uid

structure Publishes (s : Sys) : Prop where
  fresh : ∀ p r, s.recs p = some r → r.uid < s.nextUid
  inj : ∀ p q r r', s.recs p = some r → s.recs q = some r' → r.uid = r'.uid → p = q
  fields : ∀ p r, s.recs p = some r → r.phase ≠ .retired →
    r.txt = s.texts r.uid ∧ r.data = s.payloads r.uid

namespace Publishes

theorem count (h : s.Publishes) (hk : KeepsRecs s s') (ht : s'.texts = s.texts)
    (hp : s'.payloads = s.payloads) (hn : s'.nextUid = s.nextUid) : s'.Publishes := by
  have back : ∀ p r', s'.recs p = some r' → ∃ r, s.recs p = some r ∧ Recounted r r' := by
    intro p r' hr'
    rcases hk p with ⟨-, e⟩ | ⟨r, r₁, hr, hr1, hc⟩
    · rw [hr'] at e; cases e
    · rw [hr'] at hr1; cases hr1; exact ⟨r, hr, hc⟩
  refine ⟨fun p r' hr' => ?_, fun p q r' q' hr' hq' e => ?_, fun p r' hr' hph => ?_⟩
  · obtain ⟨r, hr, hc⟩ := back p r' hr'
    rw [hn, hc.uid]
    exact h.fresh p r hr
  · obtain ⟨r, hr, hc⟩ := back p r' hr'
    obtain ⟨r₁, hr1, hc1⟩ := back q q' hq'
    exact h.inj p q r r₁ hr hr1 (by rw [← hc.uid, ← hc1.uid]; exact e)
  · obtain ⟨r, hr, hc⟩ := back p r' hr'
    rw [ht, hp, hc.txt, hc.data, hc.uid]
    exact h.fields p r hr (by rw [← hc.phase]; exact hph)

/-- The record at `x` changes, and perhaps the payload that is published for it. -/
theorem amend (h : s.Publishes) {x : Nat} {r r' : Rec} (hx : s.recs x = some r)
    (hr : s'.recs = Function.update s.recs x (some r')) (ht : s'.texts = s.texts)
    (hp : ∀ u, u ≠ r.uid → s'.payloads u = s.payloads u) (hn : s'.nextUid = s.nextUid)
    (hu : r'.uid = r.uid)
    (hf : r'.phase ≠ .retired → r'.txt = s.texts r.uid ∧ r'.data = s'.payloads r.uid) :
    s'.Publishes := by
  -- every record afterwards has the identity of one before
  have back : ∀ p r₁, s'.recs p = some r₁ →
      (p = x ∧ r₁ = r') ∨ (p ≠ x ∧ s.recs p = some r₁) := by
    intro p r₁ h1
    rw [hr, Function.update_apply] at h1
    split at h1
    next e => cases h1; exact .inl ⟨e, rfl⟩
    next e => exact .inr ⟨e, h1⟩
  have ident : ∀ p r₁, s'.recs p = some r₁ → ∃ r₀, s.recs p = some r₀ ∧ r₀.uid = r₁.uid := by
    intro p r₁ h1
    rcases back p r₁ h1 with ⟨rfl, rfl⟩ | ⟨-, h1⟩
    · exact ⟨r, hx, hu.symm⟩
    · exact ⟨r₁, h1, rfl⟩
  refine ⟨fun p r₁ h1 => ?_, fun p q r₁ r₂ h1 h2 e => ?_, fun p r₁ h1 hph => ?_⟩
  · obtain ⟨r₀, h0, e⟩ := ident p r₁ h1
    rw [hn, ← e]
    exact h.fresh p r₀ h0
  · obtain ⟨q₁, hq1, e1⟩ := ident p r₁ h1
    obtain ⟨q₂, hq2, e2⟩ := ident q r₂ h2
    exact h.inj p q q₁ q₂ hq1 hq2 (by rw [e1, e2, e])
  · rcases back p r₁ h1 with ⟨rfl, rfl⟩ | ⟨hne, h1⟩
    · rw [ht, hu]; exact hf hph
    · have hne' : r₁.uid ≠ r.uid := fun e => hne (h.inj p x r₁ r h1 hx e)
      rw [ht, hp _ hne']
      exact h.fields p r₁ h1 hph

theorem publish (h : s.Publishes) {sql : Bytes} {p : Nat}
    (hr : s'.recs = Function.update s.recs p (some ⟨s.nextUid, sql, none, 1, [.list], .known⟩))
    (ht : s'.texts = Function.update s.texts s.nextUid sql)
    (hp : s'.payloads = Function.update s.payloads s.nextUid none)
    (hn : s'.nextUid = s.nextUid + 1) : s'.Publishes := by
  have back : ∀ q r, s'.recs q = some r →
      (q = p ∧ r = ⟨s.nextUid, sql, none, 1, [.list], .known⟩) ∨ s.recs q = some r := by
    intro q r h1
    rw [hr, Function.update_apply] at h1
    split at h1
    next e => cases h1; exact .inl ⟨e, rfl⟩
    next e => exact .inr h1
  refine ⟨fun q r h1 => ?_, fun q q' r r' h1 h2 e => ?_, fun q r h1 hph => ?_⟩
  · rw [hn]
    rcases back q r h1 with ⟨-, rfl⟩ | h1
    · exact Nat.lt_succ_self _
    · exact Nat.lt_succ_of_lt (h.fresh q r h1)
  · rcases back q r h1 with ⟨e1, rfl⟩ | h1 <;> rcases back q' r' h2 with ⟨e2, rfl⟩ | h2
    · rw [e1, e2]
    · exact absurd e (h.fresh q' r' h2).ne'
    · exact absurd e (h.fresh q r h1).ne
    · exact h.inj q q' r r' h1 h2 e
  · rcases back q r h1 with ⟨-, rfl⟩ | h1
    · rw [ht, hp, Function.update_self, Function.update_self]; exact ⟨rfl, rfl⟩
    · have hne := (h.fresh q r h1).ne
      rw [ht, hp, Function.update_of_ne hne, Function.update_of_ne hne]
      exact h.fields q r h1 hph

theorem reclaim (h : s.Publishes) (p : Nat) : (s.setRec p none).Publishes := by
  have back : ∀ q r, (s.setRec p none).recs q = some r → s.recs q = some r := by
    intro q r h1
    simp only [setRec, Function.update_apply] at h1
    split at h1
    · cases h1
    · exact h1
  exact ⟨fun q r h1 => h.fresh q r (back q r h1),
    fun q q' r r' h1 h2 => h.inj q q' r r' (back q r h1) (back q' r' h2),
    fun q r h1 => h.fields q r (back q r h1)⟩

end Publishes

theorem publishes_step (h : s.Publishes) (hs : s.step l = some s') : s'.Publishes := by
  cases kept_step hs with
  | count hk ht hp hn => exact h.count hk ht hp hn
  | payload p r d hr e ht hp hn =>
    refine h.amend hr e ht (fun u hu => by rw [hp, Function.update_of_ne hu]) hn rfl fun hph => ?_
    exact ⟨(h.fields p r hr hph).1, by rw [hp, Function.update_self]⟩
  | publish sql p _ _ e ht hp hn => exact h.publish e ht hp hn
  | list p r refs owners phase hr hb ha e =>
    rw [e]
    exact h.amend hr rfl rfl (fun _ _ => rfl) rfl rfl fun _ => h.fields p r hr hb
  | retire p r refs owners hr _ e =>
    rw [e]
    exact h.amend hr rfl rfl (fun _ _ => rfl) rfl rfl fun hph => absurd rfl hph
  | reclaim p r _ _ e => rw [e]; exact h.reclaim p

theorem publishes_start (pipes : Nat) : (start pipes).Publishes := by
  constructor <;> simp [start]

/-! ### Requests in the queues -/

/-- A step keeps a record in use, unless it retires it. -/
theorem live_step {p : Nat} (h : s.live p) (hs : s.step l = some s') :
    s'.live p ∨ l = .collect p ∨
      l = .drop p ∧ ∃ r, s.recs p = some r ∧ r.phase = .removing ∧ r.refs - 1 = 0 := by
  obtain ⟨r, hr, hph⟩ := h
  -- the record that changed is another one, or stays in use
  have upd : ∀ {x : Nat} {o : Option Rec}, s'.recs = Function.update s.recs x o →
      (p = x → ∃ r', o = some r' ∧ r'.phase ≠ .retired) → s'.live p := fun {x o} e hx => by
    rw [live, e, Function.update_apply]
    split
    next ep => obtain ⟨r', e', hr'⟩ := hx ep; exact ⟨r', e', hr'⟩
    next => exact ⟨r, hr, hph⟩
  cases kept_step hs with
  | count hk _ _ _ =>
    left
    rcases hk p with ⟨e, -⟩ | ⟨r₀, r', h0, h1, hc⟩
    · rw [hr] at e; cases e
    · rw [hr] at h0; cases h0
      exact ⟨r', h1, by rw [hc.phase]; exact hph⟩
  | payload x r' d hr' e _ _ _ =>
    refine .inl (upd e fun ep => ⟨_, rfl, ?_⟩)
    rw [← ep, hr] at hr'; cases hr'
    exact hph
  | publish sql x hx _ e _ _ _ => exact .inl (upd e fun _ => ⟨_, rfl, by simp⟩)
  | list x r' refs owners phase _ _ ha e =>
    exact .inl (upd (by rw [e]; rfl) fun _ => ⟨_, rfl, ha⟩)
  | retire x r' refs owners hr' hl e =>
    by_cases ep : p = x
    · subst ep
      rw [hr] at hr'; cases hr'
      rcases hl with ⟨hl, hrem, h0⟩ | hl
      · exact .inr (.inr ⟨hl, r, hr, hrem, h0⟩)
      · exact .inr (.inl hl)
    · exact .inl (upd (by rw [e]; rfl) fun h => absurd h ep)
  | reclaim x r' hr' hb e =>
    refine .inl (upd (by rw [e]; rfl) fun ep => ?_)
    rw [← ep, hr] at hr'; cases hr'
    exact absurd hb hph

/-- A pipe with a request in its queue points at a record in use. -/
def Backed (s : Sys) : Prop := ∀ k p, s.queue k ≠ [] → s.stmt k = some p → s.live p

theorem Counted.live_of_held {c : Nat} {t : Target} (h : s.Counted)
    (hc : (s.pc c).holds? = some t) : s.live t.ptr := h.live (h.holds c t hc)

theorem backed_step (h : s.Backed) (hc : s.Counted) (hpair : s.Paired) (ht : s.Unqueued l)
    (hs : s.step l = some s') : s'.Backed := by
  intro k p hq hst
  -- a record that a queue depends on is not retired by a settled step
  have keep : s.queue k ≠ [] → s.stmt k = some p → s'.live p := fun hq hst => by
    rcases live_step (h k p hq hst) hs with hl | rfl | ⟨rfl, r, hr, hph, h0⟩
    · exact hl
    · exact absurd (ht k hst) hq
    · exact absurd (ht ⟨r, hr, by rw [← UInt32.sub_add_cancel r.refs 1, h0]; rfl⟩ k hst) hq
  have held : ∀ {c t}, (s.pc c).holds? = some t → s'.recs = s.recs → s'.live t.ptr := fun hh e => by
    rw [live, e]; exact hc.live_of_held hh
  cases piped_step hs with
  | same hq' hst' _ => rw [hq'] at hq; rw [hst'] at hst; exact keep hq hst
  | claim c ok t key _ hpc hq' hr hst' _ =>
    rw [hst', Function.update_apply] at hst
    split at hst
    next => cases hst; exact held (by rw [hpc]; rfl) hr
    next => rw [hq'] at hq; exact keep hq hst
  | post c t key k' kind hpc hi hr hst' _ hq' =>
    rw [hst'] at hst
    rw [hq', Function.update_apply] at hq
    split at hq
    next e =>
      have hk := hpair c key (by rw [hpc]; rfl)
      rw [hi] at hk; cases hk
      rw [e, hc.claims c t key (by rw [hpc]; rfl)] at hst
      cases hst
      exact held (by rw [hpc]; rfl) hr
    next => exact keep hq hst
  | serve key req hv =>
    obtain ⟨rest, hqk, hq'⟩ := hv.queue
    rw [hv.frame] at hst
    rw [hq', Function.update_apply] at hq
    split at hq
    next e => exact keep (by rw [e, hqk]; simp) hst
    next => exact keep hq hst

/-- What holds along every settled run. -/
structure Orderly (s : Sys) : Prop where
  exclusive : s.Exclusive
  paired : s.Paired
  counted : s.Counted
  publishes : s.Publishes
  backed : s.Backed

theorem orderly_step (h : s.Orderly) (ht : s.Settled l) (hs : s.step l = some s') : s'.Orderly :=
  ⟨exclusive_step h.exclusive ht.abandoned hs, paired_step h.paired hs,
    counted_step h.counted h.exclusive.key_inj ht.unsought ht.unwrapped hs,
    publishes_step h.publishes hs, backed_step h.backed h.counted h.paired ht.unqueued hs⟩

theorem orderly_start (pipes : Nat) : (start pipes).Orderly :=
  ⟨exclusive_start pipes, paired_start pipes, counted_start pipes, publishes_start pipes,
    fun _ _ hq => absurd rfl hq⟩

/-- Serving has a defined outcome in every orderly state. -/
theorem Orderly.serve_isSome (h : s.Orderly) {k : Nat} (hq : s.queue k ≠ []) (env : Env) :
    (s.serve k env).isSome := by
  unfold serve
  split
  next e => exact absurd e hq
  next req rest e =>
    unfold answer
    split
    · rfl
    next body p _ hst =>
      obtain ⟨r, hr, hph⟩ := h.backed k p hq hst
      simp only [hr, if_neg hph, Option.isSome_some]
    · split
      · rfl
      · split
        · rfl
        next p hst =>
          obtain ⟨r, hr, hph⟩ := h.backed k p hq hst
          simp only [hr, if_neg hph, Option.isSome_some]

/-- Steps that can retire a record, reuse its memory or free the lock. -/
def Label.frees : Label → Bool
  | .drop _ | .collect _ | .reclaim _ | .breakLock => true
  | _ => false

theorem settled_of_not_frees {ls : List Label} {s : Sys} (h : ∀ l ∈ ls, Label.frees l = false) :
    Along step Settled s ls := by
  refine along_of_forall ?_
  intro l hm v
  have hl := h l hm
  cases l <;> first | exact ⟨trivial, trivial, trivial, trivial⟩ | cases hl

/-- What keeps a STORE with its statement: a claim never redirects a pipe on which a STORE for another
    record is queued. -/
def Undisturbed (s : Sys) : Label → Prop
  | .next c _ => ∀ x ∈ (s.pc c).claiming?, ∀ req ∈ s.queue x.2, req.kind = .lookup ∨ req.uid = x.1.uid
  | _ => True

instance (s : Sys) : (l : Label) → Decidable (s.Undisturbed l)
  | .next c _ => inferInstanceAs (Decidable (∀ x ∈ (s.pc c).claiming?, ∀ req ∈ s.queue x.2,
      req.kind = .lookup ∨ req.uid = x.1.uid))
  | .acquire .. | .lookupPayload .. | .askLookup .. | .askStore .. | .takeReply .. | .giveUp ..
  | .die .. | .serve .. | .publish .. | .unpublish .. | .drop .. | .collect .. | .reclaim ..
  | .breakLock => .isTrue trivial

structure Routed (s : Sys) : Prop where
  queued : ∀ k, ∀ req ∈ s.queue k, req.kind ≠ .lookup →
    ∃ p r, s.stmt k = some p ∧ s.recs p = some r ∧ r.uid = req.uid
  stored : ∀ x ∈ s.stored, x.1 = x.2.uid

/-- A record keeps its identity until its memory is reused. -/
theorem uid_step {p : Nat} {r : Rec} (hr : s.recs p = some r) (hph : r.phase ≠ .retired)
    (hs : s.step l = some s') : ∃ r', s'.recs p = some r' ∧ r'.uid = r.uid := by
  have upd : ∀ {x : Nat} {o : Option Rec}, s'.recs = Function.update s.recs x o →
      (p = x → ∃ r', o = some r' ∧ r'.uid = r.uid) →
      ∃ r', s'.recs p = some r' ∧ r'.uid = r.uid := fun {x o} e hx => by
    rw [e, Function.update_apply]
    split
    next ep => exact hx ep
    next => exact ⟨r, hr, rfl⟩
  cases kept_step hs with
  | count hk _ _ _ =>
    rcases hk p with ⟨e, -⟩ | ⟨r₀, r', h0, h1, hc⟩
    · rw [hr] at e; cases e
    · rw [hr] at h0; cases h0
      exact ⟨r', h1, hc.uid⟩
  | payload x r' d hr' e _ _ _ =>
    refine upd e fun ep => ⟨_, rfl, ?_⟩
    rw [← ep, hr] at hr'; cases hr'
    rfl
  | publish sql x hx _ e _ _ _ =>
    refine upd e fun ep => ?_
    rw [← ep, hr] at hx; cases hx
  | list x r' refs owners phase hr' _ _ e | retire x r' refs owners hr' _ e =>
    refine upd (by rw [e]; rfl) fun ep => ⟨_, rfl, ?_⟩
    rw [← ep, hr] at hr'; cases hr'
    rfl
  | reclaim x r' hr' hb e =>
    refine upd (by rw [e]; rfl) fun ep => ?_
    rw [← ep, hr] at hr'; cases hr'
    exact absurd hb hph

theorem routed_step (h : s.Routed) (ho : s.Orderly) (hu : s.Undisturbed l)
    (hs : s.step l = some s') : s'.Routed := by
  -- a queued STORE keeps its record while its pipe is not redirected
  have keep : ∀ {k req}, req ∈ s.queue k → req.kind ≠ .lookup → s'.stmt k = s.stmt k →
      ∃ p r, s'.stmt k = some p ∧ s'.recs p = some r ∧ r.uid = req.uid := fun {k req} hq hk e => by
    obtain ⟨p, r, hst, hr, hu⟩ := h.queued k req hq hk
    obtain ⟨r₀, h0, hph⟩ := ho.backed k p (List.ne_nil_of_mem hq) hst
    rw [hr] at h0; cases h0
    obtain ⟨r', hr', e'⟩ := uid_step hr hph hs
    exact ⟨p, r', e.trans hst, hr', e'.trans hu⟩
  have own : ∀ {c t}, (s.pc c).holds? = some t → s'.recs = s.recs →
      ∃ r, s'.recs t.ptr = some r ∧ r.uid = t.uid := fun {c t} hh e => by
    obtain ⟨r, hr, hu, -⟩ := ho.counted.holds c t hh
    exact ⟨r, by rw [e]; exact hr, hu⟩
  cases piped_step hs with
  | same hq hst hstored =>
    refine ⟨fun k req hr hk => ?_, by rw [hstored]; exact h.stored⟩
    rw [hq] at hr
    exact keep hr hk (by rw [hst])
  | claim c ok t key hl hpc hq hrecs hst hstored =>
    refine ⟨fun k req hr hk => ?_, by rw [hstored]; exact h.stored⟩
    rw [hq] at hr
    by_cases e : k = key
    · subst e
      subst hl
      have hreq := (hu (t, k) (by rw [hpc]; rfl) req hr).resolve_left hk
      obtain ⟨r, hr', hu'⟩ := own (c := c) (t := t) (by rw [hpc]; rfl) hrecs
      exact ⟨t.ptr, r, by rw [hst, Function.update_self], hr', hu'.trans hreq.symm⟩
    · exact keep hr hk (by rw [hst, Function.update_of_ne e])
  | post c t key k' kind hpc hi hrecs hst hstored hq =>
    refine ⟨fun k req hr hk => ?_, by rw [hstored]; exact h.stored⟩
    have hkey := ho.paired c key (by rw [hpc]; rfl)
    rw [hi] at hkey; cases hkey
    rw [hq, Function.update_apply] at hr
    split at hr
    next e =>
      subst e
      rcases List.mem_append.mp hr with hr | hr
      · exact keep hr hk (by rw [hst])
      · rw [List.mem_singleton.mp hr]
        obtain ⟨r, hr', hu'⟩ := own (c := c) (t := t) (by rw [hpc]; rfl) hrecs
        exact ⟨t.ptr, r, by rw [hst]; exact ho.counted.claims c t _ (by rw [hpc]; rfl), hr', hu'⟩
    next => exact keep hr hk (by rw [hst])
  | serve key req hv =>
    obtain ⟨rest, hqk, hq⟩ := hv.queue
    have hst : s'.stmt = s.stmt := by rw [hv.frame]
    refine ⟨fun k req' hr hk => ?_, fun x hx => ?_⟩
    · refine keep ?_ hk (by rw [hst])
      rw [hq, Function.update_apply] at hr
      split at hr
      next e => rw [e, hqk]; exact List.mem_cons_of_mem _ hr
      next => exact hr
    · rcases hv.stored with e | ⟨p, r, body, hkind, hst, hr, e⟩
      · exact h.stored x (e ▸ hx)
      · rw [e] at hx
        rcases List.mem_cons.mp hx with rfl | hx
        · obtain ⟨p', r', hst', hr', hu'⟩ :=
            h.queued key req (by rw [hqk]; exact List.mem_cons_self) (by rw [hkind]; simp)
          rw [hst] at hst'; cases hst'
          rw [hr] at hr'; cases hr'
          exact hu'
        · exact h.stored x hx

/-- In every settled run in which no claim redirects a pipe over a queued STORE for another record,
    every body the daemon publishes goes to the record its poster's `acquire` resolved. -/
theorem stored_under_own_statement (pipes : Nat) (ls : List Label) (s : Sys)
    (hrun : run step (start pipes) ls = some s) (hsettled : Along step Settled (start pipes) ls)
    (hundisturbed : Along step Undisturbed (start pipes) ls) :
    ∀ x ∈ s.stored, x.1 = x.2.uid := by
  obtain ⟨-, h⟩ : s.Orderly ∧ s.Routed :=
    run_inv_along (I := fun s => s.Orderly ∧ s.Routed)
      (fun _ _ _ ⟨ho, hr⟩ ⟨ht, hu⟩ hs => ⟨orderly_step ho ht hs, routed_step hr ho hu hs⟩)
      ⟨orderly_start pipes, by constructor <;> simp [start]⟩ (hsettled.and hundisturbed) hrun
  exact h.stored

theorem stored_under_own_statement_sample :
    ∃ s, run step (start 1) (.publish [83] 100 :: acquiring 0 [83] ++
        [.askStore 0 oneRow true] ++ releasing 0 ++ [.serve 0 ⟨true, some none, true, true⟩]) = some s ∧
      s.stored = [(0, ⟨.store oneRow, 0, 0, 0⟩)] ∧ ∀ x ∈ s.stored, x.1 = x.2.uid := by
  refine exists_run_of_map Sys.stored [(0, ⟨.store oneRow, 0, 0, 0⟩)] (by decide +kernel) ?_
  intro s hs hst
  refine ⟨hst, stored_under_own_statement 1 _ s hs ?_ (by decide +kernel)⟩
  exact settled_of_not_frees (by decide)

/-- Client 0 posts a STORE for statement `S` and releases the pipe; client 1 takes it for statement
    `T`; the daemon then publishes the response to `S` as the payload of `T`. -/
theorem stored_under_other_statement :
    ∃ s, run step (start 1) ([.publish [83] 100, .publish [84] 200] ++ acquiring 0 [83] ++
        [.askStore 0 oneRow true] ++ releasing 0 ++ acquiring 1 [84] ++
        [.serve 0 ⟨true, some none, true, true⟩]) = some s ∧
      s.stored = [(1, ⟨.store oneRow, 0, 0, 0⟩)] ∧
      (s.recs 200).map (fun r => (r.txt, r.data)) = some ([84], some oneRow) := by
  refine exists_run_of_map (fun s => (s.stored, (s.recs 200).map fun r => (r.txt, r.data)))
    ([(1, ⟨.store oneRow, 0, 0, 0⟩)], some ([84], some oneRow)) (by decide +kernel) ?_
  intro s _ he
  exact Prod.mk.inj he

end Sys

end Barnacle.Pipes
