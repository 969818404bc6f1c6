import Barnacle.Pipes.Requests

/-! When a record is retired. The daemon calls `retireStmt` from `loadStatements`, when the list's own
    reference was the last one, and from `collectOrphans`, when it finds the count at zero. Either way
    nobody has a reference left, and nobody gets one afterwards, unless the count, which has 32 bits, has
    come round: then a record is retired while clients hold it. -/

namespace Barnacle.Pipes
open Barnacle.Lib

/-- The calls that a client makes with a reference and that may fail: the two updates that splice its
    socket, and the lookup through which `release` finds what to put back. -/
def Pc.risks : Pc → Bool
  | splice .. | pair .. | relRead .. => true
  | _ => false

/-- The record the client is taking a reference on. -/
def Pc.takes? : Pc → Option Target
  | getRef t _ | peekGet t => some t
  | _ => none

namespace Sys

variable {s s' : Sys} {l : Label} {c p q : Nat}

/-! ### What a client's step does to the counts -/

theorem get_other {lucky : Bool} (h : s.bncl_stmt_get c p lucky = some s') (hq : q ≠ p) :
    s'.recs q = s.recs q := by
  unfold bncl_stmt_get at h
  split at h <;> split at h <;> cases h
  · rfl
  · exact Function.update_of_ne hq ..

theorem put_other (o : Owner) (hq : q ≠ p) : (s.bncl_stmt_put o p).recs q = s.recs q := by
  unfold bncl_stmt_put
  split
  · rfl
  · exact Function.update_of_ne hq ..

theorem forget_other (hq : q ≠ p) : (s.forget c p).recs q = s.recs q := by
  unfold forget
  split
  · rfl
  · exact Function.update_of_ne hq ..

/-- A client's step leaves the counts alone, takes a reference, gives it back or forgets it. -/
inductive Counting (s s' : Sys) (c : Nat) (ok : Bool) : Prop
  | same (recs : s'.recs = s.recs)
      (holds : (s'.pc c).holds? = (s.pc c).holds? ∨ ∃ t k, s.pc c = .relPut t k none)
  | get (t : Target) (s₁ : Sys) (takes : (s.pc c).takes? = some t)
      (got : s.bncl_stmt_get c t.ptr ok = some s₁) (recs : s'.recs = s₁.recs)
      (before : (s.pc c).holds? = none) (holds : (s'.pc c).holds? = some t)
  | put (t : Target) (p : Nat) (before : (s.pc c).holds? = some t)
      (which : p = t.ptr ∨ ∃ k, s.pc c = .relPut t k (some p))
      (recs : s'.recs = (s.bncl_stmt_put (.client c) p).recs) (holds : (s'.pc c).holds? = none)
  | forget (t : Target) (risky : (s.pc c).risks = true) (failed : ok = false)
      (before : (s.pc c).holds? = some t)
      (recs : s'.recs = (s.forget c t.ptr).recs) (holds : (s'.pc c).holds? = none)

theorem seeks_of_takes {q : Pc} {t : Target} (h : q.takes? = some t) : q.seeks? = some t := by
  cases q <;> simp_all [Pc.takes?, Pc.seeks?]

theorem counting_next {ok : Bool} (hs : s.next c ok = some s') : Counting s s' c ok := by
  have here : ∀ (s₁ : Sys) (q : Pc), (s₁.goto c q).pc c = q := fun s₁ q => Function.update_self ..
  -- the client moves on to `q`; whether it has a reference does not change
  have quiet : ∀ {s₁ : Sys} {q : Pc}, s₁.recs = s.recs → q.holds? = (s.pc c).holds? →
      Counting s (s₁.goto c q) c ok := by
    intro s₁ q hr hq
    exact .same hr (.inl (by rw [here]; exact hq))
  have failed : ∀ {b : Bool}, ¬b = true → b = false := by simp
  cases hpc : s.pc c <;> simp only [next, hpc] at hs
  case idle | dead | held | waiting => cases hs
  case locking | pushLock =>
    split at hs <;> [skip; split at hs] <;> cases hs <;> exact quiet rfl (by rw [hpc]; rfl)
  case popMeta | popSlot | popWrite | readPipe | pushMeta | pushSlot | pushWrite =>
    split at hs <;> cases hs <;> exact quiet rfl (by rw [hpc]; rfl)
  case getRef t key | peekGet t =>
    split at hs <;> cases hs
    · exact quiet rfl (by rw [hpc]; rfl)
    · rename_i s₁ hg
      exact .get t s₁ (by rw [hpc]; rfl) hg rfl (by rw [hpc]; rfl) (by rw [here]; rfl)
  case splice t key | pair t key | relRead t key =>
    split at hs <;> cases hs
    · exact quiet rfl (by rw [hpc]; rfl)
    · rename_i hok
      exact .forget t (by rw [hpc]; rfl) (failed hok) (by rw [hpc]; rfl) rfl (by rw [here]; rfl)
  case relPut t key stmt =>
    cases stmt <;> cases hs
    · exact .same rfl (.inr ⟨t, key, hpc⟩)
    · exact .put t _ (by rw [hpc]; rfl) (.inr ⟨key, hpc⟩) rfl (by rw [here]; rfl)
  case peek t =>
    cases hs
    exact .put t t.ptr (by rw [hpc]; rfl) (.inl rfl) rfl (by rw [here]; rfl)
  all_goals
    cases hs
    exact quiet rfl (by rw [hpc]; rfl)

/-- What a client gives back is what it has. -/
theorem Counted.gives_back (h : s.Counted) {t : Target}
    (hw : p = t.ptr ∨ ∃ k, s.pc c = .relPut t k (some p)) : p = t.ptr := by
  rcases hw with hw | ⟨k, hpc⟩
  · exact hw
  · exact Option.some.inj (h.put c t k _ hpc)

/-! ### The count in range -/

/-- No count has come round. -/
def InRange (s : Sys) : Prop := ∀ p r, s.recs p = some r → r.InRange

/-- `bncl_stmt_get` does not find the count at the largest value it has. -/
def Roomy (s : Sys) : Label → Prop
  | .next c _ => ∀ t ∈ (s.pc c).takes?, ∀ r ∈ s.recs t.ptr, r.refs + 1 ≠ 0
  | _ => True

instance (s : Sys) : (l : Label) → Decidable (s.Roomy l)
  | .next c _ => inferInstanceAs (Decidable (∀ t ∈ (s.pc c).takes?, ∀ r ∈ s.recs t.ptr, r.refs + 1 ≠ 0))
  | .acquire .. | .lookupPayload .. | .askLookup .. | .askStore .. | .takeReply .. | .giveUp .. | .die ..
  | .serve .. | .publish .. | .unpublish .. | .drop .. | .collect .. | .reclaim .. | .breakLock => .isTrue trivial

/-- With room for one more in the count there is room for one more owner. -/
theorem Sound.room {r : Rec} (h : Sound r) (hin : r.InRange) (hroom : r.refs + 1 ≠ 0) (o : Owner) :
    (o :: r.owners).length < 2 ^ 32 := by
  have hlt : r.owners.length < 2 ^ 32 := hin
  rw [h.one_more o] at hroom
  by_contra hge
  rw [List.length_cons] at hge hroom
  exact hroom (by rw [show r.owners.length + 1 = 2 ^ 32 by omega]; rfl)

theorem InRange.amend (h : s.InRange) {x : Nat} {r r' : Rec} (hx : s.recs x = some r)
    (hr : s'.recs = Function.update s.recs x (some r')) (hle : r'.owners.length ≤ r.owners.length) : s'.InRange := by
  intro q r₁ h1
  rw [hr, Function.update_apply] at h1
  split at h1
  next => cases h1; exact Nat.lt_of_le_of_lt hle (h x r hx)
  next => exact h q r₁ h1

theorem InRange.congr (h : s.InRange) (hr : s'.recs = s.recs) : s'.InRange := by
  rw [InRange, hr]
  exact h

theorem inRange_step (h : s.InRange) (hc : s.Counted) (hroom : s.Roomy l) (hs : s.step l = some s') : s'.InRange := by
  cases l <;> simp only [step, askLookup, askStore] at hs
  case acquire c sql | lookupPayload c sql =>
    obtain ⟨-, rfl | ⟨x, -, rfl⟩⟩ := resolve_cases hs <;> exact h.congr rfl
  case next c ok =>
    cases counting_next hs with
    | same hrecs _ => exact h.congr hrecs
    | get t s₁ htakes hg hrecs _ _ =>
      obtain ⟨r, hr, -⟩ := hc.seeks c t (seeks_of_takes htakes)
      have hmore := (hc.sound _ r hr).room (h _ r hr) (hroom t htakes r hr) (.client c)
      rw [bncl_stmt_get, hr] at hg
      dsimp only at hg
      split at hg
      · cases hg
      · cases hg
        intro q r₁ h1
        rw [hrecs] at h1
        simp only [setRec, Function.update_apply] at h1
        split at h1
        next => cases h1; exact hmore
        next => exact h q r₁ h1
    | put t x ht hw hrecs _ =>
      obtain ⟨r, hr, -⟩ := hc.holds c t ht
      obtain rfl := hc.gives_back hw
      rw [bncl_stmt_put, hr] at hrecs
      exact h.amend hr hrecs List.length_erase_le
    | forget t _ _ ht hrecs _ =>
      obtain ⟨r, hr, -, ho⟩ := hc.holds c t ht
      rw [forget, hr] at hrecs
      refine h.amend hr hrecs ?_
      rw [List.length_cons, List.length_erase_of_mem ho, Nat.sub_add_cancel (List.length_pos_of_mem ho)]
  case askLookup c ok | askStore c canonical ok =>
    obtain ⟨t, key, -, rfl | ⟨-, rfl⟩ | ⟨k, -, rfl⟩⟩ := post_cases hs <;> exact h.congr rfl
  case takeReply c => obtain ⟨t, key, num, x, rest, -, -, rfl⟩ := takeReply_cases hs; exact h.congr rfl
  case giveUp c => obtain ⟨t, key, num, -, -, rfl⟩ := giveUp_cases hs; exact h.congr rfl
  case die c => cases hs; exact h.congr rfl
  case serve key env =>
    obtain ⟨req, hv⟩ := serve_cases hs
    rcases hv.recs with ⟨e, -⟩ | ⟨x, r₀, d, -, hx, -, e, -⟩
    · exact h.congr e
    · exact h.amend hx e (Nat.le_refl _)
  case publish sql x =>
    obtain ⟨hx, rfl⟩ := publish_cases hs
    intro q r₁ h1
    simp only [Function.update_apply] at h1
    split at h1
    next => cases h1; exact (by decide : 1 < 2 ^ 32)
    next => exact h q r₁ h1
  case unpublish sql => obtain ⟨x, r₀, -, hx, -, rfl⟩ := unpublish_cases hs; exact h.amend hx rfl (Nat.le_refl _)
  case drop x =>
    obtain ⟨r₀, hx, -, ⟨-, rfl⟩ | ⟨-, rfl⟩⟩ := drop_cases hs <;> exact h.amend hx rfl List.length_erase_le
  case collect x => obtain ⟨r₀, hx, -, -, rfl⟩ := collect_cases hs; exact h.amend hx rfl (Nat.le_refl _)
  case reclaim x =>
    obtain ⟨r₀, hx, -, rfl⟩ := reclaim_cases hs
    intro q r₁ h1
    simp only [setRec, Function.update_apply] at h1
    split at h1
    · cases h1
    · exact h q r₁ h1
  case breakLock => obtain ⟨c, -, rfl⟩ := breakLock_cases hs; exact h.congr rfl

theorem inRange_start (pipes : Nat) : (start pipes).InRange := by
  intro p r hr
  cases hr

theorem InRange.unwrapped (h : s.InRange) : s.Unwrapped l := by
  cases l <;> first | exact fun r hr => h _ r hr | trivial

/-- A count in range is zero only when nobody is counted. -/
theorem Counted.refs_ne_zero (h : s.Counted) (hin : s.InRange) {r : Rec} (hr : s.recs p = some r) {o : Owner}
    (ho : o ∈ r.owners) : r.refs ≠ 0 := by
  intro h0
  rw [(h.sound p r hr).refs] at h0
  rw [nil_of_count (hin p r hr) h0] at ho
  cases ho

/-! ### Nothing comes back from zero -/

/-- The record at `p` is the one numbered `u`, and its count is zero. -/
def Spent (s : Sys) (p u : Nat) : Prop := ∃ r, s.recs p = some r ∧ r.uid = u ∧ r.refs = 0

theorem spent_next {u : Nat} {ok : Bool} (h : s.Counted) (hin : s.InRange) (hp : s.Spent p u)
    (hs : s.next c ok = some s') : s'.Spent p u := by
  obtain ⟨r, hr, hu, h0⟩ := hp
  -- whoever has a reference has it on another record
  have other : ∀ {t : Target}, (s.pc c).holds? = some t → p ≠ t.ptr := by
    rintro t ht rfl
    exact h.refs_ne_zero hin hr (Counted.owner (h.holds c t ht) r hr) h0
  cases counting_next hs with
  | same hrecs _ => exact ⟨r, by rw [hrecs]; exact hr, hu, h0⟩
  | get t s₁ _ hg hrecs _ _ =>
    refine ⟨r, ?_, hu, h0⟩
    by_cases e : p = t.ptr
    · subst e
      rw [bncl_stmt_get, hr] at hg
      simp only [if_pos h0] at hg
      cases hg
    · rw [hrecs, get_other hg e]
      exact hr
  | put t x ht hw hrecs _ =>
    refine ⟨r, ?_, hu, h0⟩
    rw [hrecs, h.gives_back hw, put_other _ (other ht)]
    exact hr
  | forget t _ _ ht hrecs _ =>
    refine ⟨r, ?_, hu, h0⟩
    rw [hrecs, forget_other (other ht)]
    exact hr

/-- The daemon reuses the memory of no record. -/
def Label.reclaims : Label → Bool
  | .reclaim _ => true
  | _ => false

theorem unsought_of_not_reclaims (h : Label.reclaims l = false) (s : Sys) : s.Unsought l := by
  cases l <;> trivial

theorem spent_step {u : Nat} (h : s.Counted) (hin : s.InRange) (hp : s.Spent p u)
    (hl : Label.reclaims l = false) (hs : s.step l = some s') : s'.Spent p u := by
  obtain ⟨r, hr, hu, h0⟩ := hp
  -- the record at `x` is changed into one with the same number, and its count stays at zero
  have upd : ∀ {x : Nat} {r₀ r' : Rec}, s.recs x = some r₀ →
      s'.recs = Function.update s.recs x (some r') → r'.uid = r₀.uid → (r₀.refs = 0 → r'.refs = 0) →
      s'.Spent p u := by
    intro x r₀ r' hx e hu' hzero
    by_cases ep : p = x
    · subst ep
      rw [hr] at hx
      cases hx
      exact ⟨r', by rw [e, Function.update_self], hu'.trans hu, hzero h0⟩
    · exact ⟨r, by rw [e, Function.update_of_ne ep]; exact hr, hu, h0⟩
  have same : s'.recs = s.recs → s'.Spent p u := fun e => ⟨r, by rw [e]; exact hr, hu, h0⟩
  cases l <;> simp only [step, askLookup, askStore] at hs
  case acquire c sql | lookupPayload c sql =>
    obtain ⟨-, rfl | ⟨x, -, rfl⟩⟩ := resolve_cases hs <;> exact same rfl
  case next c ok => exact spent_next h hin ⟨r, hr, hu, h0⟩ hs
  case askLookup c ok | askStore c canonical ok =>
    obtain ⟨t, key, -, rfl | ⟨-, rfl⟩ | ⟨k, -, rfl⟩⟩ := post_cases hs <;> exact same rfl
  case takeReply c => obtain ⟨t, key, num, x, rest, -, -, rfl⟩ := takeReply_cases hs; exact same rfl
  case giveUp c => obtain ⟨t, key, num, -, -, rfl⟩ := giveUp_cases hs; exact same rfl
  case die c => cases hs; exact same rfl
  case serve key env =>
    obtain ⟨req, hv⟩ := serve_cases hs
    rcases hv.recs with ⟨e, -⟩ | ⟨x, r₀, d, -, hx, -, e, -⟩
    · exact same e
    · exact upd hx e rfl id
  case publish sql x =>
    obtain ⟨hx, rfl⟩ := publish_cases hs
    have hne : p ≠ x := by
      rintro rfl
      rw [hr] at hx
      cases hx
    exact ⟨r, (Function.update_of_ne hne ..).trans hr, hu, h0⟩
  case unpublish sql =>
    obtain ⟨x, r₀, -, hx, -, rfl⟩ := unpublish_cases hs
    exact upd hx rfl rfl id
  case drop x =>
    -- the list is counted until now
    obtain ⟨r₀, hx, hph, ⟨-, rfl⟩ | ⟨-, rfl⟩⟩ := drop_cases hs <;>
      exact upd hx rfl rfl fun e => absurd e (h.refs_ne_zero hin hx ((h.sound _ _ hx).listed (.inr hph)))
  case collect x =>
    obtain ⟨r₀, hx, -, -, rfl⟩ := collect_cases hs
    exact upd hx rfl rfl id
  case reclaim x => cases hl
  case breakLock => obtain ⟨c, -, rfl⟩ := breakLock_cases hs; exact same rfl

/-! ### Calls of `retireStmt` -/

/-- The record that the step calls `retireStmt` on, if it does. -/
def retiring (s : Sys) : Label → Option Nat
  | .drop p => (s.recs p).bind fun r =>
      if r.phase = .removing ∧ r.refs - 1 = 0 then some r.uid else none
  | .collect p => (s.recs p).bind fun r =>
      if r.phase = .orphan ∧ r.refs = 0 then some r.uid else none
  | _ => none

/-- The calls a run makes, in order. -/
def retirements : Sys → List Label → List Nat
  | _, [] => []
  | s, l :: ls =>
    (s.retiring l).toList ++
      match s.step l with
      | none => []
      | some s' => retirements s' ls

/-- The record numbered `u` has been retired. -/
def Retired (s : Sys) (u : Nat) : Prop := ∃ p r, s.recs p = some r ∧ r.uid = u ∧ r.phase = .retired

/-- The state right after a call: the record is retired, its count is zero and it has no owner. -/
theorem retiring_cases {u : Nat} (h : s.Counted) (hin : s.InRange) (hu : s.retiring l = some u)
    (hs : s.step l = some s') :
    s'.pc = s.pc ∧ ∃ p r r', s.recs p = some r ∧ r.uid = u ∧ r.phase ≠ .retired ∧
      s'.recs p = some r' ∧ r'.uid = u ∧ r'.phase = .retired ∧ r'.refs = 0 ∧ r'.owners = [] := by
  cases l <;> simp only [retiring, reduceCtorEq] at hu
  case drop p =>
    obtain ⟨r, hr, hu⟩ := Option.bind_eq_some_iff.mp hu
    split at hu
    next hk =>
      cases hu
      obtain ⟨r₀, hr₀, hph, ⟨h0, rfl⟩ | ⟨h0, -⟩⟩ := drop_cases hs
      · rw [hr] at hr₀
        cases hr₀
        have hsound := h.sound p r hr
        have hless := hsound.one_less (hsound.listed (.inr hph))
        refine ⟨rfl, p, r, _, hr, rfl, by rw [hph]; simp, Function.update_self .., rfl, rfl, h0, ?_⟩
        exact nil_of_count (Nat.lt_of_le_of_lt List.length_erase_le (hin p r hr)) (hless ▸ h0)
      · rw [hr] at hr₀
        cases hr₀
        exact absurd hk.2 h0
    next => cases hu
  case collect p =>
    obtain ⟨r, hr, hu⟩ := Option.bind_eq_some_iff.mp hu
    split at hu
    next hk =>
      cases hu
      obtain ⟨r₀, hr₀, hph, h0, rfl⟩ := collect_cases hs
      rw [hr] at hr₀
      cases hr₀
      have hsound := h.sound p r hr
      refine ⟨rfl, p, r, _, hr, rfl, by rw [hph]; simp, Function.update_self .., rfl, rfl, h0, ?_⟩
      exact nil_of_count (hin p r hr) (hsound.refs ▸ h0)
    next => cases hu

/-- Retired is for good, as long as the memory is not reused. -/
theorem retired_step {u : Nat} (hc : s.Counted) (hin : s.InRange) (h : s.Retired u)
    (hl : Label.reclaims l = false) (hs : s.step l = some s') : s'.Retired u := by
  obtain ⟨p, r, hr, hu, hph⟩ := h
  have upd : ∀ {x : Nat} {r₀ r' : Rec}, s.recs x = some r₀ →
      s'.recs = Function.update s.recs x (some r') →
      (r₀.phase = .retired → r'.uid = r₀.uid ∧ r'.phase = .retired) → s'.Retired u := by
    intro x r₀ r' hx e hk
    by_cases ep : p = x
    · subst ep
      rw [hr] at hx
      cases hx
      exact ⟨p, r', by rw [e, Function.update_self], (hk hph).1.trans hu, (hk hph).2⟩
    · exact ⟨p, r, by rw [e, Function.update_of_ne ep]; exact hr, hu, hph⟩
  cases kept_step hs with
  | count hk _ _ _ =>
    rcases hk p with ⟨e, -⟩ | ⟨r₀, r', h0, h1, hc⟩
    · rw [hr] at e
      cases e
    · rw [hr] at h0
      cases h0
      exact ⟨p, r', h1, hc.uid.trans hu, hc.phase.trans hph⟩
  | payload x r₀ d hx e _ _ _ => exact upd hx e fun hk => ⟨rfl, hk⟩
  | publish sql x hx _ e _ _ _ =>
    have hne : p ≠ x := by
      rintro rfl
      rw [hr] at hx
      cases hx
    exact ⟨p, r, by rw [e, Function.update_of_ne hne]; exact hr, hu, hph⟩
  | list x r₀ refs owners phase hx hb _ e => exact upd hx (by rw [e]; rfl) fun hk => absurd hk hb
  | retire x r₀ refs owners hx _ e =>
    have e' : s'.recs = Function.update s.recs x (some { r₀ with
        refs := refs, owners := owners, data := none, txt := [], phase := .retired }) := by
      rw [e]
      rfl
    exact upd hx e' fun _ => ⟨rfl, rfl⟩
  | reclaim x r₀ hx _ e =>
    -- not a step that reuses memory: the record is still there
    obtain ⟨r', hr', -, -⟩ := spent_step hc hin ⟨r, hr, hu, (hc.sound p r hr).refs_retired hph⟩ hl hs
    have e' : s'.recs = Function.update s.recs x none := by rw [e]; rfl
    have hne : p ≠ x := by
      rintro rfl
      rw [e', Function.update_self] at hr'
      cases hr'
    exact ⟨p, r, by rw [e', Function.update_of_ne hne]; exact hr, hu, hph⟩

/-! ### Every run -/

/-- What the statements below need of a reachable state. -/
structure Regular (s : Sys) : Prop where
  counted : s.Counted
  inRange : s.InRange
  publishes : s.Publishes

theorem regular_step (h : s.Regular) (hx : s.OneHolder) (hu : s.Unsought l) (hr : s.Roomy l)
    (hs : s.step l = some s') : s'.Regular :=
  ⟨counted_step h.counted hx hu h.inRange.unwrapped hs, inRange_step h.inRange h.counted hr hs,
    publishes_step h.publishes hs⟩

theorem regular_start (pipes : Nat) : (start pipes).Regular :=
  ⟨counted_start pipes, inRange_start pipes, publishes_start pipes⟩

/-- Every key has one holder at a time, and the reference that is taken still fits into the count. -/
structure Bounded (s : Sys) (l : Label) : Prop where
  one_holder : s.OneHolder
  roomy : s.Roomy l

/-- From any regular state on, no record is retired twice, nor one that was retired before. -/
theorem retirements_nodup (ls : List Label) : ∀ {s : Sys}, s.Regular →
    (∀ l ∈ ls, Label.reclaims l = false) → Along step Bounded s ls →
    (retirements s ls).Nodup ∧ ∀ u ∈ retirements s ls, ¬s.Retired u := by
  induction ls with
  | nil =>
    intro s _ _ _
    simp [retirements]
  | cons l ls ih =>
    intro s h hl ha
    have hl0 := hl l List.mem_cons_self
    cases hs : s.step l with
    | none =>
      -- a step that cannot be taken calls nothing
      have hnone : s.retiring l = none := by
        cases hr : s.retiring l with
        | none => rfl
        | some u =>
          exfalso
          cases l <;> simp only [retiring, reduceCtorEq] at hr
          case drop p =>
            obtain ⟨r, hp, hr⟩ := Option.bind_eq_some_iff.mp hr
            split at hr
            next hk => simp [step, drop, hp, hk.1, hk.2] at hs
            next => cases hr
          case collect p =>
            obtain ⟨r, hp, hr⟩ := Option.bind_eq_some_iff.mp hr
            split at hr
            next hk => simp [step, collect, hp, hk.1, hk.2] at hs
            next => cases hr
      simp [retirements, hnone, hs]
    | some s' =>
      obtain ⟨hnodup, hnot⟩ := ih
        (regular_step h ha.1.one_holder (unsought_of_not_reclaims hl0 s) ha.1.roomy hs)
        (fun l' hl' => hl l' (List.mem_cons_of_mem _ hl')) (ha.2 s' hs)
      have hlater : ∀ u ∈ retirements s' ls, ¬s.Retired u :=
        fun u hu hret => hnot u hu (retired_step h.counted h.inRange hret hl0 hs)
      cases hr : s.retiring l with
      | none => simpa [retirements, hr, hs] using ⟨hnodup, hlater⟩
      | some u =>
        obtain ⟨-, p, r, r', hp, hu, hph, hp', hu', hph', -, -⟩ :=
          retiring_cases h.counted h.inRange hr hs
        have hthis : ¬s.Retired u := by
          rintro ⟨q, r₁, hq, hu₁, hph₁⟩
          obtain rfl := h.publishes.inj p q r r₁ hp hq (hu.trans hu₁.symm)
          rw [hp] at hq
          cases hq
          exact hph hph₁
        have hnew : u ∉ retirements s' ls := fun hm => hnot u hm ⟨p, r', hp', hu', hph'⟩
        simp only [retirements, hr, hs, Option.toList_some, List.singleton_append, List.nodup_cons,
          List.mem_cons]
        refine ⟨⟨hnew, hnodup⟩, ?_⟩
        rintro v (rfl | hv)
        · exact hthis
        · exact hlater v hv

/-- In every run of the clients with the daemon loading lists and collecting orphans, in which every key
    has one holder at a time and no reference is taken on a record that counts 2^32 - 1 already:
    `retireStmt` is called at most once for a record; when it is, the record's count is zero, it has no
    owner and no client is between getting a reference on it and putting it back; and once a record's
    count is zero, no `bncl_stmt_get` on it succeeds any more. -/
theorem retired_once_unreferenced (pipes : Nat) (ls : List Label) (s : Sys)
    (hrun : run step (start pipes) ls = some s) (hkeep : ∀ l ∈ ls, Label.reclaims l = false)
    (hbounded : Along step Bounded (start pipes) ls) :
    (retirements (start pipes) ls).Nodup ∧
    (∀ l s' u, s.retiring l = some u → s.step l = some s' → ∃ p r, s'.recs p = some r ∧ r.uid = u ∧
      r.refs = 0 ∧ r.owners = [] ∧ ∀ c t, (s'.pc c).holds? = some t → t.ptr ≠ p) ∧
    (∀ p r, s.recs p = some r → r.refs = 0 → ∀ ls' s', (∀ l ∈ ls', Label.reclaims l = false) →
      Along step Bounded s ls' → run step s ls' = some s' → ∀ c lucky, s'.bncl_stmt_get c p lucky = none) := by
  have along : ∀ {ls : List Label} {s : Sys}, (∀ l ∈ ls, Label.reclaims l = false) → Along step Bounded s ls →
      Along step (fun s l => s.Bounded l ∧ Label.reclaims l = false) s ls := fun hl hb =>
    hb.and (along_of_forall fun l hm s => hl l hm)
  have next : ∀ {s s' : Sys} {l : Label}, s.Regular → s.Bounded l ∧ Label.reclaims l = false →
      s.step l = some s' → s'.Regular := fun h hl hs =>
    regular_step h hl.1.one_holder (unsought_of_not_reclaims hl.2 _) hl.1.roomy hs
  have hreg : s.Regular := run_inv_along (fun _ _ _ h hl hs => next h hl hs) (regular_start pipes)
    (along hkeep hbounded) hrun
  refine ⟨(retirements_nodup ls (regular_start pipes) hkeep hbounded).1, fun l s' u hu hs => ?_,
    fun p r hr h0 ls' s' hl hb hrun' c lucky => ?_⟩
  · obtain ⟨-, p, r, r', -, -, -, hp', hu', -, h0, ho⟩ := retiring_cases hreg.counted hreg.inRange hu hs
    refine ⟨p, r', hp', hu', h0, ho, ?_⟩
    rintro c t ht rfl
    -- whoever has a reference is among the owners
    have hc : s'.Counted := by
      cases l with
      | drop p => exact hreg.counted.drop (hreg.inRange p) hs
      | collect p => exact hreg.counted.collect (hreg.inRange p) hs
      | _ => cases hu
    have hmem := Counted.owner (hc.holds c t ht) r' hp'
    rw [ho] at hmem
    cases hmem
  · obtain ⟨-, r', hr', -, h0'⟩ : s'.Regular ∧ s'.Spent p r.uid :=
      run_inv_along (I := fun v => v.Regular ∧ v.Spent p r.uid)
        (fun _ _ _ h hl hs => ⟨next h.1 hl hs, spent_step h.1.counted h.1.inRange h.2 hl.2 hs⟩)
        ⟨hreg, r, hr, rfl, h0⟩ (along hl hb) hrun'
    rw [bncl_stmt_get, hr']
    simp only [if_pos h0']

theorem bounded_along {pipes : Nat} {ls : List Label} (ha : Along step Abandoned (start pipes) ls)
    (hr : Along step Roomy (start pipes) ls) : Along step Bounded (start pipes) ls :=
  ((one_holder_along ha).and hr).imp fun _ _ h => ⟨h.1, h.2⟩

/-- Client 0 is using the record when its statement is taken out of the list; the record waits in
    `orphans` until client 0 has released its pipe. -/
theorem retired_once_unreferenced_sample :
    ∃ s, run step (start 1) (.publish [83] 100 :: acquiring 0 [83] ++ [.unpublish [83], .drop 100,
        .askLookup 0 true, .giveUp 0] ++ releasing 0 ++ [.collect 100]) = some s ∧
      retirements (start 1) (.publish [83] 100 :: acquiring 0 [83] ++ [.unpublish [83], .drop 100,
        .askLookup 0 true, .giveUp 0] ++ releasing 0 ++ [.collect 100]) = [0] ∧
      ∀ c lucky, s.bncl_stmt_get c 100 lucky = none := by
  refine exists_run_of_map (fun s => (s.recs 100).map Rec.refs) (some 0) (by decide +kernel) ?_
  intro s hs h
  obtain ⟨r, hr, h0⟩ := Option.map_eq_some_iff.mp h
  obtain ⟨-, -, hspent⟩ := retired_once_unreferenced 1 _ s hs (by decide)
    (bounded_along (by decide +kernel) (by decide +kernel))
  exact ⟨by decide +kernel, hspent 100 r hr h0 [] s (by simp) trivial rfl⟩

/-! ### The count comes round -/

/-- The first `n` clients look the statement up and take a reference each. -/
def entering : Nat → List Label
  | 0 => []
  | n + 1 => entering n ++ [.lookupPayload n [83], .next n true]

/-- `n` clients have a reference on the record and no other has begun. -/
structure Crowded (s : Sys) (n : Nat) : Prop where
  inside : ∀ c < n, s.pc c = .peek ⟨100, 0⟩
  outside : ∀ c ≥ n, s.pc c = .idle
  stmts : s.stmts [83] = some 100
  count : ∃ r, s.recs 100 = some r ∧ r.uid = 0 ∧ r.phase = .known ∧ r.refs = UInt32.ofNat (n + 1)

theorem count_ne_zero {n : Nat} (h0 : 0 < n) (h : n < 2 ^ 32) : UInt32.ofNat n ≠ 0 := by
  intro e
  have := congrArg UInt32.toNat e
  rw [UInt32.toNat_ofNat_of_lt' h] at this
  simp at this
  omega

/-- A lookup that takes its reference. -/
theorem run_enter {n : Nat} {r : Rec} (hidle : s.pc n = .idle) (hst : s.stmts [83] = some 100)
    (hr : s.recs 100 = some r) (hu : r.uid = 0) (h0 : r.refs ≠ 0) :
    run step s [.lookupPayload n [83], .next n true] = some ((s.setRec 100
      (some { r with refs := r.refs + 1, owners := .client n :: r.owners })).goto n (.peek ⟨100, 0⟩)) := by
  simp [run, step, resolve, hidle, hst, hr, hu, next, goto, bncl_stmt_get, h0, setRec]

theorem Crowded.enter {n : Nat} (h : s.Crowded n) (hn : n + 1 < 2 ^ 32) :
    ∃ s', run step s [.lookupPayload n [83], .next n true] = some s' ∧ s'.Crowded (n + 1) := by
  obtain ⟨r, hr, hu, hk, hrefs⟩ := h.count
  refine ⟨_, run_enter (h.outside n (Nat.le_refl n)) h.stmts hr hu (hrefs ▸ count_ne_zero (Nat.succ_pos n) hn),
    ?_, ?_, h.stmts, { r with refs := r.refs + 1, owners := .client n :: r.owners },
    by simp [goto, setRec], hu, hk, ?_⟩
  · intro c hc
    simp only [goto, setRec, Function.update_apply]
    split
    · rfl
    · exact h.inside c (by omega)
  · intro c hc
    simp only [goto, setRec, Function.update_apply]
    rw [if_neg (by omega)]
    exact h.outside c (by omega)
  · rw [UInt32.ofNat_add (n + 1) 1, ← hrefs]
    rfl

theorem crowded_run {n : Nat} (h : s.Crowded 0) (hn : n < 2 ^ 32) :
    ∃ s', run step s (entering n) = some s' ∧ s'.Crowded n := by
  induction n with
  | zero => exact ⟨s, rfl, h⟩
  | succ n ih =>
    obtain ⟨s₁, h1, hc⟩ := ih (by omega)
    obtain ⟨s₂, h2, hc'⟩ := hc.enter (by omega)
    exact ⟨s₂, by rw [entering, run_append h1, h2], hc'⟩

theorem crowded_start : ∃ s, run step (start 0) [.publish [83] 100] = some s ∧ s.Crowded 0 := by
  refine ⟨_, rfl, by simp, fun _ _ => rfl, by simp [start], ⟨0, [83], none, 1, [.list], .known⟩,
    by simp [start], rfl, rfl, rfl⟩

/-- 2^32 clients get a reference on one record, `last` of them after its statement has left the list. -/
def crowd (last : Nat) : List Label :=
  .publish [83] 100 :: entering last ++ [.lookupPayload last [83], .unpublish [83], .drop 100, .next last true]

/-- At a count of zero the list's own reference is one too many to give back; the next to look in
    brings the count of the orphan to zero again. -/
theorem run_leave {n : Nat} {r : Rec} (hidle : s.pc n = .idle) (hst : s.stmts [83] = some 100)
    (hr : s.recs 100 = some r) (hu : r.uid = 0) (hk : r.phase = .known) (h0 : r.refs = 0) :
    ∃ s' r', run step s [.lookupPayload n [83], .unpublish [83], .drop 100, .next n true] = some s' ∧
      s'.pc = Function.update s.pc n (.peek ⟨100, 0⟩) ∧ s'.recs 100 = some r' ∧ r'.uid = 0 ∧
      r'.phase = .orphan ∧ r'.refs = 0 := by
  have hleft : (-1 : UInt32) ≠ 0 ∧ (-1 : UInt32) + 1 = 0 := by decide
  simp [run, step, resolve, hidle, hst, hr, hu, hk, next, goto, bncl_stmt_get, h0, setRec, unpublish, drop, hleft]

/-- Counts are kept in 32 bits: with 2^32 references out, the record is retired under those that hold it. -/
theorem crowd_retires {n : Nat} (hn : n + 1 = 2 ^ 32) : ∃ s s', run step (start 0) (crowd n) = some s ∧
    s.retiring (.collect 100) = some 0 ∧ s.step (.collect 100) = some s' ∧
    (s'.pc 0).holds? = some ⟨100, 0⟩ := by
  obtain ⟨s₀, h0, hc⟩ := crowded_start
  obtain ⟨s₁, h1, hc⟩ := crowded_run hc (n := n) (by omega)
  obtain ⟨r, hr, hu, hk, hrefs⟩ := hc.count
  have hzero : r.refs = 0 := by rw [hrefs, hn]; rfl
  obtain ⟨s₂, r', h2, hpc, hr', hu', hk', hzero'⟩ :=
    run_leave (hc.outside n (Nat.le_refl n)) hc.stmts hr hu hk hzero
  refine ⟨s₂, _, (run_append h0).trans ((run_append h1).trans h2), ?_, step_collect hr' hk' hzero', ?_⟩
  · simp [retiring, hr', hu', hk', hzero']
  · have hne : (0 : Nat) ≠ n := by omega
    simp only [retireStmt, setRec, hpc, Function.update_of_ne hne, hc.inside 0 (by omega), Pc.holds?]

theorem crowd_retired : ∃ s s', run step (start 0) (crowd (2 ^ 32 - 1)) = some s ∧
    s.retiring (.collect 100) = some 0 ∧ s.step (.collect 100) = some s' ∧
    (s'.pc 0).holds? = some ⟨100, 0⟩ :=
  crowd_retires (by omega)

end Sys

end Barnacle.Pipes
