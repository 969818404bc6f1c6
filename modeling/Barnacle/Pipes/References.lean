import Barnacle.Pipes.Exclusion

/-! References. A record counts the statement list, the clients that hold it and the references that
    were forgotten, in 32 bits; while somebody holds it, and the count has not come round, it is not
    retired. What no count covers is a request still in a queue after its poster has released the pipe,
    and the moment between looking a record up and taking the reference. -/

namespace Barnacle.Pipes
open Barnacle.Lib

namespace Pc

/-- Looked up, no reference yet. -/
def seeks? : Pc → Option Target
  | locking t _ | popMeta t | popSlot t _ | popWrite t _ _ | readPipe t _ | getRef t _
  | peekGet t => some t
  | _ => none

/-- The record the client has a reference on. -/
def holds? : Pc → Option Target
  | claim t _ | unlock t _ | splice t _ | pair t _ | held t _ | waiting t _ _ | relInfo t _
  | relCpipe t _ | relRead t _ | relPut t _ _ | peek t => some t
  | _ => none

/-- The client has pointed the pipe at its record. -/
def claims? : Pc → Option (Target × Nat)
  | unlock t k | splice t k | pair t k | held t k | waiting t k _ | relInfo t k | relCpipe t k
  | relRead t k | relPut t k _ => some (t, k)
  | _ => none

theorem key?_of_claims {p : Pc} {t : Target} {k : Nat} (h : p.claims? = some (t, k)) :
    p.key? = some k := by
  cases p <;> simp_all [claims?, key?]

end Pc

/-- The count has not come round: `refs` is the number of references that are out. -/
def Rec.InRange (r : Rec) : Prop := r.owners.length < 2 ^ 32

instance (r : Rec) : Decidable r.InRange := inferInstanceAs (Decidable (_ < _))

namespace Sys

/-- There is a record at the pointer, and it is the one the client looked up. -/
def At (s : Sys) (t : Target) : Prop := ∃ r, s.recs t.ptr = some r ∧ r.uid = t.uid

/-- The record the client looked up counts the client. -/
def Counts (s : Sys) (c : Nat) (t : Target) : Prop :=
  ∃ r, s.recs t.ptr = some r ∧ r.uid = t.uid ∧ .client c ∈ r.owners

/-- What holds of every record. -/
structure Sound (r : Rec) : Prop where
  refs : r.refs = UInt32.ofNat r.owners.length
  retired : r.phase = .retired → r.owners = []
  listed : r.phase = .known ∨ r.phase = .removing → .list ∈ r.owners

structure Counted (s : Sys) : Prop where
  sound : ∀ p r, s.recs p = some r → Sound r
  published : ∀ sql p, s.stmts sql = some p →
    ∃ r, s.recs p = some r ∧ r.phase = .known ∧ r.txt = sql
  seeks : ∀ c t, (s.pc c).seeks? = some t → s.At t
  holds : ∀ c t, (s.pc c).holds? = some t → s.Counts c t
  claims : ∀ c t k, (s.pc c).claims? = some (t, k) → s.stmt k = some t.ptr
  put : ∀ c t k p, s.pc c = .relPut t k p → p = some t.ptr

namespace Sound
variable {r : Rec} {o : Owner}

/-- A record somebody holds has not been retired. -/
theorem not_retired (h : Sound r) (ho : o ∈ r.owners) : r.phase ≠ .retired := by
  intro hr
  rw [h.retired hr] at ho
  cases ho

theorem refs_retired (h : Sound r) (hr : r.phase = .retired) : r.refs = 0 := by
  rw [h.refs, h.retired hr]
  rfl

theorem one_more (h : Sound r) (o : Owner) : r.refs + 1 = UInt32.ofNat (o :: r.owners).length := by
  rw [h.refs, List.length_cons, UInt32.ofNat_add]
  rfl

theorem one_less (h : Sound r) (ho : o ∈ r.owners) : r.refs - 1 = UInt32.ofNat (r.owners.erase o).length := by
  rw [h.refs, List.length_erase_of_mem ho, UInt32.ofNat_sub (List.length_pos_of_mem ho)]
  rfl

/-- In range the count is the number of references. -/
theorem toNat_refs (h : Sound r) (hin : r.InRange) : r.refs.toNat = r.owners.length := by
  rw [h.refs, UInt32.toNat_ofNat_of_lt' hin]

end Sound

/-- In range, a count of zero says that nobody is left. -/
theorem nil_of_count {os : List Owner} (hlt : os.length < 2 ^ 32) (h : UInt32.ofNat os.length = 0) : os = [] := by
  have h0 := congrArg UInt32.toNat h
  rw [UInt32.toNat_ofNat_of_lt' hlt] at h0
  exact List.eq_nil_of_length_eq_zero h0

namespace Counted
variable {s s' : Sys} {c : Nat} {q : Pc}

theorem live (h : s.Counted) {t : Target} (hc : s.Counts c t) : s.live t.ptr := by
  obtain ⟨r, hr, -, ho⟩ := hc
  exact ⟨r, hr, (h.sound _ r hr).not_retired ho⟩

theorem congr (h : s.Counted) (hp : s'.pc = s.pc) (hr : s'.recs = s.recs) (hs : s'.stmts = s.stmts)
    (hst : s'.stmt = s.stmt) : s'.Counted := by
  constructor <;> simp only [At, Counts, hp, hr, hs, hst]
  exacts [h.sound, h.published, h.seeks, h.holds, h.claims, h.put]

/-- Client `c` moves on; the records and the pipes stay. -/
theorem move (h : s.Counted) (hp : s'.pc = Function.update s.pc c q) (hr : s'.recs = s.recs)
    (hs : s'.stmts = s.stmts) (hst : s'.stmt = s.stmt) (hseek : ∀ t, q.seeks? = some t → s.At t)
    (hhold : ∀ t, q.holds? = some t → s.Counts c t)
    (hclaim : ∀ t k, q.claims? = some (t, k) → s.stmt k = some t.ptr)
    (hput : ∀ t k p, q = .relPut t k p → p = some t.ptr) : s'.Counted := by
  have upd : ∀ d, s'.pc d = if d = c then q else s.pc d := fun d => by rw [hp, Function.update_apply]
  refine ⟨hr ▸ h.sound, by rw [hs, hr]; exact h.published, fun d t hd => ?_, fun d t hd => ?_,
    fun d t k hd => ?_, fun d t k p hd => ?_⟩ <;> rw [upd] at hd <;> split at hd
  · simp only [At, hr]; exact hseek t hd
  · simp only [At, hr]; exact h.seeks d t hd
  · next e => simp only [Counts, hr]; exact e ▸ hhold t hd
  · simp only [Counts, hr]; exact h.holds d t hd
  · rw [hst]; exact hclaim t k hd
  · rw [hst]; exact h.claims d t k hd
  · exact hput t k p hd
  · exact h.put d t k p hd

/-- Client `c` moves on and knows no more than before. -/
theorem quiet (h : s.Counted) (hp : s'.pc = Function.update s.pc c q) (hr : s'.recs = s.recs)
    (hs : s'.stmts = s.stmts) (hst : s'.stmt = s.stmt)
    (hseek : ∀ t, q.seeks? = some t → (s.pc c).seeks? = some t)
    (hhold : ∀ t, q.holds? = some t → (s.pc c).holds? = some t)
    (hclaim : ∀ t k, q.claims? = some (t, k) → (s.pc c).claims? = some (t, k))
    (hput : ∀ t k p, q ≠ .relPut t k p) : s'.Counted :=
  h.move hp hr hs hst (fun t ht => h.seeks c t (hseek t ht)) (fun t ht => h.holds c t (hhold t ht))
    (fun t k ht => h.claims c t k (hclaim t k ht)) fun t k p e => absurd e (hput t k p)

/-- Client `c` goes where it knows of no record. -/
theorem letGo (h : s.Counted) (hp : s'.pc = Function.update s.pc c q) (hr : s'.recs = s.recs)
    (hs : s'.stmts = s.stmts) (hst : s'.stmt = s.stmt) (hseek : q.seeks? = none) (hhold : q.holds? = none)
    (hclaim : q.claims? = none) (hput : ∀ t k p, q ≠ .relPut t k p) : s'.Counted := by
  refine h.quiet hp hr hs hst (fun t ht => ?_) (fun t ht => ?_) (fun t k ht => ?_) hput
  · rw [hseek] at ht
    cases ht
  · rw [hhold] at ht
    cases ht
  · rw [hclaim] at ht
    cases ht

/-- The record at `x` changes, but not which record it is nor which clients it counts. -/
theorem amend (h : s.Counted) {x : Nat} {r r' : Rec} (hx : s.recs x = some r) (hp : s'.pc = s.pc)
    (hst : s'.stmt = s.stmt) (hr : s'.recs = Function.update s.recs x (some r'))
    (huid : r'.uid = r.uid) (hsound : Sound r')
    (hpub : ∀ sql p, s'.stmts sql = some p → s.stmts sql = some p ∧
      (p = x → r'.phase = r.phase ∧ r'.txt = r.txt))
    (hown : ∀ d t, (s.pc d).holds? = some t → .client d ∈ r.owners → .client d ∈ r'.owners) :
    s'.Counted := by
  have upd : ∀ p, s'.recs p = if p = x then some r' else s.recs p := fun p => by
    rw [hr, Function.update_apply]
  have hat : ∀ t, s.At t → s'.At t := by
    rintro t ⟨r₀, h0, hu⟩
    by_cases e : t.ptr = x
    · rw [e, hx] at h0
      cases h0
      exact ⟨r', by rw [upd, if_pos e], huid.trans hu⟩
    · exact ⟨r₀, by rw [upd, if_neg e]; exact h0, hu⟩
  refine ⟨fun p r₀ h0 => ?_, fun sql p hs => ?_, fun d t hd => ?_, fun d t hd => ?_, ?_, ?_⟩
  · rw [upd] at h0
    split at h0
    · cases h0; exact hsound
    · exact h.sound p r₀ h0
  · obtain ⟨hs0, hpx⟩ := hpub sql p hs
    obtain ⟨r₀, h0, hk, htxt⟩ := h.published sql p hs0
    by_cases e : p = x
    · rw [e, hx] at h0
      cases h0
      obtain ⟨h1, h2⟩ := hpx e
      exact ⟨r', by rw [upd, if_pos e], h1.trans hk, h2.trans htxt⟩
    · exact ⟨r₀, by rw [upd, if_neg e]; exact h0, hk, htxt⟩
  · rw [hp] at hd
    exact hat t (h.seeks d t hd)
  · rw [hp] at hd
    obtain ⟨r₀, h0, hu, ho⟩ := h.holds d t hd
    by_cases e : t.ptr = x
    · rw [e, hx] at h0
      cases h0
      exact ⟨r', by rw [upd, if_pos e], huid.trans hu, hown d t hd ho⟩
    · exact ⟨r₀, by rw [upd, if_neg e]; exact h0, hu, ho⟩
  · rw [hp, hst]; exact h.claims
  · rw [hp]; exact h.put

/-- Where the record is, `bncl_stmt_get` adds a reference or refuses a retired record. -/
theorem get (h : s.Counted) {t : Target} (ht : s.At t) {lucky : Bool}
    (hg : s.bncl_stmt_get c t.ptr lucky = some s') : s'.Counted ∧ s'.Counts c t := by
  obtain ⟨r, hr, hu⟩ := ht
  unfold bncl_stmt_get at hg
  rw [hr] at hg
  dsimp only at hg
  split at hg
  · cases hg
  next h0 =>
    cases hg
    have hsound := h.sound _ r hr
    refine ⟨h.amend hr rfl rfl rfl rfl ⟨?_, ?_, ?_⟩ (fun sql p hs => ⟨hs, fun _ => ⟨rfl, rfl⟩⟩)
      fun d t _ ho => List.mem_cons_of_mem _ ho, _, Function.update_self .., hu, List.mem_cons_self⟩
    · exact hsound.one_more _
    · exact fun hp => absurd (hsound.refs_retired hp) h0
    · exact fun hp => List.mem_cons_of_mem _ (hsound.listed hp)

/-- A client that no longer needs its reference puts it back. -/
theorem putBack (h : s.Counted) {p : Nat} (hc : (s.pc c).holds? = none)
    (ho : ∀ r, s.recs p = some r → .client c ∈ r.owners) :
    (s.bncl_stmt_put (.client c) p).Counted := by
  unfold bncl_stmt_put
  split
  · exact h
  next r hr =>
    have hsound := h.sound _ r hr
    have hmem := ho r hr
    have hne : ∀ o, o ≠ .client c → o ∈ r.owners → o ∈ r.owners.erase (.client c) := fun o e hm =>
      (List.mem_erase_of_ne e).mpr hm
    refine h.amend hr rfl rfl rfl rfl ⟨?_, ?_, ?_⟩ (fun sql p hs => ⟨hs, fun _ => ⟨rfl, rfl⟩⟩)
      fun d t hd hm => hne _ ?_ hm
    · exact hsound.one_less hmem
    · exact fun hp => absurd hp (hsound.not_retired hmem)
    · exact fun hp => hne _ (by simp) (hsound.listed hp)
    · rintro e
      cases e
      rw [hc] at hd
      cases hd

/-- An exit that forgets the reference leaves the count. -/
theorem forgets (h : s.Counted) {p : Nat} (hc : (s.pc c).holds? = none)
    (ho : ∀ r, s.recs p = some r → .client c ∈ r.owners) : (s.forget c p).Counted := by
  unfold forget
  split
  · exact h
  next r hr =>
    have hsound := h.sound _ r hr
    have hmem := ho r hr
    have hlen := List.length_erase_of_mem hmem
    have hpos := List.length_pos_of_mem hmem
    have hne : ∀ o, o ≠ .client c → o ∈ r.owners → o ∈ .lost :: r.owners.erase (.client c) :=
      fun o e hm => List.mem_cons_of_mem _ ((List.mem_erase_of_ne e).mpr hm)
    refine h.amend hr rfl rfl rfl rfl ⟨?_, ?_, ?_⟩ (fun sql p hs => ⟨hs, fun _ => ⟨rfl, rfl⟩⟩)
      fun d t hd hm => hne _ ?_ hm
    · rw [hsound.refs, List.length_cons, hlen, Nat.sub_add_cancel hpos]
    · exact fun hp => absurd hp (hsound.not_retired hmem)
    · exact fun hp => hne _ (by simp) (hsound.listed hp)
    · rintro e
      cases e
      rw [hc] at hd
      cases hd

theorem owner {t : Target} (hc : s.Counts c t) :
    ∀ r, s.recs t.ptr = some r → .client c ∈ r.owners := by
  obtain ⟨r, hr, -, ho⟩ := hc
  intro r' hr'
  rw [hr] at hr'
  cases hr'
  exact ho

/-- Client `c`, which holds a reference, loses sight of it on its way to giving the pipe back. -/
theorem loses (h : s.Counted) {t : Target} {key : Nat} (hc : (s.pc c).holds? = some t) :
    ((s.forget c t.ptr).goto c (.pushLock key 0)).Counted := by
  have h1 : (s.goto c (.pushLock key 0)).Counted := h.letGo rfl rfl rfl rfl rfl rfl rfl (by simp)
  rw [forget_goto]
  exact h1.forgets (by simp [goto, Pc.holds?]) (owner (h.holds c t hc))

/-- Client `c`, which holds a reference, puts it back and goes where it knows of no record. -/
theorem givesBack (h : s.Counted) {t : Target} {q : Pc} (hc : (s.pc c).holds? = some t) (hseek : q.seeks? = none)
    (hhold : q.holds? = none) (hclaim : q.claims? = none) (hput : ∀ t k p, q ≠ .relPut t k p) :
    ((s.bncl_stmt_put (.client c) t.ptr).goto c q).Counted := by
  have h1 : (s.goto c q).Counted := h.letGo rfl rfl rfl rfl hseek hhold hclaim hput
  rw [put_goto]
  exact h1.putBack (by simpa [goto] using hhold) (owner (h.holds c t hc))

/-- The claim: the pipe that the client alone holds is pointed at its record. -/
theorem claim (h : s.Counted) (hx : s.OneHolder) {t : Target} {key : Nat}
    (hpc : s.pc c = .claim t key) :
    Counted ({ s with stmt := Function.update s.stmt key (some t.ptr) }.goto c (.unlock t key)) := by
  have hc : s.Counts c t := h.holds c t (by rw [hpc]; rfl)
  have hk : (s.pc c).key? = some key := by rw [hpc]; rfl
  refine ⟨h.sound, h.published, fun d t' hd => ?_, fun d t' hd => ?_, fun d t' k hd => ?_,
    fun d t' k p hd => ?_⟩ <;> simp only [goto, Function.update_apply] at hd ⊢ <;> split at hd
  · cases hd
  · exact h.seeks d t' hd
  · next e => cases hd; exact e ▸ hc
  · exact h.holds d t' hd
  · cases hd; rw [if_pos rfl]
  · next e =>
    have hne : k ≠ key := by
      rintro rfl
      exact e (hx d c k (Pc.key?_of_claims hd) hk)
    rw [if_neg hne]
    exact h.claims d t' k hd
  · cases hd
  · exact h.put d t' k p hd

/-! ### The daemon's steps -/

theorem serve (h : s.Counted) {key : Nat} {req : Request} {ptr : Option Nat} (hv : Served s s' key req ptr) :
    s'.Counted := by
  have hp : s'.pc = s.pc := by rw [hv.frame]
  have hst : s'.stmt = s.stmt := by rw [hv.frame]
  have hs : s'.stmts = s.stmts := by rw [hv.frame]
  rcases hv.recs with ⟨e, -⟩ | ⟨p, r, d, -, hr, -, e, -⟩
  · exact h.congr hp e hs hst
  · have hsound := h.sound p r hr
    exact h.amend hr hp hst e rfl ⟨hsound.refs, hsound.retired, hsound.listed⟩
      (fun sql q hq => ⟨hs ▸ hq, fun _ => ⟨rfl, rfl⟩⟩) fun _ _ _ ho => ho

theorem publish (h : s.Counted) {sql : Bytes} {p : Nat} (hs : s.publish sql p = some s') :
    s'.Counted := by
  obtain ⟨hnone, rfl⟩ := publish_cases hs
  have upd : ∀ q r, s.recs q = some r → q ≠ p := by
    rintro q r hr rfl
    rw [hnone] at hr
    cases hr
  refine ⟨fun q r hr => ?_, fun sql' q hq => ?_, fun d t hd => ?_, fun d t hd => ?_, h.claims, h.put⟩
  · simp only [Function.update_apply] at hr
    split at hr
    · cases hr
      exact ⟨rfl, fun hp => Phase.noConfusion hp, fun _ => List.mem_cons_self⟩
    · exact h.sound q r hr
  · simp only [Function.update_apply] at hq ⊢
    split at hq
    next e => cases hq; rw [if_pos rfl]; exact ⟨_, rfl, rfl, e.symm⟩
    next =>
      obtain ⟨r, hr, hk⟩ := h.published sql' q hq
      rw [if_neg (upd q r hr)]
      exact ⟨r, hr, hk⟩
  · obtain ⟨r, hr, hu⟩ := h.seeks d t hd
    exact ⟨r, by simp only [Function.update_of_ne (upd _ r hr)]; exact hr, hu⟩
  · obtain ⟨r, hr, hu⟩ := h.holds d t hd
    exact ⟨r, by simp only [Function.update_of_ne (upd _ r hr)]; exact hr, hu⟩

/-- A map entry belongs to one text. -/
theorem published_inj (h : s.Counted) {sql sql' : Bytes} {p : Nat} (h1 : s.stmts sql = some p)
    (h2 : s.stmts sql' = some p) : sql = sql' := by
  obtain ⟨r, hr, -, e⟩ := h.published sql p h1
  obtain ⟨r', hr', -, e'⟩ := h.published sql' p h2
  rw [hr] at hr'
  cases hr'
  exact e.symm.trans e'

theorem unpublish (h : s.Counted) {sql : Bytes} (hs : s.unpublish sql = some s') : s'.Counted := by
  obtain ⟨p, r, hp, hr, hk, rfl⟩ := unpublish_cases hs
  have hsound := h.sound p r hr
  refine h.amend hr rfl rfl rfl rfl ⟨hsound.refs, fun hp => Phase.noConfusion hp,
    fun _ => hsound.listed (Or.inl hk)⟩ (fun sql' q hq => ?_) fun _ _ _ ho => ho
  simp only [setRec, Function.update_apply] at hq
  split at hq
  · cases hq
  next e => exact ⟨hq, fun hqp => absurd (h.published_inj (hqp ▸ hq) hp) e⟩

/-- A record that is not published may be retired once nobody is counted any more. -/
theorem retireStmt (h : s.Counted) {p : Nat} {r : Rec} (hr : s.recs p = some r)
    (hk : r.phase ≠ .known) {refs : UInt32} {owners : List Owner} (hnil : owners = [])
    (hlen : refs = UInt32.ofNat owners.length)
    (hown : ∀ d t, (s.pc d).holds? = some t → .client d ∈ r.owners → .client d ∈ owners) :
    (s.retireStmt p { r with refs := refs, owners := owners }).Counted := by
  refine h.amend hr rfl rfl rfl rfl ⟨hlen, fun _ => hnil, fun hp => ?_⟩ (fun sql q hq => ?_) hown
  · rcases hp with hp | hp <;> cases hp
  · refine ⟨hq, fun e => ?_⟩
    obtain ⟨r', hr', hk', -⟩ := h.published sql q hq
    rw [e, hr] at hr'
    cases hr'
    exact absurd hk' hk

theorem drop (h : s.Counted) {p : Nat} (hin : ∀ r, s.recs p = some r → r.InRange) (hs : s.drop p = some s') :
    s'.Counted := by
  obtain ⟨r, hr, hk, hs⟩ := drop_cases hs
  have hsound := h.sound p r hr
  have hless := hsound.one_less (hsound.listed (Or.inr hk))
  have hlt : (r.owners.erase .list).length < 2 ^ 32 := Nat.lt_of_le_of_lt List.length_erase_le (hin r hr)
  have hown : ∀ d t, (s.pc d).holds? = some t → .client d ∈ r.owners →
      .client d ∈ r.owners.erase .list := fun _ _ _ hm => (List.mem_erase_of_ne (by simp)).mpr hm
  rcases hs with ⟨h0, rfl⟩ | ⟨h0, rfl⟩
  · exact h.retireStmt hr (by rw [hk]; simp) (nil_of_count hlt (hless ▸ h0)) hless hown
  · refine h.amend hr rfl rfl rfl rfl ⟨hless,
      fun hp => Phase.noConfusion hp, fun hp => by rcases hp with hp | hp <;> cases hp⟩
      (fun sql q hq => ⟨hq, fun e => ?_⟩) hown
    obtain ⟨r', hr', hk', -⟩ := h.published sql q hq
    rw [e, hr] at hr'
    cases hr'
    rw [hk] at hk'
    cases hk'

theorem collect (h : s.Counted) {p : Nat} (hin : ∀ r, s.recs p = some r → r.InRange)
    (hs : s.collect p = some s') : s'.Counted := by
  obtain ⟨r, hr, hk, h0, rfl⟩ := collect_cases hs
  have hrefs := (h.sound p r hr).refs
  exact h.retireStmt hr (by rw [hk]; simp) (nil_of_count (hin r hr) (hrefs ▸ h0)) hrefs fun _ _ _ ho => ho

/-- Memory that nobody holds or is about to take a reference on is given back. -/
theorem reclaim (h : s.Counted) {p : Nat} (hs : s.reclaim p = some s')
    (hseek : ∀ c t, (s.pc c).seeks? = some t → t.ptr ≠ p) : s'.Counted := by
  obtain ⟨r, hr, hk, rfl⟩ := reclaim_cases hs
  have hsound := h.sound p r hr
  have upd : ∀ q, q ≠ p → (s.setRec p none).recs q = s.recs q := fun q hq => Function.update_of_ne hq ..
  refine ⟨fun q r' hr' => ?_, fun sql q hq => ?_, fun d t hd => ?_, fun d t hd => ?_, h.claims, h.put⟩
  · simp only [setRec, Function.update_apply] at hr'
    split at hr'
    · cases hr'
    · exact h.sound q r' hr'
  · obtain ⟨r', hr', hk', htxt⟩ := h.published sql q hq
    have hne : q ≠ p := by
      rintro rfl
      rw [hr] at hr'
      cases hr'
      rw [hk] at hk'
      cases hk'
    exact ⟨r', by rw [upd q hne]; exact hr', hk', htxt⟩
  · obtain ⟨r', hr', hu⟩ := h.seeks d t hd
    exact ⟨r', by rw [upd _ (hseek d t hd)]; exact hr', hu⟩
  · obtain ⟨r', hr', hu, ho⟩ := h.holds d t hd
    have hne : t.ptr ≠ p := by
      intro e
      rw [e, hr] at hr'
      cases hr'
      exact hsound.not_retired ho hk
    exact ⟨r', by rw [upd _ hne]; exact hr', hu, ho⟩

end Counted

/-- A record's memory is reused only when no client has looked it up without having taken its
    reference: the grace period is long enough. -/
def Unsought (s : Sys) : Label → Prop
  | .reclaim p => ∀ c t, (s.pc c).seeks? = some t → t.ptr ≠ p
  | _ => True

/-- A record is let go by the list, or collected, only while its count has not come round. -/
def Unwrapped (s : Sys) : Label → Prop
  | .drop p | .collect p => ∀ r, s.recs p = some r → r.InRange
  | _ => True

/-- No record is retired that a dpipe with a request queued points at. -/
def Unqueued (s : Sys) : Label → Prop
  | .drop p => (∃ r, s.recs p = some r ∧ r.refs = 1) → ∀ k, s.stmt k = some p → s.queue k = []
  | .collect p => ∀ k, s.stmt k = some p → s.queue k = []
  | _ => True

/-- What keeps records alive for those who still need them. A record is retired only when no dpipe that
    points at it has a request queued and its count has not come round; its memory is reused only when
    no client has looked it up without having taken its reference; and the daemon frees the freelist
    lock only of a client that has died. -/
structure Settled (s : Sys) (l : Label) : Prop where
  unqueued : s.Unqueued l
  unwrapped : s.Unwrapped l
  unsought : s.Unsought l
  abandoned : s.Abandoned l

theorem counted_next {s s' : Sys} {c : Nat} {ok : Bool} (h : s.Counted) (hx : s.OneHolder)
    (hs : s.next c ok = some s') : s'.Counted := by
  cases hpc : s.pc c <;> simp only [next, hpc] at hs
  case idle | dead | held | waiting => cases hs
  case locking t n | pushLock key n =>
    split at hs <;> [skip; split at hs] <;> cases hs <;>
      exact h.quiet rfl rfl rfl rfl (by simp [hpc, Pc.seeks?]) (by simp [Pc.holds?])
        (by simp [Pc.claims?]) (by simp)
  case popMeta | popSlot | popWrite | readPipe | pushMeta | pushSlot | pushWrite =>
    split at hs <;> cases hs <;>
      exact h.quiet rfl rfl rfl rfl (by simp [hpc, Pc.seeks?]) (by simp [Pc.holds?])
        (by simp [Pc.claims?]) (by simp)
  case getRef t key | peekGet t =>
    split at hs <;> cases hs
    · exact h.letGo rfl rfl rfl rfl rfl rfl rfl (by simp)
    · rename_i s₁ hg
      obtain ⟨h1, h2⟩ := h.get (h.seeks c t (by rw [hpc]; rfl)) hg
      refine h1.move rfl rfl rfl rfl (by simp [Pc.seeks?]) (fun t' ht => ?_) (by simp [Pc.claims?])
        (by simp)
      cases ht
      exact h2
  case claim t key => cases hs; exact h.claim hx hpc
  case splice t key | pair t key =>
    split at hs <;> cases hs
    · exact h.quiet rfl rfl rfl rfl (by simp [Pc.seeks?]) (by simp [hpc, Pc.holds?])
        (by simp [hpc, Pc.claims?]) (by simp)
    · exact h.loses (by rw [hpc]; rfl)
  case relRead t key =>
    split at hs <;> cases hs
    · refine h.move rfl rfl rfl rfl (by simp [Pc.seeks?]) (fun t' ht => h.holds c t' ?_)
        (fun t' k ht => h.claims c t' k ?_) fun t' k p e => ?_
      · rw [hpc]; exact ht
      · rw [hpc]; exact ht
      · cases e
        exact h.claims c t key (by rw [hpc]; rfl)
    · exact h.loses (by rw [hpc]; rfl)
  case relPut t key stmt =>
    have hst := h.put c t key stmt hpc
    subst hst
    cases hs
    exact h.givesBack (by rw [hpc]; rfl) rfl rfl rfl (by simp)
  case peek t =>
    cases hs
    exact h.givesBack (by rw [hpc]; rfl) rfl rfl rfl (by simp)
  all_goals
    cases hs
    exact h.quiet rfl rfl rfl rfl (by simp [hpc, Pc.seeks?]) (by simp [hpc, Pc.holds?])
      (by simp [hpc, Pc.claims?]) (by simp)

theorem counted_step {s s' : Sys} {l : Label} (h : s.Counted) (hx : s.OneHolder) (ht : s.Unsought l)
    (hu : s.Unwrapped l) (hs : s.step l = some s') : s'.Counted := by
  cases l <;> simp only [step, askLookup, askStore] at hs
  case acquire c sql | lookupPayload c sql =>
    obtain ⟨hpc, rfl | ⟨p, hp, rfl⟩⟩ := resolve_cases hs
    · exact h
    · obtain ⟨r, hr, -, -⟩ := h.published sql p hp
      refine h.move rfl rfl rfl rfl (fun t ht => ?_) (by simp [Pc.holds?]) (by simp [Pc.claims?])
        (by simp)
      cases ht
      exact ⟨r, hr, by simp [hr]⟩
  case next c ok => exact counted_next h hx hs
  case askLookup c ok | askStore c canonical ok =>
    obtain ⟨t, key, hpc, rfl | ⟨hi, rfl⟩ | ⟨k, hi, rfl⟩⟩ := post_cases hs <;>
      exact h.quiet rfl rfl rfl rfl (by simp [Posted, Pc.seeks?]) (by simp [Posted, hpc, Pc.holds?])
        (by simp [Posted, hpc, Pc.claims?]) (by simp [Posted])
  case takeReply c =>
    obtain ⟨t, key, num, r, rest, hpc, hin, rfl⟩ := takeReply_cases hs
    exact h.quiet rfl rfl rfl rfl (by simp [Pc.seeks?]) (by simp [hpc, Pc.holds?])
      (by simp [hpc, Pc.claims?]) (by simp)
  case giveUp c =>
    obtain ⟨t, key, num, hpc, hin, rfl⟩ := giveUp_cases hs
    exact h.quiet rfl rfl rfl rfl (by simp [Pc.seeks?]) (by simp [hpc, Pc.holds?])
      (by simp [hpc, Pc.claims?]) (by simp)
  case die c =>
    cases hs
    exact h.letGo rfl rfl rfl rfl rfl rfl rfl (by simp)
  case serve key env => obtain ⟨req, hv⟩ := serve_cases hs; exact h.serve hv
  case publish sql p => exact h.publish hs
  case unpublish sql => exact h.unpublish hs
  case drop p => exact h.drop hu hs
  case collect p => exact h.collect hu hs
  case reclaim p => exact h.reclaim hs ht
  case breakLock => obtain ⟨c, -, rfl⟩ := breakLock_cases hs; exact h.congr rfl rfl rfl rfl

theorem counted_start (pipes : Nat) : (start pipes).Counted := by
  constructor <;> simp [start, Pc.seeks?, Pc.holds?, Pc.claims?]

end Sys

end Barnacle.Pipes
