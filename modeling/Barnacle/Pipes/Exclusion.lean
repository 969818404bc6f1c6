import Barnacle.Pipes.Steps

/-! The freelist lock, the freelist and the keys: whatever the clients do and wherever they die, the
    keys on the freelist are distinct and no two clients hold the same one. -/

namespace Barnacle.Pipes

namespace Pc

/-- Between taking the freelist lock and giving it back. -/
def crit : Pc → Bool
  | popMeta .. | popSlot .. | popWrite .. | popFail | readPipe .. | getRef .. | claim .. | unlock ..
  | pushMeta .. | pushSlot .. | pushWrite .. | pushUnlock => true
  | _ => false

/-- The key the client has popped and not pushed back. -/
def key? : Pc → Option Nat
  | readPipe _ k | getRef _ k | claim _ k | unlock _ k | splice _ k | pair _ k | held _ k
  | waiting _ k _ | relInfo _ k | relCpipe _ k | relRead _ k | relPut _ k _ | pushLock k _
  | pushMeta k | pushSlot k _ | pushWrite k _ => some k
  | _ => none

end Pc

namespace Sys

/-- What a client in the middle of a pop or a push has read or written is still so. -/
def Fits (s : Sys) : Pc → Prop
  | .popSlot _ slot => slot + 1 = s.num_free
  | .popWrite _ slot key => slot + 1 = s.num_free ∧ s.freelist slot = key
  | .pushSlot _ n => n = s.num_free
  | .pushWrite key n => n = s.num_free ∧ s.freelist n = key
  | _ => True

structure Exclusive (s : Sys) : Prop where
  crit : ∀ c, (s.pc c).crit = true → s.lock = some c
  fits : ∀ c, s.Fits (s.pc c)
  free_inj : ∀ i j, i < s.num_free → j < s.num_free → s.freelist i = s.freelist j → i = j
  free_key : ∀ c k i, (s.pc c).key? = some k → i < s.num_free → s.freelist i ≠ k
  key_inj : ∀ c d k, (s.pc c).key? = some k → (s.pc d).key? = some k → c = d

namespace Exclusive
variable {s s' : Sys} {c : Nat} {p : Pc}

theorem fits_congr (hn : s'.num_free = s.num_free) (hf : s'.freelist = s.freelist) (q : Pc) :
    s'.Fits q ↔ s.Fits q := by
  cases q <;> simp [Fits, hn, hf]

/-- A client outside the critical section has nothing to fit. -/
theorem fits_of_not_crit (s : Sys) (h : p.crit = false) : s.Fits p := by
  cases p <;> trivial

/-- Nothing the invariant speaks of has changed. -/
theorem congr (h : s.Exclusive) (hp : s'.pc = s.pc) (hl : s'.lock = s.lock)
    (hn : s'.num_free = s.num_free) (hf : s'.freelist = s.freelist) : s'.Exclusive := by
  refine ⟨?_, fun c => (fits_congr hn hf _).mpr (hp ▸ h.fits c), ?_, ?_, ?_⟩
  · rw [hp, hl]; exact h.crit
  · rw [hn, hf]; exact h.free_inj
  · rw [hp, hn, hf]; exact h.free_key
  · rw [hp]; exact h.key_inj

/-- Client `c` moves on; it has no more keys than before. -/
theorem keys (hp : s'.pc = Function.update s.pc c p)
    (hkey : ∀ k, p.key? = some k → (s.pc c).key? = some k) :
    ∀ d k, (s'.pc d).key? = some k → (s.pc d).key? = some k := by
  intro d k hd
  rw [hp, Function.update_apply] at hd
  split at hd
  next e => subst e; exact hkey k hd
  next => exact hd

/-- A step that leaves the lock and the freelist alone. -/
theorem quiet (h : s.Exclusive) (hp : s'.pc = Function.update s.pc c p) (hl : s'.lock = s.lock)
    (hn : s'.num_free = s.num_free) (hf : s'.freelist = s.freelist)
    (hcrit : p.crit = true → (s.pc c).crit = true) (hfit : s.Fits p)
    (hkey : ∀ k, p.key? = some k → (s.pc c).key? = some k) : s'.Exclusive := by
  have hk := keys hp hkey
  refine ⟨fun d hd => ?_, fun d => ?_, ?_, fun d k i hd => ?_, fun d e k hd he => ?_⟩
  · rw [hp, Function.update_apply] at hd
    rw [hl]
    split at hd
    next e => subst e; exact h.crit d (hcrit hd)
    next => exact h.crit d hd
  · rw [fits_congr hn hf, hp, Function.update_apply]
    split
    next => exact hfit
    next => exact h.fits d
  · rw [hn, hf]; exact h.free_inj
  · rw [hn, hf]; exact h.free_key d k i (hk d k hd)
  · exact h.key_inj d e k (hk d k hd) (hk e k he)

/-- Client `c` moves on with other statements in the store. -/
theorem quiet_recs {s₁ : Sys} (h : s.Exclusive) (e : s₁ = { s with recs := s₁.recs })
    (hcrit : p.crit = true → (s.pc c).crit = true) (hfit : s.Fits p)
    (hkey : ∀ k, p.key? = some k → (s.pc c).key? = some k) : (s₁.goto c p).Exclusive :=
  h.quiet (by rw [goto, e]) (by rw [goto, e]) (by rw [goto, e]) (by rw [goto, e]) hcrit hfit hkey

/-- With the lock free nobody is in the critical section; then the lock changes hands. -/
theorem take (h : s.Exclusive) (hp : s'.pc = Function.update s.pc c p) (h0 : s.lock = none)
    (hl : s'.lock = some c) (hn : s'.num_free = s.num_free) (hf : s'.freelist = s.freelist)
    (hfit : s.Fits p) (hkey : ∀ k, p.key? = some k → (s.pc c).key? = some k) : s'.Exclusive := by
  have hk := keys hp hkey
  refine ⟨fun d hd => ?_, fun d => ?_, ?_, fun d k i hd => ?_, fun d e k hd he => ?_⟩
  · rw [hp, Function.update_apply] at hd
    split at hd
    next e => rw [hl, e]
    next => exact absurd (h.crit d hd) (by simp [h0])
  · rw [fits_congr hn hf, hp, Function.update_apply]
    split
    next => exact hfit
    next => exact h.fits d
  · rw [hn, hf]; exact h.free_inj
  · rw [hn, hf]; exact h.free_key d k i (hk d k hd)
  · exact h.key_inj d e k (hk d k hd) (hk e k he)

/-- In the critical section: everybody else is outside. -/
theorem alone (h : s.Exclusive) (hc : (s.pc c).crit = true) {d : Nat} (hd : (s.pc d).crit = true) :
    d = c := by
  have h1 := h.crit c hc
  rw [h.crit d hd] at h1
  exact Option.some.inj h1

/-- The holder leaves the critical section and frees the lock. -/
theorem leave (h : s.Exclusive) (hp : s'.pc = Function.update s.pc c p)
    (hc : (s.pc c).crit = true) (hn : s'.num_free = s.num_free) (hf : s'.freelist = s.freelist)
    (hcrit : p.crit = false) (hkey : ∀ k, p.key? = some k → (s.pc c).key? = some k) :
    s'.Exclusive := by
  have hk := keys hp hkey
  refine ⟨fun d hd => ?_, fun d => ?_, ?_, fun d k i hd => ?_, fun d e k hd he => ?_⟩
  · rw [hp, Function.update_apply] at hd
    split at hd
    next => rw [hcrit] at hd; exact Bool.noConfusion hd
    next hne => exact absurd (h.alone hc hd) hne
  · rw [fits_congr hn hf, hp, Function.update_apply]
    split
    next => exact fits_of_not_crit s hcrit
    next => exact h.fits d
  · rw [hn, hf]; exact h.free_inj
  · rw [hn, hf]; exact h.free_key d k i (hk d k hd)
  · exact h.key_inj d e k (hk d k hd) (hk e k he)

/-- The last write of `popDpipe`: the top key changes from the freelist to the client. -/
theorem pop (h : s.Exclusive) {t : Target} {slot key : Nat} (hc : s.pc c = .popWrite t slot key)
    (hp : s'.pc = Function.update s.pc c (.readPipe t key)) (hl : s'.lock = s.lock)
    (hn : s'.num_free = slot) (hf : s'.freelist = s.freelist) : s'.Exclusive := by
  have hcr : (s.pc c).crit = true := by rw [hc]; rfl
  obtain ⟨h1, h2⟩ : slot + 1 = s.num_free ∧ s.freelist slot = key := by
    have := h.fits c
    rwa [hc] at this
  have hkey : ∀ d k, (s'.pc d).key? = some k → (d = c ∧ k = key) ∨ (s.pc d).key? = some k := by
    intro d k hd
    rw [hp, Function.update_apply] at hd
    split at hd
    next e => exact Or.inl ⟨e, (Option.some.inj hd).symm⟩
    next => exact Or.inr hd
  refine ⟨fun d hd => ?_, fun d => ?_, fun i j hi hj => ?_, fun d k i hd hi => ?_,
    fun d e k hd he => ?_⟩
  · rw [hp, Function.update_apply] at hd
    rw [hl]
    split at hd
    next e => rw [e]; exact h.crit c hcr
    next => exact h.crit d hd
  · rw [hp, Function.update_apply]
    split
    next => trivial
    next hne =>
      refine fits_of_not_crit _ ?_
      cases hd : (s.pc d).crit with
      | false => rfl
      | true => exact absurd (h.alone hcr hd) hne
  · rw [hf]; exact h.free_inj i j (by omega) (by omega)
  · rw [hn] at hi
    rw [hf]
    rcases hkey d k hd with ⟨-, rfl⟩ | hd
    · intro e
      have := h.free_inj i slot (by omega) (by omega) (e.trans h2.symm)
      omega
    · exact h.free_key d k i hd (by omega)
  · rcases hkey d k hd with ⟨rfl, rfl⟩ | hd <;> rcases hkey e k he with ⟨rfl, hk⟩ | he
    · rfl
    · exact absurd h2 (h.free_key e k slot he (by omega))
    · subst hk; exact absurd h2 (h.free_key d k slot hd (by omega))
    · exact h.key_inj d e k hd he

/-- `pushDpipe` writes its key into the slot past the top. -/
theorem push_slot (h : s.Exclusive) {key n : Nat} (hc : s.pc c = .pushSlot key n)
    (hp : s'.pc = Function.update s.pc c (.pushWrite key n)) (hl : s'.lock = s.lock)
    (hn : s'.num_free = s.num_free) (hf : s'.freelist = Function.update s.freelist n key) :
    s'.Exclusive := by
  have hcr : (s.pc c).crit = true := by rw [hc]; rfl
  have h1 : n = s.num_free := by
    have := h.fits c
    rwa [hc] at this
  have hk := keys hp (by simp [hc, Pc.key?])
  have hlow : ∀ i, i < s.num_free → s'.freelist i = s.freelist i := fun i hi => by
    rw [hf, Function.update_of_ne (by omega)]
  refine ⟨fun d hd => ?_, fun d => ?_, fun i j hi hj => ?_, fun d k i hd hi => ?_,
    fun d e k hd he => h.key_inj d e k (hk d k hd) (hk e k he)⟩
  · rw [hp, Function.update_apply] at hd
    rw [hl]
    split at hd
    next e => rw [e]; exact h.crit c hcr
    next => exact h.crit d hd
  · rw [hp, Function.update_apply]
    split
    next => exact ⟨by rw [hn]; exact h1, by rw [hf, Function.update_self]⟩
    next hne =>
      refine fits_of_not_crit _ ?_
      cases hd : (s.pc d).crit with
      | false => rfl
      | true => exact absurd (h.alone hcr hd) hne
  · rw [hn] at hi hj
    rw [hlow i hi, hlow j hj]
    exact h.free_inj i j hi hj
  · rw [hn] at hi
    rw [hlow i hi]
    exact h.free_key d k i (hk d k hd) hi

/-- … and then admits the slot exists: the key changes from the client to the freelist. -/
theorem push_write (h : s.Exclusive) {key n : Nat} (hc : s.pc c = .pushWrite key n)
    (hp : s'.pc = Function.update s.pc c .pushUnlock) (hl : s'.lock = s.lock)
    (hn : s'.num_free = n + 1) (hf : s'.freelist = s.freelist) : s'.Exclusive := by
  have hcr : (s.pc c).crit = true := by rw [hc]; rfl
  obtain ⟨h1, h2⟩ : n = s.num_free ∧ s.freelist n = key := by
    have := h.fits c
    rwa [hc] at this
  have hck : (s.pc c).key? = some key := by rw [hc]; rfl
  have hk := keys hp (p := .pushUnlock) (by simp [Pc.key?])
  have hne : ∀ d k, (s'.pc d).key? = some k → d ≠ c := by
    rintro d k hd rfl
    rw [hp, Function.update_self] at hd
    simp [Pc.key?] at hd
  refine ⟨fun d hd => ?_, fun d => ?_, fun i j hi hj => ?_, fun d k i hd hi => ?_,
    fun d e k hd he => h.key_inj d e k (hk d k hd) (hk e k he)⟩
  · rw [hp, Function.update_apply] at hd
    rw [hl]
    split at hd
    next e => rw [e]; exact h.crit c hcr
    next => exact h.crit d hd
  · rw [hp, Function.update_apply]
    split
    next => trivial
    next hdc =>
      refine fits_of_not_crit _ ?_
      cases hd : (s.pc d).crit with
      | false => rfl
      | true => exact absurd (h.alone hcr hd) hdc
  · rw [hn] at hi hj
    rw [hf]
    intro e
    rcases Nat.lt_succ_iff_lt_or_eq.mp hi with hi | rfl <;>
      rcases Nat.lt_succ_iff_lt_or_eq.mp hj with hj | rfl
    · exact h.free_inj i j (by omega) (by omega) e
    · exact absurd (e.trans h2) (h.free_key c key i hck (by omega))
    · exact absurd (e.symm.trans h2) (h.free_key c key j hck (by omega))
    · rfl
  · rw [hn] at hi
    rw [hf]
    rcases Nat.lt_succ_iff_lt_or_eq.mp hi with hi | rfl
    · exact h.free_key d k i (hk d k hd) (by omega)
    · rw [h2]
      rintro rfl
      exact hne d key hd (h.key_inj d c key (hk d key hd) hck)

end Exclusive

/-! ### Every step keeps the invariant -/

theorem exclusive_next {s s' : Sys} {c : Nat} {ok : Bool} (h : s.Exclusive)
    (hs : s.next c ok = some s') : s'.Exclusive := by
  cases hpc : s.pc c <;> simp only [next, hpc] at hs
  case idle | dead | held | waiting => cases hs
  case locking t n =>
    split at hs
    next h0 => cases hs; exact h.take rfl h0 rfl rfl rfl trivial (by simp [Pc.key?])
    next =>
      split at hs <;> cases hs <;>
        exact h.quiet rfl rfl rfl rfl (by simp [Pc.crit]) trivial (by simp [Pc.key?])
  case popMeta t =>
    split at hs <;> cases hs
    next hfree =>
      refine h.quiet rfl rfl rfl rfl (by simp [hpc, Pc.crit]) ?_ (by simp [Pc.key?])
      simp only [Fits]
      omega
    next => exact h.quiet rfl rfl rfl rfl (by simp [hpc, Pc.crit]) trivial (by simp [Pc.key?])
  case popSlot t slot =>
    have hfit := h.fits c
    rw [hpc] at hfit
    split at hs <;> cases hs
    · exact h.quiet rfl rfl rfl rfl (by simp [hpc, Pc.crit]) ⟨hfit, rfl⟩ (by simp [Pc.key?])
    · exact h.quiet rfl rfl rfl rfl (by simp [hpc, Pc.crit]) trivial (by simp [Pc.key?])
  case popWrite t slot key =>
    split at hs <;> cases hs
    · exact h.pop hpc rfl rfl rfl rfl
    · exact h.quiet rfl rfl rfl rfl (by simp [hpc, Pc.crit]) trivial (by simp [Pc.key?])
  case popFail | pushUnlock =>
    cases hs; exact h.leave rfl (by simp [hpc, Pc.crit]) rfl rfl rfl (by simp [Pc.key?])
  case unlock t key =>
    cases hs; exact h.leave rfl (by simp [hpc, Pc.crit]) rfl rfl rfl (by simp [hpc, Pc.key?])
  case readPipe t key =>
    split at hs <;> cases hs <;>
      exact h.quiet rfl rfl rfl rfl (by simp [hpc, Pc.crit]) trivial (by simp [hpc, Pc.key?])
  case claim t key =>
    cases hs
    exact h.quiet rfl rfl rfl rfl (by simp [hpc, Pc.crit]) trivial (by simp [hpc, Pc.key?])
  case getRef t key =>
    split at hs
    next => cases hs; exact h.quiet rfl rfl rfl rfl (by simp [hpc, Pc.crit]) trivial (by simp [hpc, Pc.key?])
    next s₁ hg =>
      cases hs
      exact h.quiet_recs (get_recs hg) (by simp [hpc, Pc.crit]) trivial (by simp [hpc, Pc.key?])
  case splice t key | pair t key | relRead t key =>
    split at hs <;> cases hs
    · exact h.quiet rfl rfl rfl rfl (by simp [Pc.crit]) trivial (by simp [hpc, Pc.key?])
    · exact h.quiet_recs (s.forget_recs c t.ptr) (by simp [Pc.crit]) trivial (by simp [hpc, Pc.key?])
  case relInfo t key | relCpipe t key =>
    cases hs
    exact h.quiet rfl rfl rfl rfl (by simp [Pc.crit]) trivial (by simp [hpc, Pc.key?])
  case relPut t key stmt =>
    cases stmt with
    | none =>
      cases hs
      exact h.quiet rfl rfl rfl rfl (by simp [Pc.crit]) trivial (by simp [hpc, Pc.key?])
    | some p =>
      cases hs
      exact h.quiet_recs (s.put_recs (.client c) p) (by simp [Pc.crit]) trivial (by simp [hpc, Pc.key?])
  case pushLock key n =>
    split at hs
    next h0 => cases hs; exact h.take rfl h0 rfl rfl rfl trivial (by simp [hpc, Pc.key?])
    next =>
      split at hs <;> cases hs <;>
        exact h.quiet rfl rfl rfl rfl (by simp [Pc.crit]) trivial (by simp [hpc, Pc.key?])
  case pushMeta key =>
    split at hs <;> cases hs
    · exact h.quiet rfl rfl rfl rfl (by simp [hpc, Pc.crit]) rfl (by simp [hpc, Pc.key?])
    · exact h.quiet rfl rfl rfl rfl (by simp [hpc, Pc.crit]) trivial (by simp [Pc.key?])
  case pushSlot key n =>
    split at hs <;> cases hs
    · exact h.push_slot hpc rfl rfl rfl rfl
    · exact h.quiet rfl rfl rfl rfl (by simp [hpc, Pc.crit]) trivial (by simp [Pc.key?])
  case pushWrite key n =>
    split at hs <;> cases hs
    · exact h.push_write hpc rfl rfl rfl rfl
    · exact h.quiet rfl rfl rfl rfl (by simp [hpc, Pc.crit]) trivial (by simp [Pc.key?])
  case peekGet t =>
    split at hs
    next => cases hs; exact h.quiet rfl rfl rfl rfl (by simp [Pc.crit]) trivial (by simp [Pc.key?])
    next s₁ hg =>
      cases hs
      exact h.quiet_recs (get_recs hg) (by simp [Pc.crit]) trivial (by simp [Pc.key?])
  case peek t =>
    cases hs
    exact h.quiet_recs (s.put_recs (.client c) t.ptr) (by simp [Pc.crit]) trivial (by simp [Pc.key?])

/-- The daemon frees the lock only of a client that has died. -/
def Abandoned (s : Sys) : Label → Prop
  | .breakLock => ∀ c ∈ s.lock, s.pc c = .dead
  | _ => True

instance (s : Sys) : (l : Label) → Decidable (s.Abandoned l)
  | .breakLock => inferInstanceAs (Decidable (∀ c ∈ s.lock, s.pc c = .dead))
  | .acquire .. | .lookupPayload .. | .next .. | .askLookup .. | .askStore .. | .takeReply .. | .giveUp ..
  | .die .. | .serve .. | .publish .. | .unpublish .. | .drop .. | .collect .. | .reclaim .. => .isTrue trivial

theorem exclusive_step {s s' : Sys} {l : Label} (h : s.Exclusive) (ha : s.Abandoned l)
    (hs : s.step l = some s') : s'.Exclusive := by
  cases l <;> simp only [step, askLookup, askStore] at hs
  case acquire c sql | lookupPayload c sql =>
    obtain ⟨hpc, rfl | ⟨p, -, rfl⟩⟩ := resolve_cases hs
    · exact h
    · exact h.quiet rfl rfl rfl rfl (by simp [Pc.crit]) trivial (by simp [Pc.key?])
  case next c ok => exact exclusive_next h hs
  case askLookup c ok | askStore c canonical ok =>
    obtain ⟨t, key, hpc, rfl | ⟨-, rfl⟩ | ⟨k, -, rfl⟩⟩ := post_cases hs <;>
      exact h.quiet rfl rfl rfl rfl (by simp [Posted, Pc.crit]) trivial
        (by simp [Posted, hpc, Pc.key?])
  case takeReply c =>
    obtain ⟨t, key, num, r, rest, hpc, -, rfl⟩ := takeReply_cases hs
    exact h.quiet rfl rfl rfl rfl (by simp [Pc.crit]) trivial (by simp [hpc, Pc.key?])
  case giveUp c =>
    obtain ⟨t, key, num, hpc, -, rfl⟩ := giveUp_cases hs
    exact h.quiet rfl rfl rfl rfl (by simp [Pc.crit]) trivial (by simp [hpc, Pc.key?])
  case die c =>
    cases hs
    exact h.quiet rfl rfl rfl rfl (by simp [Pc.crit]) trivial (by simp [Pc.key?])
  case serve key env =>
    obtain ⟨req, hv⟩ := serve_cases hs
    rw [hv.frame]
    exact h.congr rfl rfl rfl rfl
  case publish sql p => obtain ⟨-, rfl⟩ := publish_cases hs; exact h.congr rfl rfl rfl rfl
  case unpublish sql => obtain ⟨p, r, -, -, -, rfl⟩ := unpublish_cases hs; exact h.congr rfl rfl rfl rfl
  case drop p =>
    obtain ⟨r, -, -, ⟨-, rfl⟩ | ⟨-, rfl⟩⟩ := drop_cases hs <;> exact h.congr rfl rfl rfl rfl
  case collect p => obtain ⟨r, -, -, -, rfl⟩ := collect_cases hs; exact h.congr rfl rfl rfl rfl
  case reclaim p => obtain ⟨r, -, -, rfl⟩ := reclaim_cases hs; exact h.congr rfl rfl rfl rfl
  case breakLock =>
    obtain ⟨c, hl, rfl⟩ := breakLock_cases hs
    have hd := ha c hl
    refine ⟨fun d hdc => ?_, h.fits, h.free_inj, h.free_key, h.key_inj⟩
    have := h.crit d hdc
    rw [hl, Option.some.injEq] at this
    subst this
    simp only [hd, Pc.crit, Bool.false_eq_true] at hdc

theorem exclusive_start (pipes : Nat) : (start pipes).Exclusive :=
  ⟨fun _ h => Bool.noConfusion h, fun _ => trivial, fun _ _ _ _ h => h,
    fun _ _ _ h => by simp [start, Pc.key?] at h, fun _ _ _ h => by simp [start, Pc.key?] at h⟩

/-- A pipe key is held by one client at a time. -/
def OneHolder (s : Sys) : Prop := ∀ c d k, (s.pc c).key? = some k → (s.pc d).key? = some k → c = d

theorem one_holder_along {pipes : Nat} {ls : List Label} (ha : Lib.Along step Abandoned (start pipes) ls) :
    Lib.Along step (fun s _ => s.OneHolder) (start pipes) ls :=
  (Lib.Along.of_inv (fun _ _ _ h ha hs => exclusive_step h ha hs) (exclusive_start pipes) ha).imp
    fun _ _ h => h.key_inj

/-- Whatever the clients do, whichever map call fails and wherever a client dies, with the daemon freeing
    the lock only of a client that has died: the keys on the freelist are distinct, none of them is with
    a client, and no two clients have the same one. A client has a key from the pop that takes it off the
    freelist to the push that puts it back. -/
theorem keys_exclusive (pipes : Nat) (ls : List Label) (s : Sys)
    (hrun : Lib.run step (start pipes) ls = some s)
    (habandoned : Lib.Along step Abandoned (start pipes) ls) :
    (∀ i j, i < s.num_free → j < s.num_free → s.freelist i = s.freelist j → i = j) ∧
    (∀ c k i, (s.pc c).key? = some k → i < s.num_free → s.freelist i ≠ k) ∧
    (∀ c d k, (s.pc c).key? = some k → (s.pc d).key? = some k → c = d) := by
  have h : s.Exclusive :=
    Lib.run_inv_along (fun _ _ _ h ha hs => exclusive_step h ha hs) (exclusive_start pipes) habandoned hrun
  exact ⟨h.free_inj, h.free_key, h.key_inj⟩

/-- Client 0 dies in the critical section with key 1 popped; its lock is freed and client 1 comes away
    with key 0. -/
theorem keys_exclusive_sample :
    ∃ s, Lib.run step (start 2) ([.publish [83] 100, .acquire 0 [83]] ++
        List.replicate 4 (.next 0 true) ++ [.die 0, .breakLock, .acquire 1 [83]] ++
        List.replicate 10 (.next 1 true)) = some s ∧
      s.pc 1 = .held ⟨100, 0⟩ 0 ∧ ∀ d, (s.pc d).key? = some 0 → 1 = d := by
  refine Lib.exists_run_of_map (fun s => s.pc 1) (.held ⟨100, 0⟩ 0) (by decide +kernel) ?_
  intro s hs hpc
  obtain ⟨-, -, hinj⟩ := keys_exclusive 2 _ s hs (by decide +kernel)
  exact ⟨hpc, fun d hd => hinj 1 d 0 (by rw [hpc]; rfl) hd⟩

end Sys

end Barnacle.Pipes
