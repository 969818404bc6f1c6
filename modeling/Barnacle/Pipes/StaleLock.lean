import Barnacle.Pipes.Model

/-! The freelist lock as `breakStaleLock` sees it (`src/daemon/main.cpp`, `lockPipes` and
    `unlockPipes` of `src/uclient/shared.cpp`).

    A client wins the lock with one compare-and-swap, then reads the clock, then stores what it read in
    `taken_ns`; it gives the lock back with one store and leaves `taken_ns` as it is. The daemon reads
    the clock once for a tick, then the lock, then `taken_ns`, and then stores zero into the lock. Each
    of these accesses is a step of its own, and any of them may come between any two others.

    Who won the lock last, when, and whether `taken_ns` was last stored by that client since, is kept
    for the statements only: the lock itself is a word that is zero or one. -/

namespace Barnacle.Pipes
open Barnacle.Lib

/-- How old a stamp must be for its lock to be freed. -/
def STALE_NS : Nat := 1000000000

/-- The compare-and-swap that took the lock. -/
structure Hold where
  client : Nat
  since : Nat
  own : Bool
deriving DecidableEq, Repr

/-- Where a client is in `lockPipes` and the section it guards. -/
inductive Spot
  | out
  | spinning (tries : Nat)
  | won
  | stamping (ts : Nat)
  | inside
  | dead
deriving DecidableEq, Repr

/-- Where the daemon is in its tick. -/
inductive Tick
  | out
  | started (now : Nat)
  | sawHeld (now : Nat)
  | clearing (now : Nat)
deriving DecidableEq, Repr

structure LockSys where
  /-- `CLOCK_MONOTONIC` -/
  clock : Nat := 0
  lock : Option Hold := none
  taken_ns : Nat := 0
  spot : Nat → Spot := fun _ => .out
  tick : Tick := .out

/-- The test of `breakStaleLock` on the stamp it has read. -/
def staleStamp (now taken : Nat) : Bool :=
  !(taken == 0 || decide (now < taken) || decide (now - taken < STALE_NS))

/-- The daemon is about to read the stamp `taken` and find it too old. -/
def Tick.findsStale (taken : Nat) : Tick → Bool
  | sawHeld now => staleStamp now taken
  | _ => false

/-- The daemon has made up its mind. -/
def Tick.isClearing : Tick → Bool
  | clearing _ => true
  | _ => false

namespace LockSys

inductive Label
  | pass (ns : Nat)
  | lockPipes (c : Nat)
  | cas (c : Nat)
  | readClock (c : Nat)
  | stamp (c : Nat)
  | unlockPipes (c : Nat)
  | die (c : Nat)
  | tick
  | loadLock
  | loadTaken
  | clear
deriving DecidableEq, Repr

def goto (s : LockSys) (c : Nat) (p : Spot) : LockSys :=
  { s with spot := Function.update s.spot c p }

/-- The stamp belongs to whoever stored it last. -/
def Hold.stamped (h : Hold) (c : Nat) : Hold := { h with own := decide (h.client = c) }

def step (s : LockSys) : Label → Option LockSys
  | .pass ns => some { s with clock := s.clock + ns }
  | .lockPipes c => if s.spot c = .out then some (s.goto c (.spinning 0)) else none
  | .cas c =>
    match s.spot c with
    | .spinning n =>
      if s.lock = none then some ({ s with lock := some ⟨c, s.clock, false⟩ }.goto c .won)
      else if n + 1 < LOCK_TRIES then some (s.goto c (.spinning (n + 1)))
      else some (s.goto c .out)
    | _ => none
  | .readClock c => if s.spot c = .won then some (s.goto c (.stamping s.clock)) else none
  | .stamp c =>
    match s.spot c with
    | .stamping ts =>
      some ({ s with taken_ns := ts, lock := s.lock.map (Hold.stamped · c) }.goto c .inside)
    | _ => none
  | .unlockPipes c => if s.spot c = .inside then some ({ s with lock := none }.goto c .out) else none
  | .die c => some (s.goto c .dead)
  | .tick => if s.tick = .out then some { s with tick := .started s.clock } else none
  | .loadLock =>
    match s.tick with
    | .started now => some { s with tick := if s.lock = none then .out else .sawHeld now }
    | _ => none
  | .loadTaken =>
    match s.tick with
    | .sawHeld now => some { s with tick := if staleStamp now s.taken_ns then .clearing now else .out }
    | _ => none
  | .clear =>
    match s.tick with
    | .clearing _ => some { s with lock := none, tick := .out }
    | _ => none

/-! ### What a stamp says about its lock -/

/-- A holder's own stamp is no older than its hold, and a lock about to be freed has been held for a
    second. -/
structure Dated (s : LockSys) : Prop where
  since : ∀ h, s.lock = some h → h.since ≤ s.clock
  stamp : ∀ h, s.lock = some h → h.own = true → h.since ≤ s.taken_ns
  reading : ∀ h ts, s.lock = some h → s.spot h.client = .stamping ts → h.since ≤ ts
  clearing : ∀ h now, s.lock = some h → s.tick = .clearing now → h.since + STALE_NS ≤ now

/-- What keeps the lock from being freed under a holder that has just come: a stamp that is a second
    old is the holder's own, and nobody takes the lock between the daemon's test and its store. -/
def Heeded (s : LockSys) : Label → Prop
  | .loadTaken => s.tick.findsStale s.taken_ns = true → ∀ h ∈ s.lock, h.own = true
  | .cas _ => s.lock = none → s.tick.isClearing = false
  | _ => True

instance (s : LockSys) : (l : Label) → Decidable (s.Heeded l)
  | .loadTaken => inferInstanceAs
      (Decidable (s.tick.findsStale s.taken_ns = true → ∀ h ∈ s.lock, h.own = true))
  | .cas _ => inferInstanceAs (Decidable (s.lock = none → s.tick.isClearing = false))
  | .pass _ | .lockPipes _ | .readClock _ | .stamp _ | .unlockPipes _ | .die _ | .tick | .loadLock
  | .clear => .isTrue trivial

namespace Dated
variable {s s' : LockSys} {c : Nat}

/-- The lock, the stamp and the tick stay; a client that goes on to store a stamp read the clock
    after it took the lock. -/
theorem quiet (h : s.Dated) {p : Spot} (hl : s'.lock = s.lock) (ht : s'.taken_ns = s.taken_ns)
    (hk : s'.tick = s.tick) (hclock : s.clock ≤ s'.clock) (hp : s'.spot = Function.update s.spot c p)
    (hstamp : ∀ ts, p = .stamping ts → ts = s.clock) : s'.Dated := by
  refine ⟨fun x hx => ?_, fun x hx => ?_, fun x ts hx hs => ?_, fun x now hx => ?_⟩ <;> rw [hl] at hx
  · exact Nat.le_trans (h.since x hx) hclock
  · rw [ht]
    exact h.stamp x hx
  · rw [hp, Function.update_apply] at hs
    split at hs
    next => rw [hstamp ts hs]; exact h.since x hx
    next => exact h.reading x ts hx hs
  · rw [hk]
    exact h.clearing x now hx

/-- With the lock given back there is nothing to say. -/
theorem free (hl : s'.lock = none) : s'.Dated := by
  refine ⟨fun x hx => ?_, fun x hx => ?_, fun x ts hx => ?_, fun x now hx => ?_⟩ <;>
    rw [hl] at hx <;> cases hx

/-- The compare-and-swap, with the daemon not about to clear. -/
theorem take (hl : s'.lock = some ⟨c, s.clock, false⟩) (hclock : s'.clock = s.clock)
    (hp : s'.spot = Function.update s.spot c .won) (hk : s'.tick.isClearing = false) :
    s'.Dated := by
  refine ⟨fun x hx => ?_, fun x hx ho => ?_, fun x ts hx hs => ?_, fun x now hx ht => ?_⟩
  · rw [hl] at hx
    cases hx
    exact Nat.le_of_eq hclock.symm
  · rw [hl] at hx
    cases hx
    cases ho
  · rw [hl] at hx
    cases hx
    rw [hp, Function.update_self] at hs
    cases hs
  · rw [ht] at hk
    cases hk

theorem stamps (h : s.Dated) {ts : Nat} (hc : s.spot c = .stamping ts)
    (hl : s'.lock = s.lock.map (Hold.stamped · c)) (ht : s'.taken_ns = ts)
    (hclock : s'.clock = s.clock) (hk : s'.tick = s.tick)
    (hp : s'.spot = Function.update s.spot c .inside) : s'.Dated := by
  have back : ∀ x, s'.lock = some x → ∃ y, s.lock = some y ∧ x = Hold.stamped y c := by
    intro x hx
    rw [hl, Option.map_eq_some_iff] at hx
    obtain ⟨y, hy, e⟩ := hx
    exact ⟨y, hy, e.symm⟩
  refine ⟨fun x hx => ?_, fun x hx ho => ?_, fun x t hx hs => ?_, fun x now hx => ?_⟩ <;>
    obtain ⟨y, hy, rfl⟩ := back x hx
  · rw [hclock]
    exact h.since y hy
  · have hyc : y.client = c := by simpa [Hold.stamped] using ho
    rw [ht]
    exact h.reading y ts hy (hyc ▸ hc)
  · rw [hp, Function.update_apply] at hs
    split at hs
    next => cases hs
    next => exact h.reading y t hy hs
  · rw [hk]
    exact h.clearing y now hy

/-- The daemon's step: the lock stays, and what it is about to clear is a second old. -/
theorem ticks (h : s.Dated) {t : Tick} (hs' : s' = { s with tick := t })
    (ht : ∀ x now, s.lock = some x → t = .clearing now → x.since + STALE_NS ≤ now) : s'.Dated := by
  subst hs'
  exact ⟨h.since, h.stamp, h.reading, ht⟩

end Dated

theorem dated_step {s s' : LockSys} {l : Label} (h : s.Dated) (hc : s.Heeded l)
    (hs : s.step l = some s') : s'.Dated := by
  cases l <;> simp only [step] at hs
  case pass ns =>
    cases hs
    refine ⟨fun x hx => ?_, h.stamp, h.reading, h.clearing⟩
    exact Nat.le_trans (h.since x hx) (Nat.le_add_right _ _)
  case lockPipes c =>
    split at hs <;> cases hs
    exact h.quiet rfl rfl rfl (Nat.le_refl _) rfl (by simp)
  case cas c =>
    split at hs
    next n hpc =>
      split at hs
      next hfree =>
        cases hs
        exact Dated.take rfl rfl rfl (hc hfree)
      next => split at hs <;> cases hs <;> exact h.quiet rfl rfl rfl (Nat.le_refl _) rfl (by simp)
    next => cases hs
  case readClock c =>
    split at hs <;> cases hs
    refine h.quiet (p := .stamping s.clock) rfl rfl rfl (Nat.le_refl _) rfl fun ts e => ?_
    cases e
    rfl
  case stamp c =>
    split at hs
    next ts hpc => cases hs; exact h.stamps hpc rfl rfl rfl rfl rfl
    next => cases hs
  case unlockPipes c =>
    split at hs <;> cases hs
    exact Dated.free rfl
  case die c => cases hs; exact h.quiet rfl rfl rfl (Nat.le_refl _) rfl (by simp)
  case tick =>
    split at hs <;> cases hs
    exact h.ticks rfl (by simp)
  case loadLock =>
    split at hs
    next now hk =>
      cases hs
      refine h.ticks rfl fun x now' _ e => ?_
      split at e <;> cases e
    next => cases hs
  case loadTaken =>
    split at hs
    next now hk =>
      cases hs
      refine h.ticks rfl fun x now' hx e => ?_
      split at e
      next hstale =>
        cases e
        have hsince := h.stamp x hx (hc (by rw [hk]; exact hstale) x hx)
        simp only [staleStamp, Bool.not_eq_true', Bool.or_eq_false_iff, decide_eq_false_iff_not]
          at hstale
        omega
      next => cases e
    next => cases hs
  case clear =>
    split at hs
    next => cases hs; exact Dated.free rfl
    next => cases hs

theorem dated_start : ({} : LockSys).Dated := Dated.free rfl

/-- In every run in which a stamp the daemon finds a second old is the holder's own, and nobody takes
    the lock between that test and the store: the daemon frees the lock only of a holder that took it
    at least a second before the tick's time. -/
theorem cleared_after_a_second (ls : List Label) (s s' : LockSys)
    (hrun : run step {} ls = some s) (hheeded : Along step Heeded {} ls)
    (hclear : s.step .clear = some s') :
    ∃ now, s.tick = .clearing now ∧ ∀ h, s.lock = some h → h.since + STALE_NS ≤ now := by
  have h : s.Dated := run_inv_along (fun _ _ _ h hc hs => dated_step h hc hs) dated_start hheeded hrun
  simp only [step] at hclear
  split at hclear
  next now hk => exact ⟨now, hk, fun x hx => h.clearing x now hx hk⟩
  next => cases hclear

/-- Client 0 dies inside; a second later the lock is freed. -/
theorem cleared_after_a_second_sample :
    ∃ s s', run step {} [.pass 10, .lockPipes 0, .cas 0, .readClock 0, .stamp 0, .die 0,
        .pass 1000000000, .tick, .loadLock, .loadTaken] = some s ∧ s.step .clear = some s' ∧
      s.lock = some ⟨0, 10, true⟩ ∧
      ∃ now, s.tick = .clearing now ∧ ∀ h, s.lock = some h → h.since + STALE_NS ≤ now := by
  have h : ((run step {} [.pass 10, .lockPipes 0, .cas 0, .readClock 0, .stamp 0, .die 0,
      .pass 1000000000, .tick, .loadLock, .loadTaken]).bind fun s => (s.step .clear).map fun _ =>
        s.lock) = some (some ⟨0, 10, true⟩) := by decide +kernel
  obtain ⟨s, hs, h⟩ := Option.bind_eq_some_iff.mp h
  obtain ⟨s', hs', h⟩ := Option.map_eq_some_iff.mp h
  exact ⟨s, s', hs, hs', h, cleared_after_a_second _ s s' hs (by decide +kernel) hs'⟩

/-- Client 0 has used the lock and given it back two seconds ago. Client 1 wins it; before client 1
    stores its stamp the daemon reads client 0's, and frees the lock the moment it was taken. -/
theorem cleared_when_just_taken :
    ∃ s s', run step {} [.pass 10, .lockPipes 0, .cas 0, .readClock 0, .stamp 0, .unlockPipes 0,
        .pass 2000000000, .lockPipes 1, .cas 1, .tick, .loadLock, .loadTaken] = some s ∧
      s.step .clear = some s' ∧ s.lock = some ⟨1, 2000000010, false⟩ ∧
      s.tick = .clearing 2000000010 ∧ s.spot 1 = .won ∧ s'.lock = none := by
  have h : ((run step {} [.pass 10, .lockPipes 0, .cas 0, .readClock 0, .stamp 0, .unlockPipes 0,
      .pass 2000000000, .lockPipes 1, .cas 1, .tick, .loadLock, .loadTaken]).bind fun s =>
        (s.step .clear).map fun s' => ((s.lock, s.tick), s.spot 1, s'.lock)) =
      some ((some ⟨1, 2000000010, false⟩, .clearing 2000000010), .won, none) := by decide +kernel
  obtain ⟨s, hs, h⟩ := Option.bind_eq_some_iff.mp h
  obtain ⟨s', hs', h⟩ := Option.map_eq_some_iff.mp h
  simp only [Prod.mk.injEq] at h
  exact ⟨s, s', hs, hs', h.1.1, h.1.2, h.2.1, h.2.2⟩

end LockSys

end Barnacle.Pipes
