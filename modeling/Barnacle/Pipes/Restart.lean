import Mathlib.Data.List.Perm.Subperm
import Mathlib.Logic.Function.Basic
import Barnacle.Lib.Transition

/-! A daemon that starts where another has been (`Pool::init` in `src/daemon/dpipes.cpp`, `popDpipe`,
    `pushDpipe` and `openShared` in `src/uclient/shared.cpp`). The maps are pinned by name. A daemon
    that stops takes the pins with it, and the next one makes new maps; a daemon that dies leaves them,
    and the next one builds its pool in the maps it finds there, over an arena it lays out anew.

    Clients are attached all the while: they pop keys and give them back on whichever maps their
    descriptors name, with the lock in that arena, one map call after another. `init` does not take the
    lock, so its steps may fall between any two of these calls.

        down ──▶ loaded ──▶ filling 0 ──▶ … ──▶ filling count ──▶ up
                     reset         publish               last write -/

namespace Barnacle.Pipes.Restart
open Barnacle.Lib

/-! ### The freelist -/

/-- `dpipes_meta_map` and `dpipe_freelist`. -/
structure Maps where
  max_entries : Nat := 0
  num_free : Nat := 0
  freelist : Nat → Nat := fun _ => 0

namespace Maps

/-- What is in the slots below `num_free`. -/
def slots (m : Maps) : List Nat := (List.range m.num_free).map m.freelist

/-- `Pool::release`, with `pipes.size()`: a key that is there already is not pushed again. -/
def release (m : Maps) (pipes key : Nat) : Bool × Maps :=
  if m.num_free ≥ pipes ∧ pipes ≠ 0 then (true, m)
  else if (List.range m.num_free).any fun i => i < m.max_entries ∧ m.freelist i = key then (true, m)
  else
    let slot := m.num_free
    if slot ≥ m.max_entries then (false, m)
    else (true, { m with freelist := Function.update m.freelist slot key, num_free := slot + 1 })

theorem length_slots (m : Maps) : m.slots.length = m.num_free := by simp [slots]

/-- The slot past the last is not looked at. -/
theorem slots_spare (m : Maps) (key : Nat) :
    slots { m with freelist := Function.update m.freelist m.num_free key } = m.slots := by
  refine List.map_congr_left ?_
  intro i hi
  exact Function.update_of_ne (Nat.ne_of_lt (List.mem_range.mp hi)) ..

theorem slots_succ (m : Maps) :
    slots { m with num_free := m.num_free + 1 } = m.slots ++ [m.freelist m.num_free] := by
  simp only [slots, List.range_succ, List.map_append, List.map_cons, List.map_nil]

theorem slots_pred {m : Maps} {slot : Nat} (h : slot + 1 = m.num_free) :
    m.slots = slots { m with num_free := slot } ++ [m.freelist slot] := by
  simp only [slots, ← h, List.range_succ, List.map_append, List.map_cons, List.map_nil]

theorem slots_write (m : Maps) (key : Nat) :
    slots { m with freelist := Function.update m.freelist m.num_free key, num_free := m.num_free + 1 } =
      m.slots ++ [key] :=
  calc slots { m with freelist := Function.update m.freelist m.num_free key, num_free := m.num_free + 1 }
    _ = slots { m with freelist := Function.update m.freelist m.num_free key } ++
          [Function.update m.freelist m.num_free key m.num_free] :=
        slots_succ { m with freelist := Function.update m.freelist m.num_free key }
    _ = m.slots ++ [key] := by rw [slots_spare, Function.update_self]

/-- What `release` finds: a list that is as long as the pool, the key itself, no room, or a free slot. -/
theorem release_cases (m : Maps) (pipes key : Nat) :
    (m.release pipes key = (true, m) ∧ (pipes ≤ m.num_free ∨ key ∈ m.slots)) ∨
      (m.release pipes key).1 = false ∧ (m.release pipes key).2 = m ∨
      key ∉ m.slots ∧ (m.release pipes key).1 = true ∧ (m.release pipes key).2.slots = m.slots ++ [key] ∧
        (m.release pipes key).2.max_entries = m.max_entries := by
  unfold release
  split
  next h => exact .inl ⟨rfl, .inl h.1⟩
  next h =>
    split
    next hany =>
      refine .inl ⟨rfl, .inr ?_⟩
      obtain ⟨i, hi, e⟩ := List.any_eq_true.mp hany
      exact List.mem_map.mpr ⟨i, hi, (of_decide_eq_true e).2⟩
    next hany =>
      dsimp only
      split
      next hfull => exact .inr (.inl ⟨rfl, rfl⟩)
      next hroom =>
        refine .inr (.inr ⟨?_, rfl, slots_write m key, rfl⟩)
        intro hm
        obtain ⟨i, hi, e⟩ := List.mem_map.mp hm
        refine hany (List.any_eq_true.mpr ⟨i, hi, decide_eq_true ⟨?_, e⟩⟩)
        have := List.mem_range.mp hi
        omega

end Maps

/-! ### Daemons and clients -/

/-- How far the daemon is: `m` are its maps, `count` the pipes of its pool. -/
inductive Phase
  | down
  | loaded (m count : Nat)
  | filling (m count i : Nat)
  | up (m count : Nat)
deriving DecidableEq, Repr

/-- The key `init` publishes next. -/
def Phase.filling? : Phase → Option (Nat × Nat)
  | .filling m _ i => some (m, i)
  | .down | .loaded .. | .up .. => none

def Phase.maps? : Phase → Option Nat
  | .down => none
  | .loaded m _ | .filling m .. | .up m _ => some m

/-- The pool, from the moment its freelist has been emptied. -/
def Phase.pool? : Phase → Option (Nat × Nat)
  | .filling m count _ | .up m count => some (m, count)
  | .down | .loaded .. => none

/-- Where a client is: outside, or in `acquire` or `release` with the lock, about to make the next map call
    of `popDpipe` or `pushDpipe`, with what it has read so far, or with the key that it has just popped. -/
inductive Spot
  | out
  | dead
  | popSlot (slot : Nat)
  | popWrite (slot key : Nat)
  | popped (key : Nat)
  | pushSlot (key slot : Nat)
  | pushWrite (key slot : Nat)
deriving DecidableEq, Repr

def Spot.busy : Spot → Bool
  | .out | .dead => false
  | .popSlot .. | .popWrite .. | .popped .. | .pushSlot .. | .pushWrite .. => true

structure Site where
  /-- every pair of maps ever made, and how many there are -/
  maps : Nat → Maps := fun _ => {}
  made : Nat := 0
  pinned : Option Nat := none
  phase : Phase := .down
  /-- the lock in the arena that goes with the maps, and who took it -/
  lock : Nat → Option Nat := fun _ => none
  /-- the maps a client's descriptors name -/
  fds : Nat → Option Nat := fun _ => none
  spot : Nat → Spot := fun _ => .out
  /-- the keys popped and not given back, each with the client that has it -/
  held : List (Nat × Nat) := []

inductive Label
  | load (max_pipes count : Nat)
  | reset
  | publish
  | finish
  | breakLock
  | die
  | stop
  | openShared (c : Nat)
  | popDpipe (c : Nat)
  | release (c key : Nat) (locked : Bool)
  | call (c : Nat) (ok : Bool)
  | exit (c : Nat)

namespace Site

def setMaps (s : Site) (m : Nat) (x : Maps) : Site := { s with maps := Function.update s.maps m x }

/-- The keys held by clients whose descriptors name these maps. -/
def heldOn (s : Site) (m : Nat) : List Nat := (s.held.filter fun x => s.fds x.1 = some m).map Prod.snd

/-- The daemon leaves in good order, or because `init` has failed: the pins go. -/
def leave (s : Site) : Site := { s with phase := .down, pinned := none }

def free (s : Site) (m : Nat) : Site := { s with lock := Function.update s.lock m none }

def goto (s : Site) (c : Nat) (p : Spot) : Site := { s with spot := Function.update s.spot c p }

/-- The key is in nobody's hand any more. -/
def drop (s : Site) (c key : Nat) : Site := { s with held := s.held.erase (c, key) }

/-- `lockPipes`, and the read of `dpipes_meta_map` that comes first. -/
def enter (s : Site) (c m : Nat) (p : Spot) : Site := { s with lock := Function.update s.lock m (some c) }.goto c p

/-- `unlockPipes`, after the last call or one that failed. -/
def unlock (s : Site) (c m : Nat) : Site := (s.free m).goto c .out

/-- The next map call of client `c`, on maps `m`; `ok` is whether it goes through. The update of a slot
    that the map does not have is refused, and the key is lost. -/
def call (s : Site) (c m : Nat) (ok : Bool) : Option Site :=
  match s.spot c with
  | .out | .dead => none
  | .popSlot slot =>
    if !ok ∨ slot ≥ (s.maps m).max_entries then some (s.unlock c m)
    else some (s.goto c (.popWrite slot ((s.maps m).freelist slot)))
  | .popWrite slot key =>
    if ok then
      some (({ s with held := (c, key) :: s.held }.setMaps m { s.maps m with num_free := slot }).goto c (.popped key))
    else some (s.unlock c m)
  -- `acquire` reads the pipe and takes its reference; if that fails it pushes the key at once
  | .popped key =>
    if ok then some (s.unlock c m) else some (s.goto c (.pushSlot key (s.maps m).num_free))
  | .pushSlot key slot =>
    if !ok ∨ slot ≥ (s.maps m).max_entries then some ((s.drop c key).unlock c m)
    else some ((s.setMaps m { s.maps m with freelist := Function.update (s.maps m).freelist slot key }).goto c
      (.pushWrite key slot))
  | .pushWrite key slot =>
    if ok then some (((s.drop c key).setMaps m { s.maps m with num_free := slot + 1 }).unlock c m)
    else some ((s.drop c key).unlock c m)

/-- On descriptors that were closed under it every call fails. -/
def callClosed (s : Site) (c : Nat) : Option Site :=
  match s.spot c with
  | .out | .dead => none
  | .popSlot .. | .popWrite .. => some (s.goto c .out)
  | .popped key | .pushSlot key _ | .pushWrite key _ => some ((s.drop c key).goto c .out)

def step (s : Site) : Label → Option Site
  -- a second daemon is turned away; pins of another shape cannot be used again
  | .load max_pipes count =>
    if s.phase ≠ .down ∨ max_pipes < count then none
    else
      match s.pinned with
      | some m =>
        if (s.maps m).max_entries = max_pipes then some ({ s with phase := .loaded m count }.free m) else none
      | none => some (({ s with made := s.made + 1, pinned := some s.made, phase := .loaded s.made count }.setMaps
          s.made { max_entries := max_pipes }).free s.made)
  | .reset =>
    match s.phase with
    | .loaded m count => some ({ s with phase := .filling m count 0 }.setMaps m { s.maps m with num_free := 0 })
    | _ => none
  | .publish =>
    match s.phase with
    | .filling m count i =>
      if i < count then
        let r := (s.maps m).release count i
        if r.1 then some ({ s with phase := .filling m count (i + 1) }.setMaps m r.2) else some s.leave
      else none
    | _ => none
  | .finish =>
    match s.phase with
    | .filling m count i =>
      if i = count then some ({ s with phase := .up m count }.setMaps m { s.maps m with num_free := count })
      else none
    | _ => none
  -- `breakStaleLock`, on a lock that somebody has had for a second
  | .breakLock =>
    match s.phase with
    | .up m _ => some (s.free m)
    | _ => none
  | .die => if s.phase = .down then none else some { s with phase := .down }
  | .stop => if s.phase = .down then none else some s.leave
  | .openShared c => if s.spot c = .dead then none else some { s with fds := Function.update s.fds c s.pinned }
  | .popDpipe c =>
    match s.fds c with
    | none => none
    | some m =>
      if s.spot c ≠ .out ∨ s.lock m ≠ none ∨ (s.maps m).num_free = 0 then none
      else some (s.enter c m (.popSlot ((s.maps m).num_free - 1)))
  -- `release` with the key the connection kept; without the lock the key is lost
  | .release c key locked =>
    if (c, key) ∈ s.held ∧ s.spot c = .out then
      match s.fds c with
      | none => some (s.drop c key)
      | some m =>
        if !locked then some (s.drop c key)
        else if s.lock m ≠ none then none
        else some (s.enter c m (.pushSlot key (s.maps m).num_free))
    else none
  | .call c ok =>
    match s.fds c with
    | none => s.callClosed c
    | some m => s.call c m ok
  | .exit c => some ({ s with held := s.held.filter fun x => x.1 ≠ c }.goto c .dead)

/-- Once `init` has returned: no key is in two slots or in a slot and with a client, and there are no
    more keys than pipes. -/
def Exclusive (s : Site) : Prop :=
  ∀ m count, s.phase = .up m count → (s.maps m).slots.Nodup ∧ (∀ k ∈ (s.maps m).slots, k ∉ s.heldOn m) ∧
    (s.maps m).num_free ≤ count

/-- Nobody alive has the lock of these maps, so nobody is in the middle of a pop or a push. -/
def Quiet (s : Site) (m : Nat) : Prop := ∀ c ∈ s.lock m, s.spot c = .dead

instance (s : Site) (m : Nat) : Decidable (s.Quiet m) :=
  inferInstanceAs (Decidable (∀ c ∈ s.lock m, s.spot c = .dead))

/-- The maps that the daemon's next step is about. -/
def maps? (s : Site) : Label → Option Nat
  | .load .. => s.pinned
  | .reset | .publish | .finish | .breakLock => s.phase.maps?
  | _ => none

def InOrder (s : Site) : Label → Prop
  | .publish => ∀ x ∈ s.phase.filling?, x.2 ∉ s.heldOn x.1
  | .popDpipe c => ∀ x ∈ s.phase.filling?, s.fds c ≠ some x.1
  | .release c key _ => ∀ x ∈ s.phase.pool?, s.fds c = some x.1 → key < x.2
  | .openShared c => (∀ x ∈ s.held, x.1 ≠ c) ∧ (s.spot c).busy = false
  | .load .. | .reset | .finish | .breakLock | .die | .stop | .call .. | .exit _ => True

instance (s : Site) : (l : Label) → Decidable (s.InOrder l)
  | .publish => inferInstanceAs (Decidable (∀ x ∈ s.phase.filling?, x.2 ∉ s.heldOn x.1))
  | .popDpipe c => inferInstanceAs (Decidable (∀ x ∈ s.phase.filling?, s.fds c ≠ some x.1))
  | .release c key _ =>
    inferInstanceAs (Decidable (∀ x ∈ s.phase.pool?, s.fds c = some x.1 → key < x.2))
  | .openShared c => inferInstanceAs (Decidable ((∀ x ∈ s.held, x.1 ≠ c) ∧ (s.spot c).busy = false))
  | .load .. | .reset | .finish | .breakLock | .die | .stop | .call .. | .exit _ => .isTrue trivial

/-- A key popped before the restart is back before `init` publishes it, or was never one of the new
    pool; no client begins a pop while `init` runs; no client is switched to other maps with a key in hand
    or in the middle of a pop or a push; and nobody is in the middle of one when a daemon loads the maps,
    at a step of `init` or when the lock is freed. -/
def Orderly (s : Site) (l : Label) : Prop := (∀ m ∈ s.maps? l, s.Quiet m) ∧ s.InOrder l

instance (s : Site) (l : Label) : Decidable (s.Orderly l) :=
  inferInstanceAs (Decidable (_ ∧ _))

/-! ### The invariant -/

/-- What the phase says about the slots of the daemon's maps. -/
def Filled (s : Site) : Phase → Prop
  | .down => True
  | .loaded m count => count ≤ (s.maps m).max_entries
  | .filling m count i => count ≤ (s.maps m).max_entries ∧ i ≤ count ∧ (∀ k ∈ (s.maps m).slots, k < count) ∧
      ∀ k < i, k ∈ (s.maps m).slots
  | .up m count => ∀ k ∈ (s.maps m).slots, k < count

/-- What client `c` has read from maps `m` is still so. -/
def Fits (s : Site) (c m : Nat) : Spot → Prop
  | .out | .dead => True
  | .popSlot slot => slot + 1 = (s.maps m).num_free ∧ ∀ x ∈ s.phase.filling?, x.1 ≠ m
  | .popWrite slot key => (slot + 1 = (s.maps m).num_free ∧ ∀ x ∈ s.phase.filling?, x.1 ≠ m) ∧
      (s.maps m).freelist slot = key
  | .popped key => (c, key) ∈ s.held ∧ ∀ x ∈ s.phase.pool?, x.1 = m → key < x.2
  | .pushSlot key slot => slot = (s.maps m).num_free ∧ (c, key) ∈ s.held ∧
      ∀ x ∈ s.phase.pool?, x.1 = m → key < x.2
  | .pushWrite key slot => (slot = (s.maps m).num_free ∧ (c, key) ∈ s.held ∧
      ∀ x ∈ s.phase.pool?, x.1 = m → key < x.2) ∧ (s.maps m).freelist slot = key

/-- Clients in the middle of a pop or a push have the lock, and what they have read fits. -/
structure Locked (s : Site) : Prop where
  crit : ∀ c, (s.spot c).busy = true → ∃ m, s.fds c = some m ∧ s.lock m = some c
  fits : ∀ c m, s.fds c = some m → s.Fits c m (s.spot c)

structure Inv (s : Site) : Prop where
  apart : ∀ m, ((s.maps m).slots ++ s.heldOn m).Nodup
  unmade : ∀ m, s.made ≤ m → ∀ c, s.fds c ≠ some m
  pinned : ∀ m ∈ s.pinned, m < s.made
  filled : s.Filled s.phase
  locked : s.Locked

theorem inv_start : Inv {} := by
  refine ⟨fun m => List.nodup_nil, ?_, ?_, trivial, ?_, ?_⟩
  · intro m _ c hc
    cases hc
  · intro m hm
    cases hm
  · intro c hc
    cases hc
  · intro c m hc
    cases hc

variable {s s' : Site} {m count c : Nat}

/-- Keys below `count` in a list without repetition: no more than `count`, and if as many, all. -/
theorem subperm_range {l : List Nat} (h : l.Nodup) (hlt : ∀ k ∈ l, k < count) : l.Subperm (List.range count) :=
  List.subperm_of_subset h fun k hk => List.mem_range.mpr (hlt k hk)

theorem Inv.slots_nodup (h : s.Inv) (m : Nat) : (s.maps m).slots.Nodup := (List.nodup_append.mp (h.apart m)).1

theorem Inv.exclusive (h : s.Inv) : s.Exclusive := by
  intro m count hp
  have hf := h.filled
  rw [hp] at hf
  refine ⟨h.slots_nodup m, ?_, ?_⟩
  · intro k hk hh
    exact (List.nodup_append.mp (h.apart m)).2.2 k hk k hh rfl
  · rw [← Maps.length_slots]
    simpa using (subperm_range (h.slots_nodup m) hf).length_le

/-! ### Clients in the middle of a call -/

theorem fits_of_idle {p : Spot} (h : p.busy = false) : s.Fits c m p := by
  cases p with
  | out | dead => trivial
  | popSlot | popWrite | popped | pushSlot | pushWrite => cases h

namespace Locked

/-- Where nobody alive has the lock nobody is busy. -/
theorem idle (h : s.Locked) (hq : s.Quiet m) (hc : s.fds c = some m) : (s.spot c).busy = false := by
  cases hb : (s.spot c).busy with
  | false => rfl
  | true =>
    obtain ⟨m', hm', hl⟩ := h.crit c hb
    rw [hc] at hm'
    cases hm'
    rw [hq c hl] at hb
    cases hb

/-- What `c` has read is about maps, keys and a phase that have not changed. -/
theorem fits_congr {p : Spot} (h : s.Fits c m p) (hm : s'.maps m = s.maps m)
    (hheld : ∀ k, (c, k) ∈ s.held → (c, k) ∈ s'.held)
    (hpool : ∀ x ∈ s'.phase.pool?, x.1 = m → x ∈ s.phase.pool?)
    (hfill : ∀ x ∈ s'.phase.filling?, x.1 = m → x ∈ s.phase.filling?) : s'.Fits c m p := by
  have hno : (∀ x ∈ s.phase.filling?, x.1 ≠ m) → ∀ x ∈ s'.phase.filling?, x.1 ≠ m :=
    fun hf x hx e => hf x (hfill x hx e) e
  cases p with
  | out | dead => trivial
  | popSlot slot => exact ⟨hm ▸ h.1, hno h.2⟩
  | popWrite slot key => exact ⟨⟨hm ▸ h.1.1, hno h.1.2⟩, hm ▸ h.2⟩
  | popped key => exact ⟨hheld key h.1, fun x hx e => h.2 x (hpool x hx e) e⟩
  | pushSlot key slot => exact ⟨hm ▸ h.1, hheld key h.2.1, fun x hx e => h.2.2 x (hpool x hx e) e⟩
  | pushWrite key slot =>
    exact ⟨⟨hm ▸ h.1.1, hheld key h.1.2.1, fun x hx e => h.1.2.2 x (hpool x hx e) e⟩, hm ▸ h.2⟩

/-- The daemon does something to maps on which nobody is busy. -/
theorem daemon (h : s.Locked) (hidle : ∀ c, s.fds c = some m → (s.spot c).busy = false)
    (hspot : s'.spot = s.spot) (hfds : s'.fds = s.fds) (hheld : s'.held = s.held)
    (hmaps : ∀ m', m' ≠ m → s'.maps m' = s.maps m') (hlock : ∀ m', m' ≠ m → s'.lock m' = s.lock m')
    (hpool : ∀ x ∈ s'.phase.pool?, x.1 ≠ m → x ∈ s.phase.pool?)
    (hfill : ∀ x ∈ s'.phase.filling?, x.1 ≠ m → x ∈ s.phase.filling?) : s'.Locked := by
  refine ⟨fun c hb => ?_, fun c m' hc => ?_⟩
  · rw [hspot] at hb
    obtain ⟨m', hm', hl⟩ := h.crit c hb
    have hne : m' ≠ m := by
      rintro rfl
      rw [hidle c hm'] at hb
      cases hb
    exact ⟨m', hfds ▸ hm', by rw [hlock m' hne]; exact hl⟩
  · rw [hfds] at hc
    rw [hspot]
    by_cases e : m' = m
    · subst e
      exact fits_of_idle (hidle c hc)
    · exact fits_congr (h.fits c m' hc) (hmaps m' e) (fun k hk => hheld ▸ hk) (fun x hx ex => hpool x hx (ex ▸ e))
        fun x hx ex => hfill x hx (ex ▸ e)

/-- Client `c`, which has the lock of maps `m` or takes it, moves on. -/
theorem client {p : Spot} (h : s.Locked) (hc : s.fds c = some m) (hlock : s.lock m = none ∨ s.lock m = some c)
    (hspot : s'.spot = Function.update s.spot c p) (hfds : s'.fds = s.fds) (hphase : s'.phase = s.phase)
    (hmaps : ∀ m', m' ≠ m → s'.maps m' = s.maps m') (hlocks : ∀ m', m' ≠ m → s'.lock m' = s.lock m')
    (hheld : ∀ d k, d ≠ c → (d, k) ∈ s.held → (d, k) ∈ s'.held) (hcrit : p.busy = true → s'.lock m = some c)
    (hfits : s'.Fits c m p) : s'.Locked := by
  -- whoever else is busy has the lock of other maps
  have other : ∀ {d m'}, d ≠ c → s.lock m' = some d → m' ≠ m := by
    rintro d m' hd hl rfl
    rcases hlock with e | e <;> rw [e] at hl
    · cases hl
    · exact hd (Option.some.inj hl).symm
  refine ⟨fun d hb => ?_, fun d m' hd => ?_⟩
  · rw [hspot, Function.update_apply] at hb
    rw [hfds]
    split at hb
    next e => exact ⟨m, e ▸ hc, by rw [e]; exact hcrit hb⟩
    next e =>
      obtain ⟨m', hm', hl⟩ := h.crit d hb
      exact ⟨m', hm', by rw [hlocks m' (other e hl)]; exact hl⟩
  · rw [hfds] at hd
    rw [hspot, Function.update_apply]
    split
    next e =>
      subst e
      rw [hc] at hd
      cases hd
      exact hfits
    next e =>
      cases hb : (s.spot d).busy with
      | false => exact fits_of_idle hb
      | true =>
        obtain ⟨m₁, hm₁, hl⟩ := h.crit d hb
        rw [hd] at hm₁
        cases hm₁
        exact fits_congr (h.fits d m' hd) (hmaps m' (other e hl)) (fun k hk => hheld d k e hk)
          (fun x hx _ => hphase ▸ hx) fun x hx _ => hphase ▸ hx

/-- Client `c` goes where it does nothing. -/
theorem rests {p : Spot} (h : s.Locked) (hp : p.busy = false) (hspot : s'.spot = Function.update s.spot c p)
    (hfds : ∀ d, d ≠ c → s'.fds d = s.fds d) (hphase : s'.phase = s.phase) (hmaps : s'.maps = s.maps)
    (hlock : s'.lock = s.lock) (hheld : ∀ d k, d ≠ c → (d, k) ∈ s.held → (d, k) ∈ s'.held) : s'.Locked := by
  refine ⟨fun d hb => ?_, fun d m' hd => ?_⟩
  · rw [hspot, Function.update_apply] at hb
    split at hb
    next => rw [hp] at hb; cases hb
    next e => rw [hfds d e, hlock]; exact h.crit d hb
  · rw [hspot, Function.update_apply]
    split
    next => exact fits_of_idle hp
    next e =>
      rw [hfds d e] at hd
      exact fits_congr (h.fits d m' hd) (by rw [hmaps]) (fun k hk => hheld d k e hk) (fun x hx _ => hphase ▸ hx)
        fun x hx _ => hphase ▸ hx

end Locked

/-! ### Steps -/

@[simp] theorem setMaps_self (s : Site) (m : Nat) (x : Maps) : (s.setMaps m x).maps m = x :=
  Function.update_self ..

theorem setMaps_of_ne (s : Site) {m m' : Nat} (h : m' ≠ m) (x : Maps) : (s.setMaps m x).maps m' = s.maps m' :=
  Function.update_of_ne h ..

/-- One pair of maps changes and the keys in hand stay as they were. -/
theorem apart_setMaps (h : s.Inv) {x : Maps} (hh : s'.heldOn = s.heldOn)
    (hm : s'.maps = Function.update s.maps m x) (hx : (x.slots ++ s.heldOn m).Nodup) (m' : Nat) :
    ((s'.maps m').slots ++ s'.heldOn m').Nodup := by
  rw [hh, hm]
  by_cases e : m' = m
  · rw [e, Function.update_self]
    exact hx
  · rw [Function.update_of_ne e]
    exact h.apart m'

/-- A key more in the hands of a client of these maps. -/
theorem heldOn_cons (s : Site) (c key m : Nat) :
    { s with held := (c, key) :: s.held }.heldOn m = if s.fds c = some m then key :: s.heldOn m else s.heldOn m := by
  unfold heldOn
  rw [List.filter_cons]
  dsimp only
  split <;> simp_all

/-- A key less. -/
theorem heldOn_drop {key : Nat} (hk : (c, key) ∈ s.held) (m : Nat) :
    (s.heldOn m).Perm (if s.fds c = some m then key :: (s.drop c key).heldOn m else (s.drop c key).heldOn m) := by
  have hcons := heldOn_cons (s.drop c key) c key m
  rw [show (s.drop c key).fds = s.fds from rfl] at hcons
  rw [← hcons]
  exact ((List.perm_cons_erase hk).filter _).map _

theorem Inv.apart_drop (h : s.Inv) {key : Nat} (hk : (c, key) ∈ s.held) (m : Nat) :
    ((s.maps m).slots ++ (s.drop c key).heldOn m).Nodup := by
  have hp := ((heldOn_drop hk m).append_left (s.maps m).slots).nodup_iff.mp (h.apart m)
  split at hp
  · exact ((List.perm_middle.nodup_iff.trans List.nodup_cons).mp hp).2
  · exact hp

theorem mem_drop_of_ne {key d k : Nat} (hd : d ≠ c) (h : (d, k) ∈ s.held) : (d, k) ∈ (s.drop c key).held :=
  (List.mem_erase_of_ne fun e => hd (congrArg Prod.fst e)).mpr h

/-- Nobody's descriptors name maps that have not been made. -/
theorem Inv.idle_made (h : s.Inv) (c : Nat) (hc : s.fds c = some s.made) : (s.spot c).busy = false :=
  absurd hc (h.unmade _ (Nat.le_refl _) c)

/-- The daemon goes away, with its pins or without. -/
theorem Inv.down (h : s.Inv) {pinned : Option Nat} (hp : ∀ m ∈ pinned, m < s.made) :
    Inv { s with phase := .down, pinned := pinned } := by
  refine ⟨h.apart, h.unmade, hp, trivial, ?_⟩
  refine h.locked.daemon h.idle_made rfl rfl rfl (fun _ _ => rfl) (fun _ _ => rfl) ?_ ?_ <;>
  · intro x hx
    cases hx

/-- `init` at work on its maps, where nobody is busy. -/
theorem Inv.init (h : s.Inv) {x : Maps} {p : Phase} (hq : s.Quiet m) (hp : p.maps? = some m)
    (hx : (x.slots ++ s.heldOn m).Nodup) (hf : ({ s with phase := p }.setMaps m x).Filled p) :
    Inv ({ s with phase := p }.setMaps m x) := by
  refine ⟨apart_setMaps h rfl rfl hx, h.unmade, h.pinned, hf, ?_⟩
  refine h.locked.daemon (fun c hc => h.locked.idle hq hc) rfl rfl rfl (fun m' e => Function.update_of_ne e ..)
    (fun _ _ => rfl) ?_ ?_ <;>
  · intro y hy hne
    cases p <;> cases hy <;> cases hp <;> exact absurd rfl hne

theorem inv_load {max_pipes : Nat} (h : s.Inv) (ho : s.Orderly (.load max_pipes count))
    (hs : s.step (.load max_pipes count) = some s') : s'.Inv := by
  simp only [step] at hs
  split at hs
  · cases hs
  next hok =>
    have hle : count ≤ max_pipes := by
      simp only [not_or, Nat.not_lt] at hok
      exact hok.2
    cases hp : s.pinned with
    | some m =>
      rw [hp] at hs
      dsimp only at hs
      split at hs
      next hmax =>
        cases hs
        refine ⟨h.apart, h.unmade, ?_, ?_, ?_⟩
        · rw [← hp]
          exact h.pinned
        · show count ≤ (s.maps m).max_entries
          rw [hmax]
          exact hle
        · refine h.locked.daemon (m := m) (fun c hc => h.locked.idle (ho.1 m hp) hc) rfl rfl rfl
            (fun _ _ => rfl) (fun m' e => Function.update_of_ne e ..) ?_ ?_ <;>
          · intro x hx
            cases hx
      · cases hs
    | none =>
      rw [hp] at hs
      cases hs
      have hnone : s.heldOn s.made = [] := by
        unfold heldOn
        rw [List.map_eq_nil_iff, List.filter_eq_nil_iff]
        intro x _
        simpa using h.unmade s.made (Nat.le_refl _) x.1
      refine ⟨apart_setMaps h rfl rfl ?_, ?_, ?_, ?_, ?_⟩
      · rw [hnone]
        exact List.nodup_nil
      · intro m hm c
        exact h.unmade m (Nat.le_of_succ_le hm) c
      · intro m hm
        cases hm
        exact Nat.lt_succ_self _
      · show count ≤ ((Site.setMaps _ _ _).maps s.made).max_entries
        rw [setMaps_self]
        exact hle
      · refine h.locked.daemon h.idle_made rfl rfl rfl (fun m' e => Function.update_of_ne e ..)
          (fun m' e => Function.update_of_ne e ..) ?_ ?_ <;>
        · intro x hx
          cases hx

/-- The freelist is emptied; what clients hold they still hold. -/
theorem inv_reset (h : s.Inv) (ho : s.Orderly .reset) (hs : s.step .reset = some s') : s'.Inv := by
  simp only [step] at hs
  split at hs
  next m count hp =>
    cases hs
    have hf := h.filled
    rw [hp] at hf
    refine h.init (ho.1 m (by rw [maps?, hp]; rfl)) rfl (List.nodup_append.mp (h.apart m)).2.1 ?_
    simp only [Filled, setMaps, Function.update_self]
    refine ⟨hf, Nat.zero_le _, ?_, ?_⟩
    · exact fun k hk => absurd hk List.not_mem_nil
    · exact fun k hk => absurd hk (Nat.not_lt_zero k)
  · cases hs

/-- A key is published that no client of these maps holds. -/
theorem inv_publish (h : s.Inv) (ho : s.Orderly .publish) (hs : s.step .publish = some s') : s'.Inv := by
  simp only [step] at hs
  split at hs
  next m count i hp =>
    have hf := h.filled
    rw [hp] at hf
    obtain ⟨hmax, hi, hlt, hall⟩ := hf
    have hq : s.Quiet m := ho.1 m (by rw [maps?, hp]; rfl)
    have hnot : i ∉ s.heldOn m := by
      refine ho.2 (m, i) ?_
      rw [hp]
      rfl
    split at hs
    next hic =>
      rcases (s.maps m).release_cases count i with ⟨e, hwhy⟩ | ⟨e, -⟩ | ⟨hnew, e, hslots, hent⟩
      · -- the key is on the list already, or the list holds every key
        rw [e] at hs
        cases hs
        have hmem : i ∈ (s.maps m).slots := by
          rcases hwhy with hfull | hmem
          · have hperm := (subperm_range (h.slots_nodup m) hlt).perm_of_length_le
              (by simpa [Maps.length_slots] using hfull)
            exact hperm.mem_iff.mpr (List.mem_range.mpr hic)
          · exact hmem
        refine h.init hq rfl (h.apart m) ?_
        simp only [Filled, setMaps, Function.update_self]
        refine ⟨hmax, hic, hlt, ?_⟩
        intro k hk
        rcases Nat.lt_succ_iff_lt_or_eq.mp hk with hk | rfl
        · exact hall k hk
        · exact hmem
      · rw [e] at hs
        cases hs
        refine h.down ?_
        intro m hm
        cases hm
      · rw [if_pos e] at hs
        cases hs
        refine h.init hq rfl ?_ ?_
        · rw [hslots, List.append_assoc, List.singleton_append]
          refine (List.perm_middle.nodup_iff.trans List.nodup_cons).mpr ⟨?_, h.apart m⟩
          simp [hnew, hnot]
        · simp only [Filled, setMaps, Function.update_self, hslots, hent]
          refine ⟨hmax, hic, ?_, ?_⟩
          · intro k hk
            rcases List.mem_append.mp hk with hk | hk
            · exact hlt k hk
            · rw [List.mem_singleton.mp hk]
              exact hic
          · intro k hk
            rcases Nat.lt_succ_iff_lt_or_eq.mp hk with hk | rfl
            · exact List.mem_append_left _ (hall k hk)
            · exact List.mem_append_right _ List.mem_cons_self
    · cases hs
  · cases hs

/-- The last write of `init` finds the count it writes. -/
theorem inv_finish (h : s.Inv) (ho : s.Orderly .finish) (hs : s.step .finish = some s') : s'.Inv := by
  simp only [step] at hs
  split at hs
  next m count i hp =>
    have hf := h.filled
    rw [hp] at hf
    obtain ⟨-, -, hlt, hall⟩ := hf
    split at hs
    next hic =>
      cases hs
      have hperm : (s.maps m).slots.Perm (List.range count) := by
        refine (List.perm_ext_iff_of_nodup (h.slots_nodup m) List.nodup_range).mpr ?_
        intro k
        rw [List.mem_range]
        exact ⟨hlt k, fun hk => hall k (hic ▸ hk)⟩
      have hnum : (s.maps m).num_free = count := by
        rw [← Maps.length_slots, hperm.length_eq, List.length_range]
      have hsame : { s.maps m with num_free := count } = s.maps m := by
        rw [← hnum]
      rw [hsame]
      refine h.init (ho.1 m (by rw [maps?, hp]; rfl)) rfl (h.apart m) ?_
      simp only [Filled, setMaps, Function.update_self]
      exact hlt
    · cases hs
  · cases hs

/-- What a client's pop or push on maps `m` leaves to be shown about the daemon's own. -/
theorem filled_setMaps (h : s.Inv) {x : Maps} (hmax : x.max_entries = (s.maps m).max_entries)
    (hlt : ∀ y ∈ s.phase.pool?, y.1 = m → ∀ k ∈ x.slots, k ∈ (s.maps m).slots ∨ k < y.2)
    (hall : ∀ y ∈ s.phase.filling?, y.1 = m → ∀ k ∈ (s.maps m).slots, k ∈ x.slots) :
    (s.setMaps m x).Filled s.phase := by
  have hf := h.filled
  cases hp : s.phase with
  | down => trivial
  | loaded m' count =>
    rw [hp] at hf
    by_cases e : m' = m
    · subst e
      simp only [Filled, setMaps_self, hmax]
      exact hf
    · simp only [Filled, setMaps_of_ne s e]
      exact hf
  | filling m' count i =>
    rw [hp] at hf hlt hall
    by_cases e : m' = m
    · subst e
      simp only [Filled, setMaps_self, hmax]
      refine ⟨hf.1, hf.2.1, ?_, ?_⟩
      · intro k hk
        exact (hlt (m', count) rfl rfl k hk).elim (hf.2.2.1 k) id
      · intro k hk
        exact hall (m', i) rfl rfl k (hf.2.2.2 k hk)
    · simp only [Filled, setMaps_of_ne s e]
      exact hf
  | up m' count =>
    rw [hp] at hf hlt
    by_cases e : m' = m
    · subst e
      simp only [Filled, setMaps_self]
      intro k hk
      exact (hlt (m', count) rfl rfl k hk).elim (hf k) id
    · simp only [Filled, setMaps_of_ne s e]
      exact hf

/-- `popDpipe` starts: the lock was free, and the list is not empty. -/
theorem inv_pop (h : s.Inv) (ho : s.Orderly (.popDpipe c)) (hs : s.step (.popDpipe c) = some s') : s'.Inv := by
  simp only [step] at hs
  split at hs
  · cases hs
  next m hfd =>
    split at hs
    · cases hs
    next hok =>
      cases hs
      obtain ⟨-, hfree, hn⟩ : s.spot c = .out ∧ s.lock m = none ∧ (s.maps m).num_free ≠ 0 := by
        simpa only [not_or, not_not, ne_eq] using hok
      refine ⟨h.apart, h.unmade, h.pinned, h.filled, ?_⟩
      refine h.locked.client hfd (.inl hfree) rfl rfl rfl (fun _ _ => rfl) (fun m' e => Function.update_of_ne e ..)
        (fun _ _ _ hk => hk) (fun _ => Function.update_self ..) ⟨?_, ?_⟩
      · exact Nat.sub_add_cancel (Nat.pos_of_ne_zero hn)
      · intro x hx e
        exact ho.2 x hx (e ▸ hfd)

/-- A connection gives its key back: the push starts, or the key is lost. -/
theorem inv_release {key : Nat} {locked : Bool} (h : s.Inv) (ho : s.Orderly (.release c key locked))
    (hs : s.step (.release c key locked) = some s') : s'.Inv := by
  simp only [step] at hs
  split at hs
  next hk =>
    obtain ⟨hk, hout⟩ := hk
    have hlost : (s.drop c key).Inv := by
      refine ⟨h.apart_drop hk, h.unmade, h.pinned, h.filled, ?_⟩
      exact h.locked.rests (by rw [hout]; rfl) (Function.update_eq_self c s.spot).symm (fun _ _ => rfl) rfl rfl rfl
        fun _ _ hd hk => mem_drop_of_ne hd hk
    split at hs
    · cases hs
      exact hlost
    next m hfd =>
      split at hs
      · cases hs
        exact hlost
      · split at hs
        · cases hs
        next hfree =>
          cases hs
          refine ⟨h.apart, h.unmade, h.pinned, h.filled, ?_⟩
          refine h.locked.client hfd (.inl (not_not.mp hfree)) rfl rfl rfl (fun _ _ => rfl)
            (fun m' e => Function.update_of_ne e ..) (fun _ _ _ hk => hk) (fun _ => Function.update_self ..)
            ⟨rfl, hk, ?_⟩
          intro x hx e
          exact ho.2 x hx (e ▸ hfd)
  · cases hs

/-- The lock is given back after the last call or one that failed. -/
theorem Locked.unlock {t : Site} (h : s.Locked) (hfd : s.fds c = some m) (hl : s.lock m = some c)
    (hfds : t.fds = s.fds) (hphase : t.phase = s.phase) (hlock : t.lock = s.lock) (hspot : t.spot = s.spot)
    (hmaps : ∀ m', m' ≠ m → t.maps m' = s.maps m')
    (hheld : ∀ d k, d ≠ c → (d, k) ∈ s.held → (d, k) ∈ t.held) : (t.unlock c m).Locked := by
  refine h.client (p := .out) hfd (.inr hl) ?_ hfds hphase hmaps ?_ hheld (fun hp => absurd hp Bool.false_ne_true)
    trivial
  · exact congrArg (Function.update · c .out) hspot
  · intro m' e
    exact (Function.update_of_ne e ..).trans (congrFun hlock m')

/-- Nothing comes of a pop. -/
theorem Inv.unlock (h : s.Inv) (hfd : s.fds c = some m) (hl : s.lock m = some c) : (s.unlock c m).Inv :=
  ⟨h.apart, h.unmade, h.pinned, h.filled,
    h.locked.unlock hfd hl rfl rfl rfl rfl (fun _ _ => rfl) fun _ _ _ hk => hk⟩

/-- Nothing comes of a push, and the key is lost. -/
theorem Inv.lose (h : s.Inv) (hfd : s.fds c = some m) (hl : s.lock m = some c) {key : Nat}
    (hk : (c, key) ∈ s.held) : ((s.drop c key).unlock c m).Inv :=
  ⟨h.apart_drop hk, h.unmade, h.pinned, h.filled,
    h.locked.unlock hfd hl rfl rfl rfl rfl (fun _ _ => rfl) fun _ _ hd hk => mem_drop_of_ne hd hk⟩

theorem inv_popSlot {slot : Nat} {ok : Bool} (h : s.Inv) (hfd : s.fds c = some m) (hl : s.lock m = some c)
    (hp : s.spot c = .popSlot slot) (hs : s.call c m ok = some s') : s'.Inv := by
  have hfit := h.locked.fits c m hfd
  rw [hp] at hfit
  simp only [call, hp] at hs
  split at hs <;> cases hs
  · exact h.unlock hfd hl
  · refine ⟨h.apart, h.unmade, h.pinned, h.filled, ?_⟩
    exact h.locked.client hfd (.inr hl) rfl rfl rfl (fun _ _ => rfl) (fun _ _ => rfl) (fun _ _ _ hk => hk)
      (fun _ => hl) ⟨hfit, rfl⟩

/-- Once the freelist is filled, it has keys of the pool only. -/
theorem Inv.slots_lt (h : s.Inv) (hfill : ∀ x ∈ s.phase.filling?, x.1 ≠ m) {key : Nat}
    (hk : key ∈ (s.maps m).slots) : ∀ x ∈ s.phase.pool?, x.1 = m → key < x.2 := by
  have hf := h.filled
  rintro x hx rfl
  cases hp : s.phase with
  | down | loaded => rw [hp] at hx; cases hx
  | filling m' count i =>
    rw [hp] at hx hfill
    cases hx
    exact absurd rfl (hfill (m', i) rfl)
  | up m' count =>
    rw [hp] at hx hf
    cases hx
    exact hf key hk

/-- The key in the top slot goes to the client. -/
theorem inv_popWrite {slot key : Nat} {ok : Bool} (h : s.Inv) (hfd : s.fds c = some m) (hl : s.lock m = some c)
    (hp : s.spot c = .popWrite slot key) (hs : s.call c m ok = some s') : s'.Inv := by
  have hfit := h.locked.fits c m hfd
  rw [hp] at hfit
  obtain ⟨⟨hslot, hfill⟩, hkey⟩ := hfit
  simp only [call, hp] at hs
  split at hs <;> cases hs
  · have hslots := Maps.slots_pred hslot
    rw [hkey] at hslots
    have hmem : key ∈ (s.maps m).slots := hslots ▸ List.mem_append_right _ List.mem_cons_self
    refine ⟨?_, h.unmade, h.pinned, ?_, ?_⟩
    · intro m'
      show (((s.setMaps m _).maps m').slots ++ { s with held := (c, key) :: s.held }.heldOn m').Nodup
      rw [heldOn_cons]
      by_cases e : m' = m
      · subst e
        rw [setMaps_self, if_pos hfd, ← List.singleton_append, ← List.append_assoc, ← hslots]
        exact h.apart m'
      · rw [setMaps_of_ne s e, if_neg (by rw [hfd]; simpa using Ne.symm e)]
        exact h.apart m'
    · refine filled_setMaps h rfl ?_ ?_
      · intro y _ _ k hk
        left
        rw [hslots]
        exact List.mem_append_left _ hk
      · intro y hy e
        exact absurd e (hfill y hy)
    · exact h.locked.client hfd (.inr hl) rfl rfl rfl (fun m' e => Function.update_of_ne e ..) (fun _ _ => rfl)
        (fun _ _ _ hk => List.mem_cons_of_mem _ hk) (fun _ => hl) ⟨List.mem_cons_self, h.slots_lt hfill hmem⟩
  · exact h.unlock hfd hl

/-- The client keeps the key, or starts to push it. -/
theorem inv_popped {key : Nat} {ok : Bool} (h : s.Inv) (hfd : s.fds c = some m) (hl : s.lock m = some c)
    (hp : s.spot c = .popped key) (hs : s.call c m ok = some s') : s'.Inv := by
  have hfit := h.locked.fits c m hfd
  rw [hp] at hfit
  simp only [call, hp] at hs
  split at hs <;> cases hs
  · exact h.unlock hfd hl
  · refine ⟨h.apart, h.unmade, h.pinned, h.filled, ?_⟩
    exact h.locked.client hfd (.inr hl) rfl rfl rfl (fun _ _ => rfl) (fun _ _ => rfl) (fun _ _ _ hk => hk)
      (fun _ => hl) ⟨rfl, hfit⟩

/-- The key is written to a slot that does not count yet. -/
theorem inv_pushSlot {key slot : Nat} {ok : Bool} (h : s.Inv) (hfd : s.fds c = some m) (hl : s.lock m = some c)
    (hp : s.spot c = .pushSlot key slot) (hs : s.call c m ok = some s') : s'.Inv := by
  have hfit := h.locked.fits c m hfd
  rw [hp] at hfit
  obtain ⟨rfl, hk, hpool⟩ := hfit
  simp only [call, hp] at hs
  split at hs <;> cases hs
  · exact h.lose hfd hl hk
  · have hspare := Maps.slots_spare (s.maps m) key
    refine ⟨apart_setMaps h rfl rfl ?_, h.unmade, h.pinned, ?_, ?_⟩
    · rw [hspare]
      exact h.apart m
    · refine filled_setMaps h rfl ?_ ?_
      · intro y _ _ k hk
        exact .inl (hspare ▸ hk)
      · intro y _ _ k hk
        exact hspare.symm ▸ hk
    · refine h.locked.client hfd (.inr hl) rfl rfl rfl (fun m' e => Function.update_of_ne e ..) (fun _ _ => rfl)
        (fun _ _ _ hk => hk) (fun _ => hl) ?_
      simp only [Fits, goto, setMaps, Function.update_self]
      exact ⟨⟨trivial, hk, hpool⟩, trivial⟩

/-- The slot counts, and the key is back. -/
theorem inv_pushWrite {key slot : Nat} {ok : Bool} (h : s.Inv) (hfd : s.fds c = some m) (hl : s.lock m = some c)
    (hp : s.spot c = .pushWrite key slot) (hs : s.call c m ok = some s') : s'.Inv := by
  have hfit := h.locked.fits c m hfd
  rw [hp] at hfit
  obtain ⟨⟨rfl, hk, hpool⟩, hkey⟩ := hfit
  simp only [call, hp] at hs
  split at hs <;> cases hs
  · have hslots := Maps.slots_succ (s.maps m)
    rw [hkey] at hslots
    refine ⟨?_, h.unmade, h.pinned, ?_, ?_⟩
    · intro m'
      show (((s.setMaps m _).maps m').slots ++ (s.drop c key).heldOn m').Nodup
      by_cases e : m' = m
      · subst e
        have hperm := ((heldOn_drop hk m').append_left (s.maps m').slots).nodup_iff.mp (h.apart m')
        rw [if_pos hfd] at hperm
        rw [setMaps_self, hslots, List.append_assoc, List.singleton_append]
        exact hperm
      · rw [setMaps_of_ne s e]
        exact h.apart_drop hk m'
    · refine filled_setMaps h rfl ?_ ?_
      · intro y hy e k hk
        rw [hslots, List.mem_append, List.mem_singleton] at hk
        refine hk.imp_right ?_
        rintro rfl
        exact hpool y hy e
      · intro y _ _ k hk
        rw [hslots]
        exact List.mem_append_left _ hk
    · exact h.locked.unlock hfd hl rfl rfl rfl rfl (fun m' e => Function.update_of_ne e ..)
        fun _ _ hd hk => mem_drop_of_ne hd hk
  · exact h.lose hfd hl hk

/-- A client in the middle of something makes its next call, and has the lock. -/
theorem call_busy {ok : Bool} (h : s.Inv) (hs : s.step (.call c ok) = some s') :
    ∃ m, s.fds c = some m ∧ s.lock m = some c ∧ s.call c m ok = some s' := by
  simp only [step] at hs
  split at hs
  next hfd =>
    -- without descriptors nobody is
    have hidle : (s.spot c).busy = false := by
      cases hb : (s.spot c).busy with
      | false => rfl
      | true =>
        obtain ⟨m, hm, -⟩ := h.locked.crit c hb
        rw [hfd] at hm
        cases hm
    unfold callClosed at hs
    cases hp : s.spot c with
    | out | dead => rw [hp] at hs; cases hs
    | popSlot | popWrite | popped | pushSlot | pushWrite => rw [hp] at hidle; cases hidle
  next m hfd =>
    refine ⟨m, hfd, ?_, hs⟩
    cases hb : (s.spot c).busy with
    | true =>
      obtain ⟨m', hm', hl⟩ := h.locked.crit c hb
      rw [hfd] at hm'
      cases hm'
      exact hl
    | false =>
      cases hp : s.spot c with
      | out | dead => simp only [call, hp] at hs; cases hs
      | popSlot | popWrite | popped | pushSlot | pushWrite => rw [hp] at hb; cases hb

/-- The calls of a pop and a push: nothing that counts changes but where one key moves from the top slot
    to the client or back. -/
theorem inv_call {ok : Bool} (h : s.Inv) (hs : s.step (.call c ok) = some s') : s'.Inv := by
  obtain ⟨m, hfd, hl, hs⟩ := call_busy h hs
  cases hp : s.spot c with
  | out | dead => simp only [call, hp] at hs; cases hs
  | popSlot slot => exact inv_popSlot h hfd hl hp hs
  | popWrite slot key => exact inv_popWrite h hfd hl hp hs
  | popped key => exact inv_popped h hfd hl hp hs
  | pushSlot key slot => exact inv_pushSlot h hfd hl hp hs
  | pushWrite key slot => exact inv_pushWrite h hfd hl hp hs

/-- The keys of a process that exits are lost. -/
theorem inv_exit (h : s.Inv) (hs : s.step (.exit c) = some s') : s'.Inv := by
  cases hs
  refine ⟨?_, h.unmade, h.pinned, h.filled, ?_⟩
  · intro m
    refine (h.apart m).sublist (List.Sublist.append_left ?_ _)
    exact (List.filter_sublist.filter _).map _
  · refine h.locked.rests (p := .dead) rfl rfl (fun _ _ => rfl) rfl rfl rfl ?_
    intro d k hd hk
    exact List.mem_filter.mpr ⟨hk, decide_eq_true hd⟩

/-- The lock is freed of a client that has died. -/
theorem inv_breakLock (h : s.Inv) (ho : s.Orderly .breakLock) (hs : s.step .breakLock = some s') : s'.Inv := by
  simp only [step] at hs
  split at hs
  next m count hp =>
    cases hs
    have hq : s.Quiet m := ho.1 m (by rw [maps?, hp]; rfl)
    refine ⟨h.apart, h.unmade, h.pinned, h.filled, ?_⟩
    exact h.locked.daemon (fun c hc => h.locked.idle hq hc) rfl rfl rfl (fun _ _ => rfl)
      (fun m' e => Function.update_of_ne e ..) (fun x hx _ => hx) fun x hx _ => hx
  · cases hs

/-- Descriptors change under a client that holds no key and is not busy. -/
theorem inv_open (h : s.Inv) (ho : s.Orderly (.openShared c)) (hs : s.step (.openShared c) = some s') : s'.Inv := by
  simp only [step] at hs
  split at hs
  · cases hs
  cases hs
  obtain ⟨hnone, hrest⟩ := ho.2
  have hheld : ∀ m, heldOn { s with fds := Function.update s.fds c s.pinned } m = s.heldOn m := by
    intro m
    unfold heldOn
    refine congrArg (List.map Prod.snd) (List.filter_congr ?_)
    intro x hx
    have e : Function.update s.fds c s.pinned x.1 = s.fds x.1 := Function.update_of_ne (hnone x hx) ..
    exact decide_eq_decide.mpr (by rw [← e])
  refine ⟨?_, ?_, h.pinned, h.filled, ?_⟩
  · intro m
    rw [hheld]
    exact h.apart m
  · intro m hm c' hc
    by_cases e : c' = c
    · subst e
      have hc : s.pinned = some m := (Function.update_self c' s.pinned s.fds).symm.trans hc
      exact absurd (h.pinned m hc) (Nat.not_lt_of_le hm)
    · have hc : s.fds c' = some m := (Function.update_of_ne e s.pinned s.fds).symm.trans hc
      exact h.unmade m hm c' hc
  · exact h.locked.rests hrest (Function.update_eq_self c s.spot).symm (fun d hd => Function.update_of_ne hd ..)
      rfl rfl rfl fun _ _ _ hk => hk

theorem inv_step {l : Label} (h : s.Inv) (ho : s.Orderly l) (hs : s.step l = some s') : s'.Inv := by
  cases l with
  | load => exact inv_load h ho hs
  | reset => exact inv_reset h ho hs
  | publish => exact inv_publish h ho hs
  | finish => exact inv_finish h ho hs
  | breakLock => exact inv_breakLock h ho hs
  | die =>
    simp only [step] at hs
    split at hs
    · cases hs
    · cases hs
      exact h.down h.pinned
  | stop =>
    simp only [step] at hs
    split at hs
    · cases hs
    · cases hs
      refine h.down ?_
      intro m hm
      cases hm
  | openShared c => exact inv_open h ho hs
  | popDpipe c => exact inv_pop h ho hs
  | release c key locked => exact inv_release h ho hs
  | call c ok => exact inv_call h hs
  | exit c => exact inv_exit h hs

end Site

/-- Any number of daemons one after another, stopped or dead, with clients attached throughout: if
    every step is an orderly one, then in every state where `init` has returned no key is in two slots
    of the freelist, none of those in a slot is with a client, and there are no more than the pool has
    pipes. -/
theorem restarts_exclusive (labels : List Label) (s : Site) (hrun : run Site.step {} labels = some s)
    (horderly : Along Site.step Site.Orderly {} labels) : s.Exclusive :=
  (run_inv_along (I := Site.Inv) (fun _ _ _ h ho hs => Site.inv_step h ho hs) Site.inv_start horderly
    hrun).exclusive

/-- A client attaches and pops a key. -/
def popping (c : Nat) : List Label := [.openShared c, .popDpipe c, .call c true, .call c true, .call c true]

def pushing (c key : Nat) : List Label := [.release c key true, .call c true, .call c true]

/-- A daemon dies with one key out, the key comes back while the next one fills its pool, and another
    client pops it from there. -/
theorem restarts_exclusive_sample :
    ∃ s, run Site.step {} ([.load 4 2, .reset, .publish, .publish, .finish] ++ popping 7 ++
        [.die, .load 4 2, .reset, .publish] ++ pushing 7 1 ++ [.publish, .finish] ++ popping 8) = some s ∧
      (s.phase, (s.maps 0).slots, s.held) = (.up 0 2, [0], [(8, 1)]) ∧ s.Exclusive := by
  refine exists_run_of_map (fun s => (s.phase, (s.maps 0).slots, s.held)) (.up 0 2, [0], [(8, 1)])
    (by decide) ?_
  intro s hs e
  exact ⟨e, restarts_exclusive _ s hs (by decide)⟩

/-- The key of a connection that outlived its daemon comes back after the pool has been built anew: it
    is in two slots, and the pool of two has three keys. -/
theorem late_release_duplicates :
    ∃ s, run Site.step {} ([.load 4 2, .reset, .publish, .publish, .finish] ++ popping 7 ++
        [.die, .load 4 2, .reset, .publish, .publish, .finish] ++ pushing 7 1) = some s ∧
      (s.phase, (s.maps 0).slots) = (.up 0 2, [0, 1, 1]) ∧ ¬s.Exclusive := by
  refine exists_run_of_map (fun s => (s.phase, (s.maps 0).slots)) (.up 0 2, [0, 1, 1]) (by decide) ?_
  intro s _ e
  refine ⟨e, ?_⟩
  intro hx
  rw [Prod.mk.injEq] at e
  obtain ⟨hnodup, -, -⟩ := hx 0 2 e.1
  rw [e.2] at hnodup
  exact absurd hnodup (by decide)

end Barnacle.Pipes.Restart
