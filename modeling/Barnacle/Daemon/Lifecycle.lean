import Barnacle.Lib.Transition
import Mathlib.Logic.Function.Basic
import Mathlib.Tactic.ByContra

/-! Daemons that are started, stopped and killed on one machine (`openControl`, `start` and `stop` in
    `src/daemon/main.cpp`). They share the path of the control socket and the pinned maps. A daemon
    connects to the path first, and turns back if someone answers; what it finds there otherwise it
    takes for the leftovers of a daemon that was killed. It loads on the maps that are pinned, if they
    have the sizes it asks for, and a daemon that has loaded takes the pins with it when it goes, whoever
    made them.

    Each call on what is shared is a step, and the daemons' steps come in any order. Only the start of
    one daemon has to keep clear of another's start and end, where that one does not answer:
    `Settled`. -/

namespace Barnacle.Daemon
open Barnacle.Lib

/-- How far a daemon is. One that leaves may have a socket that listens, and may have loaded. -/
inductive Stage where
  | gone
  | probed
  | cleared
  | opened
  | bound
  | listening
  | loaded
  | ready
  | leaving (listens loaded : Bool)
  | closed (loaded : Bool)
  | unlinked (loaded : Bool)
  deriving DecidableEq, Repr

namespace Stage

/-- Somebody answers who connects to its socket. -/
def answers : Stage → Bool
  | listening | loaded | ready | leaving true _ => true
  | _ => false

/-- It has loaded, so it will take the pins away. -/
def holds : Stage → Bool
  | loaded | ready | leaving _ true | closed true | unlinked true => true
  | _ => false

/-- It runs, or else it can be connected to. -/
def settled (st : Stage) : Bool := st = gone || st.answers

end Stage

/-- What `-S` and `-C` ask for: `max_entries` of `stmts_map`, and of the four maps of pipes. -/
structure Sizes where
  max_stmts : Nat := 1024
  max_pipes : Nat := 4096
  deriving DecidableEq, Repr

structure Machine where
  stage : Nat → Stage := fun _ => .gone
  /-- how many daemons have been started -/
  count : Nat := 0
  /-- the daemon whose socket the control path names -/
  sock : Option Nat := none
  /-- the maps that are pinned, and how many have been made -/
  pins : Option Nat := none
  made : Nat := 0
  /-- what a daemon asks for, and what the maps were made with -/
  opt : Nat → Sizes := fun _ => {}
  sizes : Nat → Sizes := fun _ => {}
  /-- the maps a daemon has loaded -/
  maps : Nat → Option Nat := fun _ => none

namespace Machine

/-- An `ok` of `false` is a call that fails. -/
inductive Call where
  /-- a new daemon, which has a descriptor to probe with or not -/
  | start (opt : Sizes) (ok : Bool)
  | unlink (d : Nat)
  | socket (d : Nat) (ok : Bool)
  | bind (d : Nat) (ok : Bool)
  | listen (d : Nat) (ok : Bool)
  | load (d : Nat) (ok : Bool)
  | finish (d : Nat) (ok : Bool)
  | signal (d : Nat)
  | close (d : Nat)
  | unlinkPath (d : Nat)
  | unpin (d : Nat)
  | kill (d : Nat)

def goto (s : Machine) (d : Nat) (st : Stage) : Machine := { s with stage := Function.update s.stage d st }

/-- `connect` to the control path. -/
def connects (s : Machine) : Bool := s.sock.any fun e => (s.stage e).answers

def step (s : Machine) : Call → Option Machine
  | .start opt ok =>
    let t := { s with count := s.count + 1, opt := Function.update s.opt s.count opt }
    some (if ok && s.connects then t.goto s.count .gone else t.goto s.count .probed)
  | .unlink d => if s.stage d = .probed then some ({ s with sock := none }.goto d .cleared) else none
  -- without a descriptor there is nothing to close and no path to take away
  | .socket d ok =>
    if s.stage d = .cleared then some (s.goto d (if ok then .opened else .gone)) else none
  | .bind d ok =>
    if s.stage d = .opened then
      -- a path that is there is in use
      some (if ok && s.sock.isNone then { s with sock := some d }.goto d .bound else s.goto d (.leaving false false))
    else none
  | .listen d ok =>
    if s.stage d = .bound then some (s.goto d (if ok then .listening else .leaving false false)) else none
  | .load d ok =>
    if s.stage d = .listening then
      if ok then
        match s.pins with
        -- "parameter mismatch" on a pinned map
        | some m =>
          if s.sizes m = s.opt d then some ({ s with maps := Function.update s.maps d (some m) }.goto d .loaded)
          else some (s.goto d (.leaving true false))
        | none => some ({ s with maps := Function.update s.maps d (some s.made), pins := some s.made
                                 sizes := Function.update s.sizes s.made (s.opt d)
                                 made := s.made + 1 }.goto d .loaded)
      else some (s.goto d (.leaving true false))
    else none
  | .finish d ok =>
    if s.stage d = .loaded then some (s.goto d (if ok then .ready else .leaving true true)) else none
  | .signal d => if s.stage d = .ready then some (s.goto d (.leaving true true)) else none
  | .close d =>
    match s.stage d with
    | .leaving _ l => some (s.goto d (.closed l))
    | _ => none
  | .unlinkPath d =>
    match s.stage d with
    | .closed l => some ({ s with sock := none }.goto d (.unlinked l))
    | _ => none
  | .unpin d =>
    match s.stage d with
    | .unlinked l => some ({ s with pins := if l then none else s.pins }.goto d .gone)
    | _ => none
  | .kill d => some (s.goto d .gone)

/-- A daemon is started where every other one is gone or answers, and can probe. -/
def Settled (s : Machine) : Call → Prop
  | .start _ ok => ok = true ∧ ∀ d < s.count, (s.stage d).settled = true
  | _ => True

instance (s : Machine) : (c : Call) → Decidable (s.Settled c)
  | .start .. => inferInstanceAs (Decidable (_ ∧ _))
  | .unlink _ | .socket .. | .bind .. | .listen .. | .load .. | .finish .. | .signal _ | .close _
  | .unlinkPath _ | .unpin _ | .kill _ => .isTrue trivial

/-! ### The invariant -/

/-- What the path and the pins are, as far as a daemon in this stage is concerned. -/
def Fits (s : Machine) (d : Nat) : Stage → Prop
  | .gone | .probed | .leaving false false | .closed false | .unlinked false => True
  | .cleared | .opened => s.sock = none
  | .bound | .listening | .leaving true false => s.sock = some d
  | .loaded | .ready | .leaving true true => s.sock = some d ∧ (s.maps d).isSome ∧ s.pins = s.maps d
  | .leaving false true | .closed true | .unlinked true => (s.maps d).isSome ∧ s.pins = s.maps d

structure Alone (s : Machine) : Prop where
  unborn : ∀ d, s.count ≤ d → s.stage d = .gone
  one : ∀ d e, s.stage d ≠ .gone → s.stage e ≠ .gone → d = e
  fits : ∀ d, s.Fits d (s.stage d)

theorem alone_start : ({} : Machine).Alone := ⟨fun _ _ => rfl, fun _ _ h => absurd rfl h, fun _ => trivial⟩

variable {s s' : Machine} {d : Nat} {st : Stage} {opt : Sizes}

@[simp] theorem goto_self (s : Machine) (d : Nat) (st : Stage) : (s.goto d st).stage d = st := Function.update_self ..

theorem goto_of_ne (s : Machine) {d e : Nat} (h : e ≠ d) (st : Stage) : (s.goto d st).stage e = s.stage e :=
  Function.update_of_ne h ..

theorem Alone.fit (h : s.Alone) (hd : s.stage d = st) : s.Fits d st := hd ▸ h.fits d

/-- The daemon that is there takes a step. -/
theorem Alone.goto (h : s.Alone) (hd : s.stage d ≠ .gone) (hcount : s'.count = s.count)
    (hstage : s'.stage = s.stage) (hfit : (s'.goto d st).Fits d st) : (s'.goto d st).Alone := by
  have hother : ∀ e, e ≠ d → (s'.goto d st).stage e = .gone := by
    intro e he
    rw [goto_of_ne s' he, hstage]
    by_contra hg
    exact he (h.one e d hg hd)
  refine ⟨?_, ?_, ?_⟩
  · intro e he
    by_cases hed : e = d
    · rw [hed] at he
      exact absurd (h.unborn d (hcount ▸ he)) hd
    · exact hother e hed
  · intro a b ha hb
    have ha' : a = d := by_contra fun hne => ha (hother a hne)
    have hb' : b = d := by_contra fun hne => hb (hother b hne)
    rw [ha', hb']
  · intro e
    by_cases hed : e = d
    · rw [hed, goto_self]
      exact hfit
    · rw [hother e hed]
      trivial

/-- A daemon that goes leaves nobody. -/
theorem Alone.leave (h : s.Alone) (hcount : s.count ≤ s'.count) (hstage : s'.stage = s.stage)
    (hfit : ∀ e, e ≠ d → s.stage e ≠ .gone → s'.Fits e (s.stage e)) : (s'.goto d .gone).Alone := by
  have hstill : ∀ e, (s'.goto d .gone).stage e ≠ .gone → e ≠ d ∧ s.stage e ≠ .gone := by
    intro e he
    by_cases hed : e = d
    · rw [hed, goto_self] at he
      exact absurd rfl he
    · rw [goto_of_ne s' hed, hstage] at he
      exact ⟨hed, he⟩
  refine ⟨?_, ?_, ?_⟩
  · intro e he
    by_contra hg
    exact (hstill e hg).2 (h.unborn e (Nat.le_trans hcount he))
  · intro a b ha hb
    exact h.one a b (hstill a ha).2 (hstill b hb).2
  · intro e
    by_cases hg : (s'.goto d .gone).stage e = .gone
    · rw [hg]
      trivial
    · obtain ⟨hed, hg'⟩ := hstill e hg
      rw [goto_of_ne s' hed, hstage]
      exact hfit e hed hg'

/-- Who connects to the path reaches nobody, so there is nobody. -/
theorem Alone.none_of_settled (h : s.Alone) (hs : s.Settled (.start opt true)) (hc : s.connects = false) (d : Nat) :
    s.stage d = .gone := by
  by_cases hd : s.count ≤ d
  · exact h.unborn d hd
  have hset := hs.2 d (Nat.lt_of_not_le hd)
  rw [Stage.settled, Bool.or_eq_true, decide_eq_true_eq] at hset
  refine hset.resolve_right fun hans => ?_
  -- one that answers has the path
  have hsock : s.sock = some d := by
    have hfit := h.fits d
    revert hans hfit
    cases s.stage d with
    | listening => exact fun _ hfit => hfit
    | loaded | ready => exact fun _ hfit => hfit.1
    | leaving listens loaded =>
      cases listens with
      | false => exact fun hans => nomatch hans
      | true =>
        cases loaded with
        | false => exact fun _ hfit => hfit
        | true => exact fun _ hfit => hfit.1
    | _ => exact fun hans => nomatch hans
  rw [connects, hsock, Option.any_some, hans] at hc
  cases hc

/-- A new daemon, where there is no other. -/
theorem alone_of_none (hnone : ∀ d, s.stage d = .gone) :
    ({ s with count := s.count + 1, opt := Function.update s.opt s.count opt }.goto s.count .probed).Alone := by
  have honly : ∀ e, ({ s with count := s.count + 1, opt := Function.update s.opt s.count opt }.goto s.count
      .probed).stage e ≠ .gone → e = s.count := by
    intro e he
    by_contra hed
    rw [goto_of_ne _ hed] at he
    exact he (hnone e)
  refine ⟨?_, ?_, ?_⟩
  · intro e he
    by_contra hg
    have hed := honly e hg
    change s.count + 1 ≤ e at he
    omega
  · intro a b ha hb
    rw [honly a ha, honly b hb]
  · intro e
    by_cases hed : e = s.count
    · rw [hed, goto_self]
      trivial
    · rw [goto_of_ne _ hed]
      change Fits _ e (s.stage e)
      rw [hnone e]
      trivial

/-- The maps that are pinned are taken, or new ones are made and pinned; or the daemon turns back. -/
theorem Alone.step_load {ok : Bool} (h : s.Alone) (hs : s.step (.load d ok) = some s') : s'.Alone := by
  obtain ⟨hd, hs⟩ := Option.ite_none_right_eq_some.mp hs
  have hthere : s.stage d ≠ .gone := by simp [hd]
  have hfit : s.sock = some d := h.fit hd
  split at hs
  · split at hs
    next m hp =>
      split at hs
      · cases hs
        refine h.goto hthere rfl rfl ⟨hfit, ?_⟩
        simp [Machine.goto, hp]
      · cases hs
        exact h.goto hthere rfl rfl hfit
    next hp =>
      cases hs
      refine h.goto hthere rfl rfl ⟨hfit, ?_⟩
      simp [Machine.goto]
  · cases hs
    exact h.goto hthere rfl rfl hfit

theorem Alone.step {c : Call} (h : s.Alone) (hc : s.Settled c) (hs : s.step c = some s') : s'.Alone := by
  cases c with
  | start opt ok =>
    have hset := hc
    obtain ⟨rfl, -⟩ := hc
    cases hs
    cases hcon : s.connects with
    | true =>
      rw [Bool.and_true, if_pos rfl]
      exact h.leave (Nat.le_succ _) rfl fun e _ _ => h.fits e
    | false => exact alone_of_none (h.none_of_settled hset hcon)
  | unlink d =>
    obtain ⟨hd, hs⟩ := Option.ite_none_right_eq_some.mp hs
    cases hs
    exact h.goto (by simp [hd]) rfl rfl rfl
  | socket d ok =>
    obtain ⟨hd, hs⟩ := Option.ite_none_right_eq_some.mp hs
    cases hs
    have hfit : s.sock = none := h.fit hd
    cases ok with
    | true => exact h.goto (by simp [hd]) rfl rfl hfit
    | false => exact h.goto (by simp [hd]) rfl rfl trivial
  | bind d ok =>
    obtain ⟨hd, hs⟩ := Option.ite_none_right_eq_some.mp hs
    cases hs
    split
    · exact h.goto (by simp [hd]) rfl rfl rfl
    · exact h.goto (by simp [hd]) rfl rfl trivial
  | listen d ok =>
    obtain ⟨hd, hs⟩ := Option.ite_none_right_eq_some.mp hs
    cases hs
    have hfit : s.sock = some d := h.fit hd
    cases ok with
    | true => exact h.goto (by simp [hd]) rfl rfl hfit
    | false => exact h.goto (by simp [hd]) rfl rfl trivial
  | load d ok => exact h.step_load hs
  | finish d ok =>
    obtain ⟨hd, hs⟩ := Option.ite_none_right_eq_some.mp hs
    cases hs
    have hfit := h.fit hd
    cases ok with
    | true => exact h.goto (by simp [hd]) rfl rfl hfit
    | false => exact h.goto (by simp [hd]) rfl rfl hfit
  | signal d =>
    obtain ⟨hd, hs⟩ := Option.ite_none_right_eq_some.mp hs
    cases hs
    have hfit := h.fit hd
    exact h.goto (by simp [hd]) rfl rfl hfit
  | close d =>
    rw [Machine.step] at hs
    split at hs
    next listens l hd =>
      cases hs
      have hfit := h.fit hd
      refine h.goto (by simp [hd]) rfl rfl ?_
      cases l with
      | false => trivial
      | true =>
        cases listens with
        | false => exact hfit
        | true => exact hfit.2
    · cases hs
  | unlinkPath d =>
    rw [Machine.step] at hs
    split at hs
    next l hd =>
      cases hs
      have hfit := h.fit hd
      refine h.goto (by simp [hd]) rfl rfl ?_
      cases l with
      | false => trivial
      | true => exact hfit
    · cases hs
  | unpin d =>
    rw [Machine.step] at hs
    split at hs
    next l hd =>
      cases hs
      exact h.goto (by simp [hd]) rfl rfl trivial
    · cases hs
  | kill d =>
    cases hs
    exact h.leave (Nat.le_refl _) rfl fun e _ _ => h.fits e

/-! ### Whole runs -/

/-- The calls of a start that goes well. -/
def starting (opt : Sizes) (d : Nat) : List Call :=
  [.start opt true, .unlink d, .socket d true, .bind d true, .listen d true, .load d true, .finish d true]

/-- Whatever socket a daemon that was killed has left behind, the next one gets up, unless the maps left
    behind have other sizes. -/
theorem run_starting (hnone : ∀ d, s.stage d = .gone) (opt : Sizes) :
    (∃ s', run Machine.step s (starting opt s.count) = some s' ∧ s'.stage s.count = .ready) ↔
      ∀ m ∈ s.pins, s.sizes m = opt := by
  have hcon : s.connects = false := by
    rw [connects]
    cases s.sock with
    | none => rfl
    | some e => simp [hnone e, Stage.answers]
  cases hp : s.pins with
  | none => simp [starting, run, Machine.step, hcon, goto, hp]
  | some m =>
    by_cases he : s.sizes m = opt
    · simp [starting, run, Machine.step, hcon, goto, hp, he]
    · simp [starting, run, Machine.step, hcon, goto, hp, he]

/-- In whatever order daemons start, fail, stop and are killed, if each starts where every other is gone or
    answers: no two of them are there at once; the one that is ready has the control path, and the pins
    are its maps; and when all are gone the next one can start, with the sizes of the maps that are
    pinned. -/
theorem one_daemon (calls : List Call) (s : Machine) (hrun : run Machine.step {} calls = some s)
    (hsettled : Along Machine.step Machine.Settled {} calls) :
    (∀ d e, s.stage d ≠ .gone → s.stage e ≠ .gone → d = e) ∧
      (∀ d, s.stage d = .ready → s.sock = some d ∧ (s.maps d).isSome ∧ s.pins = s.maps d) ∧
      ((∀ d, s.stage d = .gone) → ∀ opt,
        ((∃ s', run Machine.step s (starting opt s.count) = some s' ∧ s'.stage s.count = .ready) ↔
          ∀ m ∈ s.pins, s.sizes m = opt)) := by
  have h : s.Alone := run_inv_along (fun _ _ _ h hc hs => h.step hc hs) alone_start hsettled hrun
  refine ⟨h.one, ?_, run_starting⟩
  intro d hd
  simpa [hd, Fits] using h.fits d

/-- The first daemon is killed while it serves, the second takes its place, and the third turns back. -/
theorem third_turns_back :
    ∃ s, run Machine.step {} (starting {} 0 ++ .kill 0 :: starting {} 1 ++ [.start {} true]) = some s ∧
      s.stage 1 = .ready ∧ s.stage 2 = .gone ∧ s.sock = some 1 ∧ s.pins = s.maps 1 := by
  refine exists_run_of_map (fun s => (s.stage 1, s.stage 2)) (.ready, .gone) (by decide) ?_
  intro s hs hst
  obtain ⟨h1, h2⟩ := Prod.mk.inj hst
  obtain ⟨hsock, -, hpins⟩ := (one_daemon _ s hs (by decide)).2.1 1 h1
  exact ⟨h1, h2, hsock, hpins⟩

end Machine

end Barnacle.Daemon
