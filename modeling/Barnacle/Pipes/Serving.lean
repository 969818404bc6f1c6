import Barnacle.Pipes.Delivery

/-! The daemon serving, step by step (`Daemon::serve` in `src/daemon/main.cpp`): it reads a request off a
    dpipe, looks up which record the dpipe names, and answers when it has been to Valkey and back. It does
    nothing else meanwhile, but the clients go on: the reply goes into whatever socket `cpipe_map[key]`
    names at the moment it is sent.

    A request that is being served is as good as queued. `view` puts it back at the head of its queue, the
    clients' steps do not see the difference, and only the answer takes it away. -/

namespace Barnacle.Pipes
open Barnacle.Lib

/-- A request the daemon has read and not answered yet. -/
structure Job where
  key : Nat
  req : Request
  /-- what `dpipes[key].stmt` was, once it has been looked up -/
  stmt : Option (Option Nat)

structure Serving where
  sys : Sys
  job : Option Job := none

namespace Serving

/-- `readExactly` has the next request of the dpipe. -/
def take (n : Serving) (key : Nat) : Option Serving :=
  match n.job, n.sys.queue key with
  | none, req :: rest =>
    some ⟨{ n.sys with queue := Function.update n.sys.queue key rest }, some ⟨key, req, none⟩⟩
  | _, _ => none

/-- The lookup of `dpipes[key]`. -/
def look (n : Serving) : Option Serving :=
  match n.job with
  | some ⟨key, req, none⟩ => some { n with job := some ⟨key, req, some (n.sys.stmt key)⟩ }
  | _ => none

def answer (n : Serving) (env : Sys.Env) : Option Serving :=
  match n.job with
  | some ⟨key, req, some ptr⟩ => (n.sys.answer key req ptr env).map (⟨·, none⟩)
  | _ => none

inductive Label
  /-- a client's step, or another of the daemon's -/
  | sys (l : Sys.Label)
  | take (key : Nat)
  | look
  | answer (env : Sys.Env)

def step (n : Serving) : Label → Option Serving
  | .sys (.serve ..) => none
  | .sys l =>
    if (Sys.Label.client? l).isSome ∨ n.job.isNone then (n.sys.step l).map ({ n with sys := · }) else none
  | .take key => n.take key
  | .look => n.look
  | .answer env => n.answer env

def start (pipes : Nat) : Serving := { sys := Sys.start pipes }

end Serving

/-! ### Clients do not see what is being served -/

namespace Sys

/-- The request put back at the head of its queue. -/
def requeue (s : Sys) (key : Nat) (req : Request) : Sys :=
  { s with queue := Function.update s.queue key (req :: s.queue key) }

variable {s s' : Sys} {c key : Nat} {req : Request} {l : Label}

@[simp] theorem requeue_pc : (s.requeue key req).pc = s.pc := rfl
@[simp] theorem requeue_recs : (s.requeue key req).recs = s.recs := rfl
@[simp] theorem requeue_num_free : (s.requeue key req).num_free = s.num_free := rfl
@[simp] theorem requeue_stmts : (s.requeue key req).stmts = s.stmts := rfl
@[simp] theorem requeue_info : (s.requeue key req).info = s.info := rfl
@[simp] theorem requeue_inbox : (s.requeue key req).inbox = s.inbox := rfl

theorem get_requeue (p : Nat) (lucky : Bool) :
    (s.requeue key req).bncl_stmt_get c p lucky = (s.bncl_stmt_get c p lucky).map (·.requeue key req) := by
  unfold bncl_stmt_get
  rw [requeue_recs]
  cases s.recs p with
  | none => cases lucky <;> rfl
  | some r => dsimp only; split <;> rfl

theorem put_requeue (o : Owner) (p : Nat) :
    (s.requeue key req).bncl_stmt_put o p = (s.bncl_stmt_put o p).requeue key req := by
  unfold bncl_stmt_put
  rw [requeue_recs]
  cases s.recs p <;> rfl

theorem forget_requeue (p : Nat) : (s.requeue key req).forget c p = (s.forget c p).requeue key req := by
  unfold forget
  rw [requeue_recs]
  cases s.recs p <;> rfl

/-- Both sides branch alike. -/
theorem ite_requeue {b : Prop} {d d' : Decidable b} {x y x' y' : Option Sys} (hx : x' = x.map (·.requeue key req))
    (hy : y' = y.map (·.requeue key req)) : @ite _ b d' x' y' = (@ite _ b d x y).map (·.requeue key req) := by
  by_cases h : b
  · rw [if_pos h, if_pos h, hx]
  · rw [if_neg h, if_neg h, hy]

theorem next_requeue (ok : Bool) :
    (s.requeue key req).next c ok = (s.next c ok).map (·.requeue key req) := by
  cases hpc : s.pc c <;> simp only [next, requeue_pc, hpc]
  case locking | pushLock => exact ite_requeue rfl (ite_requeue rfl rfl)
  case popMeta | popSlot | popWrite | readPipe | pushMeta | pushSlot | pushWrite => exact ite_requeue rfl rfl
  case getRef t k | peekGet t =>
    rw [get_requeue]
    cases s.bncl_stmt_get c t.ptr ok <;> rfl
  case splice t k | pair t k | relRead t k =>
    rw [forget_requeue]
    exact ite_requeue rfl rfl
  case relPut t k stmt =>
    cases stmt with
    | none => rfl
    | some p => simp only [put_requeue]; rfl
  case peek t => rw [put_requeue]; rfl
  all_goals rfl

theorem resolve_requeue (sql : Bytes) (k : Target → Pc) :
    (s.requeue key req).resolve c sql k = (s.resolve c sql k).map (·.requeue key req) := by
  unfold resolve
  refine ite_requeue ?_ rfl
  rw [requeue_stmts]
  cases s.stmts sql <;> rfl

theorem append_requeue (q : Nat → List Request) (k : Nat) (x : Request) :
    Function.update (Function.update q key (req :: q key)) k (Function.update q key (req :: q key) k ++ [x]) =
      Function.update (Function.update q k (q k ++ [x])) key (req :: Function.update q k (q k ++ [x]) key) := by
  by_cases e : key = k
  · subst e
    simp only [Function.update_self, Function.update_idem, List.cons_append]
  · rw [Function.update_of_ne e, Function.update_of_ne (Ne.symm e), Function.update_comm e]

/-- What is posted now is served later. -/
theorem post_requeue (kind : Kind) (ok : Bool) :
    (s.requeue key req).post c kind ok = (s.post c kind ok).map (·.requeue key req) := by
  simp only [post, requeue_pc, requeue_info]
  cases s.pc c with
  | held t key' =>
    refine ite_requeue rfl ?_
    cases s.info c with
    | none => rfl
    | some k => exact congrArg some (by simp only [goto, requeue, append_requeue])
  | _ => rfl

theorem step_requeue (hl : (Label.client? l).isSome) (hs : s.step l = some s') :
    (s.requeue key req).step l = some (s'.requeue key req) := by
  have h : (s.requeue key req).step l = (s.step l).map (·.requeue key req) := by
    cases l <;> simp only [step, askLookup, askStore]
    case acquire c sql | lookupPayload c sql => exact resolve_requeue ..
    case next c ok => exact next_requeue ok
    case askLookup c ok | askStore c canonical ok => exact post_requeue ..
    case takeReply c | giveUp c =>
      simp only [takeReply, giveUp, requeue_pc, requeue_inbox]
      cases s.pc c <;> cases s.inbox c <;> rfl
    case die c => rfl
    all_goals cases hl
  rw [h, hs]
  rfl

end Sys

/-! ### Where the replies go -/

namespace Serving
variable {n n' : Serving}

/-- The pipes, with the request that is being served put back. -/
def view (n : Serving) : Sys :=
  match n.job with
  | none => n.sys
  | some j => n.sys.requeue j.key j.req

/-- What keeps replies where they belong. A client registers its socket for a key only while no LOOKUP
    of an earlier holder is queued there or being served; the daemon answers no LOOKUP between its
    poster's deadline and the poster's taking its socket out of `cpipe_map`; and it frees the freelist
    lock only of a client that has died. -/
def Timely (n : Serving) : Label → Prop
  | .sys (.next c true) => ∀ key ∈ (n.sys.pc c).registers?,
      (∀ req ∈ n.sys.queue key, req.kind ≠ .lookup) ∧ ∀ j ∈ n.job, j.key = key → j.req.kind ≠ .lookup
  | .sys .breakLock => n.sys.Abandoned .breakLock
  | .answer _ => ∀ j ∈ n.job, j.req.kind = .lookup → (n.sys.pc j.req.poster).leaving j.key = false
  | _ => True

instance (n : Serving) : (l : Label) → Decidable (n.Timely l)
  | .sys (.next c true) => inferInstanceAs (Decidable (∀ key ∈ (n.sys.pc c).registers?,
      (∀ req ∈ n.sys.queue key, req.kind ≠ .lookup) ∧ ∀ j ∈ n.job, j.key = key → j.req.kind ≠ .lookup))
  | .sys .breakLock => inferInstanceAs (Decidable (n.sys.Abandoned .breakLock))
  | .answer _ => inferInstanceAs (Decidable (∀ j ∈ n.job, j.req.kind = .lookup →
      (n.sys.pc j.req.poster).leaving j.key = false))
  | .sys (.next _ false) | .sys (.acquire ..) | .sys (.lookupPayload ..) | .sys (.askLookup ..)
  | .sys (.askStore ..) | .sys (.takeReply ..) | .sys (.giveUp ..) | .sys (.die ..) | .sys (.serve ..)
  | .sys (.publish ..) | .sys (.unpublish ..) | .sys (.drop ..) | .sys (.collect ..) | .sys (.reclaim ..)
  | .take _ | .look => .isTrue trivial

theorem step_sys_cases {l : Sys.Label} (hs : n.step (.sys l) = some n') :
    (∀ key env, l ≠ .serve key env) ∧ ((Sys.Label.client? l).isSome ∨ n.job = none) ∧
      ∃ s', n.sys.step l = some s' ∧ n' = { n with sys := s' } := by
  have hcase : (if (Sys.Label.client? l).isSome ∨ n.job.isNone then (n.sys.step l).map ({ n with sys := · })
      else none) = some n' → ((Sys.Label.client? l).isSome ∨ n.job = none) ∧
        ∃ s', n.sys.step l = some s' ∧ n' = { n with sys := s' } := by
    intro h
    split at h
    next hc =>
      obtain ⟨s', hs', e⟩ := Option.map_eq_some_iff.mp h
      exact ⟨hc.imp_right Option.isNone_iff_eq_none.mp, s', hs', e.symm⟩
    next => cases h
  cases l <;> first | exact ⟨by simp, hcase hs⟩ | cases hs

theorem take_cases {key : Nat} (hs : n.take key = some n') :
    ∃ req rest, n.job = none ∧ n.sys.queue key = req :: rest ∧
      n' = ⟨{ n.sys with queue := Function.update n.sys.queue key rest }, some ⟨key, req, none⟩⟩ := by
  unfold take at hs
  split at hs
  next req rest hj hq => cases hs; exact ⟨req, rest, hj, hq, rfl⟩
  next => cases hs

theorem look_cases (hs : n.look = some n') :
    ∃ key req, n.job = some ⟨key, req, none⟩ ∧ n' = { n with job := some ⟨key, req, some (n.sys.stmt key)⟩ } := by
  unfold look at hs
  split at hs
  next key req hj => cases hs; exact ⟨key, req, hj, rfl⟩
  next => cases hs

theorem answer_cases {env : Sys.Env} (hs : n.answer env = some n') :
    ∃ key req ptr s', n.job = some ⟨key, req, some ptr⟩ ∧ n.sys.answer key req ptr env = some s' ∧
      n' = ⟨s', none⟩ := by
  unfold answer at hs
  split at hs
  next key req ptr hj =>
    obtain ⟨s', hs', rfl⟩ := Option.map_eq_some_iff.mp hs
    exact ⟨key, req, ptr, s', hj, hs', rfl⟩
  next => cases hs

/-- Serving a request in one go is what `Sys.serve` does. -/
theorem run_serve {key : Nat} {env : Sys.Env} {s' : Sys} (hj : n.job = none)
    (hs : n.sys.serve key env = some s') : run step n [.take key, .look, .answer env] = some ⟨s', none⟩ := by
  unfold Sys.serve at hs
  split at hs
  · cases hs
  next req rest hq => simp [run, step, take, look, answer, hj, hq, hs]

/-- Registering is timely for the queues with the request put back. -/
theorem Timely.view {l : Sys.Label} (h : n.Timely (.sys l)) (hl : ∀ key env, l ≠ .serve key env) :
    n.view.Timely l := by
  cases l with
  | serve key env => exact absurd rfl (hl key env)
  | next c ok =>
    cases ok with
    | false => trivial
    | true =>
      unfold Serving.view
      cases hj : n.job with
      | none => exact fun key hk => (h key hk).1
      | some j =>
        intro key hk req hr
        obtain ⟨hqueued, hserved⟩ := h key hk
        simp only [Sys.requeue, Function.update_apply] at hr
        split at hr
        next e =>
          rcases List.mem_cons.mp hr with rfl | hr
          · exact hserved j (by rw [hj]; rfl) e.symm
          · exact hqueued req (e ▸ hr)
        next => exact hqueued req hr
  | _ => trivial

/-- What a step of the pipes keeps in `Sys` it keeps in the view. -/
theorem step_view {l : Sys.Label} (hs : n.step (.sys l) = some n') : n.view.step l = some n'.view := by
  obtain ⟨-, hl, s', hs', rfl⟩ := step_sys_cases hs
  unfold view
  cases hj : n.job with
  | none => exact hs'
  | some j => exact Sys.step_requeue (hl.resolve_right (by rw [hj]; simp)) hs'

/-- Taking a request off its queue does not show, nor does looking up its record. -/
theorem take_view {key : Nat} (hs : n.take key = some n') : n'.view = n.view := by
  obtain ⟨req, rest, hj, hq, rfl⟩ := take_cases hs
  simp only [view, hj, Sys.requeue, Function.update_self, Function.update_idem, ← hq, Function.update_eq_self]

theorem look_view (hs : n.look = some n') : n'.view = n.view := by
  obtain ⟨key, req, hj, rfl⟩ := look_cases hs
  simp only [view, hj]

/-- The answer serves the request that the view still has in its queue. -/
theorem answer_view {env : Sys.Env} (hs : n.answer env = some n') :
    ∃ j ptr, n.job = some j ∧ Sys.Served n.view n'.view j.key j.req ptr := by
  obtain ⟨key, req, ptr, s', hj, hs', rfl⟩ := answer_cases hs
  refine ⟨_, ptr, hj, ?_⟩
  have hq : (n.sys.requeue key req).queue key = req :: n.sys.queue key := Function.update_self ..
  have hback : { n.sys.requeue key req with
      queue := Function.update (n.sys.requeue key req).queue key (n.sys.queue key) } = n.sys := by
    simp only [Sys.requeue, Function.update_idem, Function.update_eq_self]
  simp only [view, hj]
  exact Sys.Answered.served hq (by rw [hback]; exact Sys.answer_cases hs')

structure Inv (n : Serving) : Prop where
  exclusive : n.view.Exclusive
  paired : n.view.Paired
  delivers : n.view.Delivers

theorem inv_step {l : Label} (h : n.Inv) (ht : n.Timely l) (hs : n.step l = some n') : n'.Inv := by
  have same : n'.view = n.view → n'.Inv := fun e =>
    ⟨e ▸ h.exclusive, e ▸ h.paired, e ▸ h.delivers⟩
  cases l with
  | take key => exact same (take_view hs)
  | look => exact same (look_view hs)
  | answer env =>
    obtain ⟨j, ptr, hj, hv⟩ := answer_view hs
    have hpc : n.view.pc = n.sys.pc := by rw [view, hj]; rfl
    have hleft : j.req.kind = .lookup → (n.view.pc j.req.poster).leaving j.key = false := by
      rw [hpc]
      exact ht j hj
    refine ⟨?_, ?_, h.delivers.serve hv hleft⟩
    · rw [hv.frame]
      exact h.exclusive.congr rfl rfl rfl rfl
    · rw [hv.frame]
      exact h.paired.congr rfl rfl
  | sys l =>
    obtain ⟨hserve, hl, -⟩ := step_sys_cases hs
    have hstep := step_view hs
    have hab : n.view.Abandoned l := by
      cases l with
      | breakLock =>
        have hj : n.job = none := hl.resolve_left (by simp [Sys.Label.client?])
        rw [view, hj]
        exact ht
      | _ => trivial
    exact ⟨Sys.exclusive_step h.exclusive hab hstep, Sys.paired_step h.paired hstep,
      Sys.delivers_step h.delivers h.exclusive h.paired (ht.view hserve) hstep⟩

theorem inv_start (pipes : Nat) : (start pipes).Inv :=
  ⟨Sys.exclusive_start pipes, Sys.paired_start pipes, Sys.delivers_start pipes⟩

/-- Client 0 asks, and the daemon has read what it asks. -/
def asked : List Label :=
  (.publish [83] 100 :: Sys.acquiring 0 [83] ++ [.askLookup 0 true] : List Sys.Label).map .sys ++ [.take 0, .look]

end Serving

end Barnacle.Pipes
