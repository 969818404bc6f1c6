import Mathlib.Data.List.Nodup
import Barnacle.Pipes.Exclusion

/-! Where replies go. A reply carries no request and is delivered into whatever socket `cpipe_map[key]`
    names when the daemon gets round to it, so it reaches the right client only if nobody else has
    registered for the key in the meantime and the client has not stopped waiting. -/

namespace Barnacle.Pipes
open Barnacle.Lib

namespace Pc

/-- The client's socket is registered under the key. -/
def spliced? : Pc → Option Nat
  | pair _ k | held _ k | waiting _ k _ | relInfo _ k | relCpipe _ k => some k
  | _ => none

/-- The client waits for request `num` on `k`, or has just stopped waiting on `k`. -/
def Asked (k num : Nat) : Pc → Prop
  | waiting _ k' num' => k' = k ∧ num' = num
  | relInfo _ k' | relCpipe _ k' => k' = k
  | _ => False

/-- The key the client is about to register its socket for. -/
def registers? : Pc → Option Nat
  | splice _ k => some k
  | _ => none

/-- The client has stopped waiting on `k` and has not yet taken its socket out of `cpipe_map`. -/
def leaving (k : Nat) : Pc → Bool
  | relInfo _ k' | relCpipe _ k' => k' = k
  | _ => false

def isWaiting : Pc → Bool
  | waiting .. => true
  | _ => false

theorem key?_of_spliced {p : Pc} {k : Nat} (h : p.spliced? = some k) : p.key? = some k := by
  cases p <;> simp_all [spliced?, key?]

end Pc

namespace Sys

structure Delivers (s : Sys) : Prop where
  spliced : ∀ c k, (s.pc c).spliced? = some k → s.cpipe k = some c
  queued : ∀ k, ∀ req ∈ s.queue k, req.kind = .lookup →
    s.cpipe k = none ∨ s.cpipe k = some req.poster ∧ (s.pc req.poster).Asked k req.num
  fresh : ∀ k, ∀ req ∈ s.queue k, req.num < s.nextNum
  nodup : ∀ k, ((s.queue k).map Request.num).Nodup
  apart : ∀ j k, j ≠ k → ∀ req ∈ s.queue j, ∀ req' ∈ s.queue k, req.num ≠ req'.num
  waits : ∀ c t k num, s.pc c = .waiting t k num → num < s.nextNum
  one : ∀ c, (s.inbox c).length ≤ 1
  inbox : ∀ c, ∀ r ∈ s.inbox c, ∃ t k, s.pc c = .waiting t k r.num
  answered : ∀ c, ∀ r ∈ s.inbox c, ∀ k, ∀ req ∈ s.queue k, req.num ≠ r.num

namespace Delivers
variable {s s' : Sys} {c : Nat} {p : Pc}

/-- A client that does not wait has nothing to read. -/
theorem empty (h : s.Delivers) (hw : (s.pc c).isWaiting = false) : s.inbox c = [] := by
  cases hin : s.inbox c with
  | nil => rfl
  | cons r rest =>
    obtain ⟨t, k, hpc⟩ := h.inbox c r (by simp [hin])
    rw [hpc] at hw
    exact Bool.noConfusion hw

theorem congr (h : s.Delivers) (hp : s'.pc = s.pc) (hc : s'.cpipe = s.cpipe) (hq : s'.queue = s.queue)
    (hin : s'.inbox = s.inbox) (hn : s'.nextNum = s.nextNum) : s'.Delivers := by
  constructor <;> simp only [hp, hc, hq, hin, hn]
  exacts [h.spliced, h.queued, h.fresh, h.nodup, h.apart, h.waits, h.one, h.inbox, h.answered]

theorem pc_eq (hp : s'.pc = Function.update s.pc c p) (d : Nat) :
    s'.pc d = if d = c then p else s.pc d := by rw [hp, Function.update_apply]

/-- Client `c`, left with nothing to read, moves on; queues stay and sockets may change. -/
theorem sockets (h : s.Delivers) (hp : s'.pc = Function.update s.pc c p) (hq : s'.queue = s.queue)
    (hn : s'.nextNum = s.nextNum) (hin : ∀ d, d ≠ c → s'.inbox d = s.inbox d)
    (he : s'.inbox c = []) (hw : p.isWaiting = false)
    (hspl : ∀ d k, (s'.pc d).spliced? = some k → s'.cpipe k = some d)
    (hqueued : ∀ k, ∀ req ∈ s.queue k, req.kind = .lookup →
      s'.cpipe k = none ∨ s'.cpipe k = some req.poster ∧ (s'.pc req.poster).Asked k req.num) :
    s'.Delivers := by
  have hsub : ∀ d, ∀ r ∈ s'.inbox d, d ≠ c ∧ r ∈ s.inbox d := by
    intro d r hr
    by_cases e : d = c
    · rw [e, he] at hr; simp at hr
    · exact ⟨e, hin d e ▸ hr⟩
  refine ⟨hspl, hq ▸ hqueued, by rw [hq, hn]; exact h.fresh, hq ▸ h.nodup, hq ▸ h.apart,
    fun d t k num hd => ?_, fun d => ?_, fun d r hr => ?_, fun d r hr => ?_⟩
  · rw [pc_eq hp] at hd
    rw [hn]
    split at hd
    next => rw [hd] at hw; exact Bool.noConfusion hw
    next => exact h.waits d t k num hd
  · by_cases e : d = c
    · rw [e, he]; simp
    · rw [hin d e]; exact h.one d
  · obtain ⟨e, hr⟩ := hsub d r hr
    rw [pc_eq hp, if_neg e]
    exact h.inbox d r hr
  · rw [hq]; exact h.answered d r (hsub d r hr).2

/-- Client `c`, with nothing to read, moves on without touching sockets or queues. -/
theorem quiet (h : s.Delivers) (hp : s'.pc = Function.update s.pc c p) (hc : s'.cpipe = s.cpipe)
    (hq : s'.queue = s.queue) (hin : s'.inbox = s.inbox)
    (hn : s'.nextNum = s.nextNum) (he : s.inbox c = []) (hw : p.isWaiting = false)
    (hspl : ∀ k, p.spliced? = some k → (s.pc c).spliced? = some k)
    (hask : ∀ k num, (s.pc c).Asked k num → p.Asked k num) : s'.Delivers := by
  refine h.sockets hp hq hn (fun d _ => by rw [hin]) (by rw [hin]; exact he) hw (fun d k hd => ?_)
    fun k req hr hk => ?_
  · rw [pc_eq hp] at hd
    rw [hc]
    split at hd
    next e => subst e; exact h.spliced d k (hspl k hd)
    next => exact h.spliced d k hd
  · rw [hc, pc_eq hp]
    refine (h.queued k req hr hk).imp_right (And.imp_right fun h2 => ?_)
    split
    next e => exact hask k _ (e ▸ h2)
    next => exact h2

/-- Client `c`, which has asked for nothing, moves on to where it has no socket registered. -/
theorem onward (h : s.Delivers) {q : Pc} (hpc : s.pc c = q) (hidle : q.isWaiting = false)
    (hasked : ∀ k num, ¬q.Asked k num) (hp : s'.pc = Function.update s.pc c p) (hc : s'.cpipe = s.cpipe)
    (hq : s'.queue = s.queue) (hin : s'.inbox = s.inbox) (hn : s'.nextNum = s.nextNum) (hw : p.isWaiting = false)
    (hspl : p.spliced? = none) : s'.Delivers := by
  refine h.quiet hp hc hq hin hn (h.empty (by rw [hpc]; exact hidle)) hw (fun k hk => ?_) fun k num ha => ?_
  · rw [hspl] at hk
    cases hk
  · rw [hpc] at ha
    exact absurd ha (hasked k num)

variable {t : Target} {key : Nat}

/-- Registering the socket, with no LOOKUP of an earlier holder queued. -/
theorem splice (h : s.Delivers) (hx : s.Exclusive) (hpc : s.pc c = .splice t key)
    (hnone : ∀ req ∈ s.queue key, req.kind ≠ .lookup) :
    Delivers ({ s with cpipe := Function.update s.cpipe key (some c) }.goto c (.pair t key)) := by
  refine h.sockets rfl rfl rfl (fun _ _ => rfl) (h.empty (by rw [hpc]; rfl)) rfl (fun d k hd => ?_)
    fun k req hr hk => ?_
  · rw [pc_eq (s := s) rfl] at hd
    simp only [goto, Function.update_apply]
    split at hd
    next e => rw [if_pos (Option.some.inj hd).symm, e]
    next e =>
      have hk : k ≠ key := by
        rintro rfl
        exact e (hx.key_inj d c k (Pc.key?_of_spliced hd) (by rw [hpc]; rfl))
      rw [if_neg hk]
      exact h.spliced d k hd
  · have hkk : k ≠ key := fun e => hnone req (e ▸ hr) hk
    simp only [goto, Function.update_of_ne hkk]
    refine (h.queued k req hr hk).imp_right (And.imp_right fun h2 => ?_)
    rw [Function.update_apply]
    split
    next e => rw [e, hpc] at h2; exact h2.elim
    next => exact h2

/-- Pairing the socket. -/
theorem pair (h : s.Delivers) (hpc : s.pc c = .pair t key) :
    Delivers ({ s with info := Function.update s.info c (some key) }.goto c (.held t key)) := by
  refine h.sockets rfl rfl rfl (fun _ _ => rfl) (h.empty (by rw [hpc]; rfl)) rfl (fun d k hd => ?_)
    fun k req hr hk => ?_
  · rw [pc_eq (s := s) rfl] at hd
    split at hd
    next e => exact h.spliced d k (by rw [e, hpc]; exact hd)
    next => exact h.spliced d k hd
  · refine (h.queued k req hr hk).imp_right (And.imp_right fun h2 => ?_)
    rw [pc_eq (s := s) rfl]
    split
    next e => rw [e, hpc] at h2; exact h2.elim
    next => exact h2

/-- `release` unpairs the socket … -/
theorem relInfo (h : s.Delivers) (hpc : s.pc c = .relInfo t key) :
    Delivers ({ s with info := Function.update s.info c none }.goto c (.relCpipe t key)) := by
  refine h.sockets rfl rfl rfl (fun _ _ => rfl) (h.empty (by rw [hpc]; rfl)) rfl (fun d k hd => ?_)
    fun k req hr hk => ?_
  · rw [pc_eq (s := s) rfl] at hd
    split at hd
    next e => exact h.spliced d k (by rw [e, hpc]; exact hd)
    next => exact h.spliced d k hd
  · refine (h.queued k req hr hk).imp_right (And.imp_right fun h2 => ?_)
    rw [pc_eq (s := s) rfl]
    split
    next e => rw [e, hpc] at h2; exact h2
    next => exact h2

/-- … and takes it out of `cpipe_map`. -/
theorem relCpipe (h : s.Delivers) (hx : s.Exclusive) (hpc : s.pc c = .relCpipe t key) :
    Delivers ({ s with cpipe := Function.update s.cpipe key none }.goto c (.relRead t key)) := by
  refine h.sockets rfl rfl rfl (fun _ _ => rfl) (h.empty (by rw [hpc]; rfl)) rfl (fun d k hd => ?_)
    fun k req hr hk => ?_
  · rw [pc_eq (s := s) rfl] at hd
    simp only [goto, Function.update_apply]
    split at hd
    · cases hd
    next e =>
      have hk : k ≠ key := by
        rintro rfl
        exact e (hx.key_inj d c k (Pc.key?_of_spliced hd) (by rw [hpc]; rfl))
      rw [if_neg hk]
      exact h.spliced d k hd
  · by_cases hkk : k = key
    · left; simp only [goto, hkk, Function.update_self]
    · simp only [goto, Function.update_of_ne hkk]
      refine (h.queued k req hr hk).imp_right (And.imp_right fun h2 => ?_)
      rw [Function.update_apply]
      split
      next e => rw [e, hpc] at h2; exact absurd h2.symm hkk
      next => exact h2

/-- A dying client's socket is gone. -/
theorem die (h : s.Delivers) (c : Nat) : Delivers (s.die c) := by
  refine h.sockets (p := .dead) rfl rfl rfl (fun d hd => ?_) ?_ rfl (fun d k hd => ?_)
    fun k req hr hk => ?_
  · simp only [Sys.die, goto, Function.update_of_ne hd]
  · simp only [Sys.die, goto, Function.update_self]
  · rw [pc_eq (show (s.die c).pc = Function.update s.pc c .dead from rfl)] at hd
    simp only [Sys.die, goto]
    split at hd
    · cases hd
    next e =>
      have := h.spliced d k hd
      rw [this, if_neg fun he => e (Option.some.inj he)]
  · rw [pc_eq (show (s.die c).pc = Function.update s.pc c .dead from rfl)]
    simp only [Sys.die, goto]
    by_cases hcc : s.cpipe k = some c
    · left; rw [if_pos hcc]
    · rw [if_neg hcc]
      obtain hnone | ⟨h1, h2⟩ := h.queued k req hr hk
      · exact .inl hnone
      refine .inr ⟨h1, ?_⟩
      have hne : req.poster ≠ c := fun e => hcc (e ▸ h1)
      rw [if_neg hne]
      exact h2

/-- A post goes to the client's own dpipe, under a number nobody has used. -/
theorem posted (h : s.Delivers) (hpair : s.Paired) (hpc : s.pc c = .held t key) {k : Nat}
    (hi : s.info c = some k) (kind : Kind) : Delivers (s.posted c k t key kind) := by
  have hk : key = k := by
    have := hpair c key (by rw [hpc]; rfl)
    rw [hi] at this
    exact (Option.some.inj this).symm
  subst hk
  have hcp : s.cpipe key = some c := h.spliced c key (by rw [hpc]; rfl)
  have he : s.inbox c = [] := h.empty (by rw [hpc]; rfl)
  have hpc' : ∀ d, (s.posted c key t key kind).pc d =
      if d = c then Posted t key s.nextNum kind else s.pc d := pc_eq rfl
  -- a queue afterwards: what it held, and perhaps the new request
  have hq : ∀ k req, req ∈ (s.posted c key t key kind).queue k →
      req ∈ s.queue k ∨ k = key ∧ req = ⟨kind, c, s.nextNum, t.uid⟩ := fun k req hr => by
    simp only [Sys.posted, goto, Function.update_apply] at hr
    split at hr
    next e => subst e; simpa using hr
    next => exact Or.inl hr
  have hlt : ∀ d, ∀ r ∈ s.inbox d, r.num < s.nextNum := fun d r hr => by
    obtain ⟨t', k', hw⟩ := h.inbox d r hr
    exact h.waits d t' k' _ hw
  refine ⟨fun d k hd => ?_, fun k req hr hl => ?_, fun k req hr => ?_, fun k => ?_,
    fun j k hjk req hr req' hr' => ?_, fun d t' k num hd => ?_, h.one, fun d r hr => ?_,
    fun d r hr k req hq' => ?_⟩
  · rw [hpc'] at hd
    split at hd
    next e => subst e; cases kind <;> exact h.spliced d k (by rw [hpc]; exact hd)
    next => exact h.spliced d k hd
  · rw [hpc']
    rcases hq k req hr with hr | ⟨rfl, rfl⟩
    · refine (h.queued k req hr hl).imp_right (And.imp_right fun h2 => ?_)
      split
      next e => rw [e, hpc] at h2; exact h2.elim
      next => exact h2
    · cases hl
      exact Or.inr ⟨hcp, by rw [if_pos rfl]; exact ⟨rfl, rfl⟩⟩
  · rcases hq k req hr with hr | ⟨-, rfl⟩
    · exact Nat.lt_succ_of_lt (h.fresh k req hr)
    · exact Nat.lt_succ_self _
  · simp only [Sys.posted, goto, Function.update_apply]
    split
    next e =>
      subst e
      rw [List.map_append, List.nodup_append]
      refine ⟨h.nodup k, by simp, fun n hn m hm => ?_⟩
      obtain ⟨req, hr, rfl⟩ := List.mem_map.mp hn
      have := h.fresh k req hr
      simp only [List.map_cons, List.map_nil, List.mem_singleton] at hm
      omega
    next => exact h.nodup k
  · rcases hq j req hr with h1 | ⟨e1, rfl⟩ <;> rcases hq k req' hr' with h2 | ⟨e2, rfl⟩
    · exact h.apart j k hjk req h1 req' h2
    · exact (h.fresh j req h1).ne
    · exact (h.fresh k req' h2).ne'
    · exact absurd (e1.trans e2.symm) hjk
  · rw [hpc'] at hd
    split at hd
    next e => cases kind <;> cases hd; exact Nat.lt_succ_self _
    next => exact Nat.lt_succ_of_lt (h.waits d t' k num hd)
  · have hne : d ≠ c := by
      rintro rfl
      have hr : r ∈ s.inbox d := hr
      rw [he] at hr
      simp at hr
    rw [hpc', if_neg hne]
    exact h.inbox d r hr
  · rcases hq k req hq' with hq' | ⟨-, rfl⟩
    · exact h.answered d r hr k req hq'
    · exact (hlt d r hr).ne'

/-- Reading the reply leaves nothing behind. -/
theorem takeReply (h : s.Delivers) {num : Nat} {r : Reply} {rest : List Reply}
    (hpc : s.pc c = .waiting t key num) (hin : s.inbox c = r :: rest) :
    Delivers ({ s with inbox := Function.update s.inbox c rest }.goto c (.relInfo t key)) := by
  have hrest : rest = [] := by
    have := h.one c
    rw [hin, List.length_cons] at this
    exact List.eq_nil_of_length_eq_zero (by omega)
  subst hrest
  refine h.sockets rfl rfl rfl (fun d hd => Function.update_of_ne hd ..) (Function.update_self ..) rfl
    (fun d k hd => ?_)
    fun k req hr hk => ?_
  · rw [pc_eq (s := s) rfl] at hd
    split at hd
    next e => exact h.spliced d k (by rw [e, hpc]; exact hd)
    next => exact h.spliced d k hd
  · refine (h.queued k req hr hk).imp_right (And.imp_right fun h2 => ?_)
    rw [pc_eq (s := s) rfl]
    split
    next e => rw [e, hpc] at h2; exact h2.1
    next => exact h2

/-- Serving adds nothing to a queue. -/
theorem served_sub {req : Request} {ptr : Option Nat} (hv : Served s s' key req ptr) :
    ∀ k, ∀ q ∈ s'.queue k, q ∈ s.queue k := by
  obtain ⟨rest, hq, hq'⟩ := hv.queue
  intro k q hk
  rw [hq', Function.update_apply] at hk
  split at hk
  next e => rw [e, hq]; exact List.mem_cons_of_mem _ hk
  next => exact hk

/-- The served request is in no queue any more. -/
theorem served_gone (h : s.Delivers) {req : Request} {ptr : Option Nat} (hv : Served s s' key req ptr) :
    ∀ k, ∀ q ∈ s'.queue k, q.num ≠ req.num := by
  have hsub := served_sub hv
  obtain ⟨rest, hq, hq'⟩ := hv.queue
  intro k q hk
  by_cases e : k = key
  · subst e
    rw [hq', Function.update_self] at hk
    have := h.nodup k
    rw [hq, List.map_cons, List.nodup_cons] at this
    exact fun e => this.1 (e ▸ List.mem_map_of_mem hk)
  · exact h.apart k key e q (hsub k q hk) req (by simp [hq])

/-- A reply goes to the poster, who waits for it and has none yet. -/
theorem served_inbox (h : s.Delivers) {req : Request} {ptr : Option Nat} (hv : Served s s' key req ptr)
    (hw : req.kind = .lookup → (s.pc req.poster).leaving key = false) :
    s'.inbox = s.inbox ∨ ∃ t status, s.pc req.poster = .waiting t key req.num ∧
      s'.inbox = Function.update s.inbox req.poster [⟨status, req.num⟩] := by
  obtain ⟨rest, hq, -⟩ := hv.queue
  have hmem : req ∈ s.queue key := by simp [hq]
  refine hv.inbox.imp_right ?_
  rintro ⟨c, status, hk, hc, hi⟩
  rcases h.queued key req hmem hk with h0 | ⟨h1, h2⟩
  · rw [h0] at hc; cases hc
  obtain rfl : c = req.poster := by rw [h1] at hc; exact (Option.some.inj hc).symm
  obtain ⟨t, ht⟩ : ∃ t, s.pc req.poster = .waiting t key req.num := by
    cases hp : s.pc req.poster <;> rw [hp] at h2
    case waiting t k' num => exact ⟨t, by rw [h2.1, h2.2]⟩
    case relInfo t k' | relCpipe t k' =>
      have hl := hw hk
      have hk' : k' = key := h2
      simp [hp, Pc.leaving, hk'] at hl
    all_goals exact h2.elim
  have he : s.inbox req.poster = [] := by
    cases hin : s.inbox req.poster with
    | nil => rfl
    | cons r rest =>
      have hr : r ∈ s.inbox req.poster := by simp [hin]
      obtain ⟨t', k', hw'⟩ := h.inbox req.poster r hr
      rw [ht] at hw'
      exact absurd (Pc.waiting.inj hw').2.2 (h.answered req.poster r hr key req hmem)
  exact ⟨t, status, ht, by rw [hi, he]; rfl⟩

/-- The daemon answers. A LOOKUP whose poster is registered and has not stopped waiting is answered
    to the poster. -/
theorem serve (h : s.Delivers) {req : Request} {ptr : Option Nat} (hv : Served s s' key req ptr)
    (hw : req.kind = .lookup → (s.pc req.poster).leaving key = false) : s'.Delivers := by
  have hsub := served_sub hv
  have hgone := h.served_gone hv
  have hin := h.served_inbox hv hw
  obtain ⟨rest, hq, hq'⟩ := hv.queue
  have hpc : s'.pc = s.pc := by rw [hv.frame]
  have hcp : s'.cpipe = s.cpipe := by rw [hv.frame]
  have hnn : s'.nextNum = s.nextNum := by rw [hv.frame]
  refine ⟨?_, fun k q hk hl => ?_, fun k q hk => ?_, fun k => ?_,
    fun j k hjk q hj q' hk => h.apart j k hjk q (hsub j q hj) q' (hsub k q' hk), ?_, fun c => ?_,
    fun c r hr => ?_, fun c r hr k q hk => ?_⟩
  · rw [hpc, hcp]; exact h.spliced
  · rw [hpc, hcp]; exact h.queued k q (hsub k q hk) hl
  · rw [hnn]; exact h.fresh k q (hsub k q hk)
  · rw [hq', Function.update_apply]
    split
    · have := h.nodup key
      rw [hq, List.map_cons, List.nodup_cons] at this
      exact this.2
    · exact h.nodup k
  · rw [hpc, hnn]; exact h.waits
  · rcases hin with e | ⟨t, status, -, e⟩
    · rw [e]; exact h.one c
    · rw [e, Function.update_apply]
      split
      · simp
      · exact h.one c
  · rw [hpc]
    rcases hin with e | ⟨t, status, ht, e⟩
    · exact h.inbox c r (e ▸ hr)
    · rw [e, Function.update_apply] at hr
      split at hr
      next ec => rw [List.mem_singleton.mp hr, ec]; exact ⟨t, key, ht⟩
      next => exact h.inbox c r hr
  · rcases hin with e | ⟨t, status, -, e⟩
    · exact h.answered c r (e ▸ hr) k q (hsub k q hk)
    · rw [e, Function.update_apply] at hr
      split at hr
      · rw [List.mem_singleton.mp hr]; exact hgone k q hk
      · exact h.answered c r hr k q (hsub k q hk)

end Delivers

/-- What keeps replies where they belong. A client registers its socket for a key only once no LOOKUP
    of an earlier holder is queued there, and the daemon serves no LOOKUP between its poster's
    deadline and the poster's taking its socket out of `cpipe_map`. -/
def Timely (s : Sys) : Label → Prop
  | .next c true => ∀ key ∈ (s.pc c).registers?, ∀ req ∈ s.queue key, req.kind ≠ .lookup
  | .serve key _ => ∀ req ∈ (s.queue key).head?, req.kind = .lookup →
      (s.pc req.poster).leaving key = false
  | _ => True

theorem delivers_next {s s' : Sys} {c : Nat} {ok : Bool} (h : s.Delivers) (hx : s.Exclusive)
    (ht : s.Timely (.next c ok)) (hs : s.next c ok = some s') : s'.Delivers := by
  cases hpc : s.pc c <;> simp only [next, hpc] at hs
  case idle | dead | held | waiting => cases hs
  case locking t n | pushLock key n =>
    split at hs <;> [skip; split at hs] <;> cases hs <;>
      exact h.onward hpc rfl (fun _ _ => id) rfl rfl rfl rfl rfl rfl rfl
  case popMeta | popSlot | popWrite | readPipe | pushMeta | pushSlot | pushWrite =>
    split at hs <;> cases hs <;>
      exact h.onward hpc rfl (fun _ _ => id) rfl rfl rfl rfl rfl rfl rfl
  case getRef t key | peekGet t =>
    split at hs <;> cases hs
    · exact h.onward hpc rfl (fun _ _ => id) rfl rfl rfl rfl rfl rfl rfl
    · rename_i s₁ hg
      have e := get_recs hg
      rw [e]
      exact h.onward hpc rfl (fun _ _ => id) rfl rfl rfl rfl rfl rfl rfl
  case splice t key =>
    split at hs <;> cases hs
    next hok => subst hok; exact h.splice hx hpc (ht key (by rw [hpc]; rfl))
    next =>
      rw [forget_recs]
      exact h.onward hpc rfl (fun _ _ => id) rfl rfl rfl rfl rfl rfl rfl
  case pair t key =>
    split at hs <;> cases hs
    · exact h.pair hpc
    · rw [forget_recs]
      exact h.onward hpc rfl (fun _ _ => id) rfl rfl rfl rfl rfl rfl rfl
  case relRead t key =>
    split at hs <;> cases hs
    · exact h.onward hpc rfl (fun _ _ => id) rfl rfl rfl rfl rfl rfl rfl
    · rw [forget_recs]
      exact h.onward hpc rfl (fun _ _ => id) rfl rfl rfl rfl rfl rfl rfl
  case relInfo t key => cases hs; exact h.relInfo hpc
  case relCpipe t key => cases hs; exact h.relCpipe hx hpc
  case relPut t key stmt =>
    cases stmt <;> cases hs
    · exact h.onward hpc rfl (fun _ _ => id) rfl rfl rfl rfl rfl rfl rfl
    · rw [put_recs]
      exact h.onward hpc rfl (fun _ _ => id) rfl rfl rfl rfl rfl rfl rfl
  case peek t =>
    cases hs
    rw [put_recs]
    exact h.onward hpc rfl (fun _ _ => id) rfl rfl rfl rfl rfl rfl rfl
  all_goals
    cases hs
    exact h.onward hpc rfl (fun _ _ => id) rfl rfl rfl rfl rfl rfl rfl

theorem delivers_step {s s' : Sys} {l : Label} (h : s.Delivers) (hx : s.Exclusive) (hpair : s.Paired)
    (ht : s.Timely l) (hs : s.step l = some s') : s'.Delivers := by
  cases l <;> simp only [step, askLookup, askStore] at hs
  case acquire c sql | lookupPayload c sql =>
    obtain ⟨hpc, rfl | ⟨p, -, rfl⟩⟩ := resolve_cases hs
    · exact h
    · exact h.onward hpc rfl (fun _ _ => id) rfl rfl rfl rfl rfl rfl rfl
  case next c ok => exact delivers_next h hx ht hs
  case askLookup c ok | askStore c canonical ok =>
    obtain ⟨t, key, hpc, rfl | ⟨hi, rfl⟩ | ⟨k, hi, rfl⟩⟩ := post_cases hs
    · exact h.quiet rfl rfl rfl rfl rfl (h.empty (by rw [hpc]; rfl)) rfl (by simp [hpc, Pc.spliced?])
        (by simp [hpc, Pc.Asked])
    · have := hpair c key (by rw [hpc]; rfl)
      rw [hi] at this
      cases this
    · exact h.posted hpair hpc hi _
  case takeReply c =>
    obtain ⟨t, key, num, r, rest, hpc, hin, rfl⟩ := takeReply_cases hs
    exact h.takeReply hpc hin
  case giveUp c =>
    obtain ⟨t, key, num, hpc, hin, rfl⟩ := giveUp_cases hs
    refine h.quiet rfl rfl rfl rfl rfl hin rfl
      (by simp [hpc, Pc.spliced?]) fun k n hk => ?_
    rw [hpc] at hk
    exact hk.1
  case die c => cases hs; exact h.die c
  case serve key env =>
    obtain ⟨req, hv⟩ := serve_cases hs
    obtain ⟨rest, hq, -⟩ := hv.queue
    exact h.serve hv (ht req (by simp [hq]))
  case publish sql p => obtain ⟨-, rfl⟩ := publish_cases hs; exact h.congr rfl rfl rfl rfl rfl
  case unpublish sql =>
    obtain ⟨p, r, -, -, -, rfl⟩ := unpublish_cases hs; exact h.congr rfl rfl rfl rfl rfl
  case drop p =>
    obtain ⟨r, -, -, ⟨-, rfl⟩ | ⟨-, rfl⟩⟩ := drop_cases hs <;> exact h.congr rfl rfl rfl rfl rfl
  case collect p => obtain ⟨r, -, -, -, rfl⟩ := collect_cases hs; exact h.congr rfl rfl rfl rfl rfl
  case reclaim p => obtain ⟨r, -, -, rfl⟩ := reclaim_cases hs; exact h.congr rfl rfl rfl rfl rfl
  case breakLock => obtain ⟨c, -, rfl⟩ := breakLock_cases hs; exact h.congr rfl rfl rfl rfl rfl

theorem delivers_start (pipes : Nat) : (start pipes).Delivers := by
  constructor <;> simp [start, Pc.spliced?]

/-- `acquire` and `release` with every call going well. -/
def acquiring (c : Nat) (sql : Bytes) : List Label := .acquire c sql :: List.replicate 10 (.next c true)

def releasing (c : Nat) : List Label := List.replicate 9 (.next c true)

end Sys

end Barnacle.Pipes
