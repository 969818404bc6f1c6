import Barnacle.Lib.Simulation
import Barnacle.Pipes.Delivery

/-! The splice in the kernel (`splice_c2d` and `splice_d2c` in `src/kclient/kclient.bpf.c`, attached by
    `attachSplices` in `src/daemon/main.cpp`), and the pipes over it. A send on a socket that is in one of
    the two maps is given to the program of that map, which looks at nothing but the pairing that hangs on
    the socket. Here a request, a reply or a piece of the connection to the database goes where that sends
    it; the pipes of `Sys`, in which requests reach the dpipe and replies the client, are what shows of it.

    While a socket is paired, whatever is written on it goes to the daemon. -/

namespace Barnacle.Pipes
open Barnacle.Lib

/-! ### The kernel -/

/-- A client's connection to its database, and the two ends of a dpipe: the daemon reads and writes
    `sfd`, and nothing ever uses `cfd`. -/
inductive Sock
  | client (c : Nat)
  | sfd (key : Nat)
  | cfd (key : Nat)
deriving DecidableEq

structure PipeSkInfo where
  key : Nat
  paired : Bool

inductive Verdict
  | SK_PASS
  | SK_DROP
  | redirect (dest : Sock)
deriving DecidableEq

structure Kernel where
  /-- `cfg[BNCL_CFG_ENABLED]` -/
  enabled : UInt32
  /-- which of the programs are attached -/
  c2d_on : Bool
  d2c_on : Bool
  max_pipes : Nat
  dpipe_map : Nat → Option Sock
  cpipe_map : Nat → Option Sock
  pipe_sk_info_map : Sock → Option PipeSkInfo

namespace Kernel

/-- The body of both programs; `bpf_msg_redirect_map` drops what is for an empty slot. -/
def splice (k : Kernel) (map : Nat → Option Sock) (sk : Sock) : Verdict :=
  if k.enabled = 0 then .SK_PASS
  else
    match k.pipe_sk_info_map sk with
    | none => .SK_PASS
    | some info =>
      if !info.paired then .SK_PASS
      else (map info.key).elim .SK_DROP .redirect

def splice_c2d (k : Kernel) (sk : Sock) : Verdict := k.splice k.dpipe_map sk
def splice_d2c (k : Kernel) (sk : Sock) : Verdict := k.splice k.cpipe_map sk

def holds (k : Kernel) (map : Nat → Option Sock) (sk : Sock) : Bool :=
  (List.range k.max_pipes).any fun key => map key = some sk

/-- A send runs the program of the map the socket is in, if there is one. -/
def sendmsg (k : Kernel) (sk : Sock) : Verdict :=
  if k.holds k.cpipe_map sk && k.c2d_on then k.splice_c2d sk
  else if k.holds k.dpipe_map sk && k.d2c_on then k.splice_d2c sk
  else .SK_PASS

end Kernel

/-! ### The pipes over it -/

inductive Chunk
  | mysql (bytes : Bytes)
  | request (req : Request)
  | reply (r : Reply)

structure Net where
  sys : Sys
  pipes : Nat
  max_pipes : Nat
  enabled : UInt32 := 1
  c2d_on : Bool := true
  d2c_on : Bool := true
  /-- the pairing of the daemon's ends -/
  back : Nat → Option PipeSkInfo := fun _ => none
  /-- what a client's database has been sent -/
  wire : Nat → List Chunk := fun _ => []
  /-- what has arrived at a socket where nobody expects it -/
  stray : Sock → List Chunk := fun _ => []

namespace Net

def kernel (n : Net) : Kernel where
  enabled := n.enabled
  c2d_on := n.c2d_on
  d2c_on := n.d2c_on
  max_pipes := n.max_pipes
  dpipe_map key := if key < n.pipes then some (.sfd key) else none
  cpipe_map key := (n.sys.cpipe key).map .client
  pipe_sk_info_map
    | .client c => (n.sys.info c).map (⟨·, true⟩)
    | .sfd key => n.back key
    | .cfd _ => none

def setSys (n : Net) (s : Sys) : Net := { n with sys := s }

/-- Into the receive queue of a socket. -/
def arrive (n : Net) : Sock → Chunk → Net
  | .sfd k, .request req => n.setSys { n.sys with queue := Function.update n.sys.queue k (n.sys.queue k ++ [req]) }
  | .client c, .reply r => n.setSys { n.sys with inbox := Function.update n.sys.inbox c (n.sys.inbox c ++ [r]) }
  | sk, m => { n with stray := Function.update n.stray sk (n.stray sk ++ [m]) }

/-- To the other end of the socket's own connection. -/
def emit (n : Net) (m : Chunk) : Sock → Net
  | .client c => { n with wire := Function.update n.wire c (n.wire c ++ [m]) }
  | .sfd k => n.arrive (.cfd k) m
  | .cfd k => n.arrive (.sfd k) m

/-- A send, and whether it succeeds. -/
def send (n : Net) (sk : Sock) (m : Chunk) : Bool × Net :=
  match n.kernel.sendmsg sk with
  | .SK_PASS => (true, n.emit m sk)
  | .SK_DROP => (false, n)
  | .redirect dest => (true, n.arrive dest m)

def post (n : Net) (c : Nat) (kind : Kind) (ok : Bool) : Option Net :=
  match n.sys.pc c with
  | .held t key =>
    let r := n.send (.client c) (.request ⟨kind, c, n.sys.nextNum, t.uid⟩)
    if ok && r.1 then
      some (r.2.setSys ({ r.2.sys with nextNum := n.sys.nextNum + 1 }.goto c (Sys.Posted t key n.sys.nextNum kind)))
    else some (n.setSys (n.sys.goto c (.relInfo t key)))
  | _ => none

/-- The daemon splices its own end: dpipe `key` is spliced to cpipe `key`. -/
def pairBack (n : Net) (key : Nat) : Net := { n with back := Function.update n.back key (some ⟨key, true⟩) }

@[simp] theorem setSys_sys (n : Net) (s : Sys) : (n.setSys s).sys = s := rfl

def reply (n : Net) (key : Nat) (r : Reply) : Net := (n.send (.sfd key) (.reply r)).2

/-- `serve`, with the daemon's own end paired before it answers. -/
def serve (n : Net) (key : Nat) (env : Sys.Env) : Option Net :=
  match n.sys.queue key with
  | [] => none
  | req :: rest =>
    let n := n.setSys { n.sys with queue := Function.update n.sys.queue key rest }
    match req.kind, n.sys.stmt key with
    | .store _, none => some n
    | .store body, some p =>
      match n.sys.recs p with
      | none => none
      | some r => if r.phase = .retired then none else some (n.setSys (n.sys.store p r req body env))
    | .lookup, ptr =>
      if !env.spliced then some n
      else
        let n := n.pairBack key
        match ptr with
        | none => some (n.reply key ⟨.AGENT_CACHE_ERROR, req.num⟩)
        | some p =>
          match n.sys.recs p with
          | none => none
          | some r =>
            if r.phase = .retired then none
            else
              let v := Sys.verdict r env
              some ((n.setSys (n.sys.setPayload p r v.2)).reply key ⟨v.1, req.num⟩)

inductive Label
  | sys (l : Sys.Label)
  /-- the application, through `SSL_write` -/
  | write (c : Nat) (bytes : Bytes)

def step (n : Net) : Label → Option Net
  | .write c bytes =>
    let r := n.send (.client c) (.mysql bytes)
    if n.sys.pc c ≠ .dead ∧ r.1 = true then some r.2 else none
  | .sys (.askLookup c ok) => n.post c .lookup ok
  | .sys (.askStore c canonical ok) =>
    n.post c (.store canonical) (ok && !(canonical.isEmpty || decide (canonical.length > BNCL_STORE_MAX)))
  | .sys (.serve key env) => n.serve key env
  | .sys l => (n.sys.step l).map n.setSys

/-- What shows of a step in the pipes. -/
def op (_ : Net) : Label → Option Sys.Label
  | .sys l => some l
  | .write .. => none

/-- The daemon has made its pipes and attached both programs. -/
def start (pipes max_pipes : Nat) : Net := { sys := Sys.start pipes, pipes, max_pipes }

end Net

/-! ### Where the sockets are -/

theorem Pc.spliced_of_paired {p : Pc} {k : Nat} (h : p.paired? = some k) : p.spliced? = some k := by
  cases p <;> simp_all [paired?, spliced?]

namespace Sys

/-- Sockets are registered and paired as the program counters say, and there is no key but those of the
    pipes. -/
structure Placed (pipes : Nat) (s : Sys) : Prop where
  spliced : ∀ c k, (s.pc c).spliced? = some k → s.cpipe k = some c
  paired : ∀ c k, s.info c = some k ↔ (s.pc c).paired? = some k
  free : ∀ i < s.num_free, s.freelist i < pipes
  keys : ∀ c k, (s.pc c).key? = some k → k < pipes
  queued : ∀ k, s.queue k ≠ [] → k < pipes

namespace Placed
variable {pipes : Nat} {s s' : Sys} {c : Nat} {p : Pc}

theorem congr (h : s.Placed pipes) (hp : s'.pc = s.pc) (hc : s'.cpipe = s.cpipe) (hi : s'.info = s.info)
    (hn : s'.num_free = s.num_free) (hf : s'.freelist = s.freelist)
    (hq : ∀ k, s'.queue k ≠ [] → s.queue k ≠ []) : s'.Placed pipes := by
  refine ⟨?_, ?_, ?_, ?_, fun k hk => h.queued k (hq k hk)⟩
  · rw [hp, hc]
    exact h.spliced
  · rw [hp, hi]
    exact h.paired
  · rw [hn, hf]
    exact h.free
  · rw [hp]
    exact h.keys

/-- Client `c` moves on, and with it the entries that are its own. -/
theorem moved (h : s.Placed pipes) (hp : s'.pc = Function.update s.pc c p)
    (hothers : ∀ d k, d ≠ c → (s.pc d).spliced? = some k → s'.cpipe k = some d)
    (hown : ∀ k, p.spliced? = some k → s'.cpipe k = some c)
    (hinfo : ∀ d, d ≠ c → s'.info d = s.info d) (hi : ∀ k, s'.info c = some k ↔ p.paired? = some k)
    (hfree : ∀ i < s'.num_free, s'.freelist i < pipes) (hkey : ∀ k, p.key? = some k → k < pipes)
    (hq : s'.queue = s.queue) : s'.Placed pipes := by
  have hpc : ∀ d, s'.pc d = if d = c then p else s.pc d := fun d => by rw [hp, Function.update_apply]
  refine ⟨?_, ?_, hfree, ?_, by rw [hq]; exact h.queued⟩
  · intro d k hd
    rw [hpc] at hd
    split at hd
    next e => exact e ▸ hown k hd
    next e => exact hothers d k e hd
  · intro d k
    rw [hpc]
    split
    next e => exact e ▸ hi k
    next e => rw [hinfo d e]; exact h.paired d k
  · intro d k hd
    rw [hpc] at hd
    split at hd
    · exact hkey k hd
    · exact h.keys d k hd

/-- It moves on and leaves its entries. -/
theorem quiet (h : s.Placed pipes) (hp : s'.pc = Function.update s.pc c p) (hc : s'.cpipe = s.cpipe)
    (hi : s'.info = s.info) (hn : s'.num_free = s.num_free) (hf : s'.freelist = s.freelist)
    (hq : s'.queue = s.queue) (hspl : ∀ k, p.spliced? = some k → (s.pc c).spliced? = some k)
    (hpair : p.paired? = (s.pc c).paired?) (hkey : ∀ k, p.key? = some k → (s.pc c).key? = some k) :
    s'.Placed pipes := by
  refine h.moved hp ?_ ?_ (fun _ _ => by rw [hi]) ?_ ?_ (fun k hk => h.keys c k (hkey k hk)) hq
  · rw [hc]
    exact fun d k _ hd => h.spliced d k hd
  · rw [hc]
    exact fun k hk => h.spliced c k (hspl k hk)
  · rw [hi, hpair]
    exact h.paired c
  · rw [hn, hf]
    exact h.free

theorem quiet_recs {s₁ : Sys} (h : s.Placed pipes) (e : s₁ = { s with recs := s₁.recs })
    (hspl : ∀ k, p.spliced? = some k → (s.pc c).spliced? = some k) (hpair : p.paired? = (s.pc c).paired?)
    (hkey : ∀ k, p.key? = some k → (s.pc c).key? = some k) : (s₁.goto c p).Placed pipes := by
  rw [e]
  exact h.quiet rfl rfl rfl rfl rfl rfl hspl hpair hkey

theorem posted (h : s.Placed pipes) {t : Target} {key k : Nat} (hpc : s.pc c = .held t key) (hi : s.info c = some k)
    (kind : Kind) : (s.posted c k t key kind).Placed pipes := by
  have hk : k < pipes := by
    have hpair := (h.paired c k).mp hi
    rw [hpc] at hpair
    exact h.keys c k (by rw [hpc]; exact hpair)
  have hmoved : (s.goto c (Posted t key s.nextNum kind)).Placed pipes := by
    cases kind <;>
      exact h.quiet rfl rfl rfl rfl rfl rfl (by simp [hpc, Posted, Pc.spliced?]) (by simp [hpc, Posted, Pc.paired?])
        (by simp [hpc, Posted, Pc.key?])
  refine ⟨hmoved.spliced, hmoved.paired, hmoved.free, hmoved.keys, fun j hj => ?_⟩
  by_cases e : j = k
  · exact e ▸ hk
  · refine h.queued j ?_
    have hsame : (s.posted c k t key kind).queue j = s.queue j := Function.update_of_ne e ..
    rwa [hsame] at hj

end Placed

theorem placed_next {pipes : Nat} {s s' : Sys} {c : Nat} {ok : Bool} (h : s.Placed pipes) (hx : s.Exclusive)
    (hs : s.next c ok = some s') : s'.Placed pipes := by
  -- nobody else has the key that `c` has
  have hother : ∀ d k, d ≠ c → (s.pc c).key? = some k → (s.pc d).spliced? ≠ some k := fun d k hd hk hdk =>
    hd (hx.key_inj d c k (Pc.key?_of_spliced hdk) hk)
  have hfit := hx.fits c
  have hkeys := h.keys c
  have hpair := h.paired c
  cases hpc : s.pc c <;> simp only [next, hpc] at hs <;> rw [hpc] at hfit hkeys hpair hother
  case idle | dead | held | waiting => cases hs
  case locking t n | pushLock key n =>
    split at hs <;> [skip; split at hs] <;> cases hs <;>
      exact h.quiet rfl rfl rfl rfl rfl rfl (by simp [Pc.spliced?]) (by simp [hpc, Pc.paired?]) (by simp [hpc, Pc.key?])
  case popMeta | popSlot | readPipe | pushMeta =>
    split at hs <;> cases hs <;>
      exact h.quiet rfl rfl rfl rfl rfl rfl (by simp [Pc.spliced?]) (by simp [hpc, Pc.paired?]) (by simp [hpc, Pc.key?])
  case popFail | claim | unlock | pushUnlock =>
    cases hs
    exact h.quiet rfl rfl rfl rfl rfl rfl (by simp [Pc.spliced?]) (by simp [hpc, Pc.paired?]) (by simp [hpc, Pc.key?])
  case popWrite t slot key =>
    split at hs <;> cases hs
    · refine h.moved rfl (fun d k _ => h.spliced d k) (by simp [Pc.spliced?]) (fun _ _ => rfl)
        hpair ?_ ?_ rfl
      · intro i hi
        refine h.free i ?_
        have := hfit.1
        exact Nat.lt_of_lt_of_le hi (by simp only [goto] at hi ⊢; omega)
      · intro k hk
        cases hk
        rw [← hfit.2]
        exact h.free slot (by have := hfit.1; omega)
    · exact h.quiet rfl rfl rfl rfl rfl rfl (by simp [Pc.spliced?]) (by simp [hpc, Pc.paired?]) (by simp [Pc.key?])
  case getRef t key | peekGet t =>
    split at hs
    next =>
      cases hs
      exact h.quiet rfl rfl rfl rfl rfl rfl (by simp [Pc.spliced?]) (by simp [hpc, Pc.paired?]) (by simp [hpc, Pc.key?])
    next s₁ hg =>
      cases hs
      exact h.quiet_recs (get_recs hg) (by simp [Pc.spliced?]) (by simp [hpc, Pc.paired?]) (by simp [hpc, Pc.key?])
  case relRead t key =>
    split at hs <;> cases hs
    · exact h.quiet rfl rfl rfl rfl rfl rfl (by simp [Pc.spliced?]) (by simp [hpc, Pc.paired?]) (by simp [hpc, Pc.key?])
    · exact h.quiet_recs (s.forget_recs c t.ptr) (by simp [Pc.spliced?]) (by simp [hpc, Pc.paired?])
        (by simp [hpc, Pc.key?])
  case relPut t key stmt =>
    cases stmt with
    | none =>
      cases hs
      exact h.quiet rfl rfl rfl rfl rfl rfl (by simp [Pc.spliced?]) (by simp [hpc, Pc.paired?]) (by simp [hpc, Pc.key?])
    | some p =>
      cases hs
      exact h.quiet_recs (s.put_recs (.client c) p) (by simp [Pc.spliced?]) (by simp [hpc, Pc.paired?])
        (by simp [hpc, Pc.key?])
  case peek t =>
    cases hs
    exact h.quiet_recs (s.put_recs (.client c) t.ptr) (by simp [Pc.spliced?]) (by simp [hpc, Pc.paired?])
      (by simp [Pc.key?])
  case splice t key =>
    split at hs <;> cases hs
    · refine h.moved rfl ?_ ?_ (fun _ _ => rfl) hpair h.free hkeys rfl
      · intro d k hd hdk
        have hne : k ≠ key := fun e => hother d key hd rfl (e ▸ hdk)
        exact (Function.update_of_ne hne ..).trans (h.spliced d k hdk)
      · intro k hk
        cases hk
        exact Function.update_self ..
    · exact h.quiet_recs (s.forget_recs c t.ptr) (by simp [Pc.spliced?]) (by simp [hpc, Pc.paired?])
        (by simp [hpc, Pc.key?])
  case pair t key =>
    split at hs <;> cases hs
    · refine h.moved rfl (fun d k _ => h.spliced d k) (fun k hk => h.spliced c k (by rw [hpc]; exact hk))
        (fun d hd => Function.update_of_ne hd ..) ?_ h.free hkeys rfl
      intro k
      simp [goto, Pc.paired?]
    · exact h.quiet_recs (s.forget_recs c t.ptr) (by simp [Pc.spliced?]) (by simp [hpc, Pc.paired?])
        (by simp [hpc, Pc.key?])
  case relInfo t key =>
    cases hs
    refine h.moved rfl (fun d k _ => h.spliced d k) (fun k hk => h.spliced c k (by rw [hpc]; exact hk))
      (fun d hd => Function.update_of_ne hd ..) ?_ h.free hkeys rfl
    intro k
    simp [goto, Pc.paired?]
  case relCpipe t key =>
    cases hs
    refine h.moved rfl ?_ (by simp [Pc.spliced?]) (fun _ _ => rfl) hpair h.free hkeys rfl
    intro d k hd hdk
    have hne : k ≠ key := fun e => hother d key hd rfl (e ▸ hdk)
    exact (Function.update_of_ne hne ..).trans (h.spliced d k hdk)
  case pushSlot key n =>
    split at hs <;> cases hs
    · refine h.moved rfl (fun d k _ => h.spliced d k) (by simp [Pc.spliced?]) (fun _ _ => rfl)
        hpair ?_ hkeys rfl
      intro i hi
      have hne : i ≠ n := by
        rintro rfl
        rw [hfit] at hi
        exact Nat.lt_irrefl _ hi
      show Function.update s.freelist n key i < pipes
      rw [Function.update_of_ne hne]
      exact h.free i hi
    · exact h.quiet rfl rfl rfl rfl rfl rfl (by simp [Pc.spliced?]) (by simp [hpc, Pc.paired?]) (by simp [Pc.key?])
  case pushWrite key n =>
    split at hs <;> cases hs
    · refine h.moved rfl (fun d k _ => h.spliced d k) (by simp [Pc.spliced?]) (fun _ _ => rfl)
        hpair ?_ (by simp [Pc.key?]) rfl
      intro i hi
      rcases Nat.lt_succ_iff_lt_or_eq.mp hi with hlt | rfl
      · exact h.free i (hfit.1 ▸ hlt)
      · exact hfit.2 ▸ hkeys key rfl
    · exact h.quiet rfl rfl rfl rfl rfl rfl (by simp [Pc.spliced?]) (by simp [hpc, Pc.paired?]) (by simp [Pc.key?])

theorem placed_step {pipes : Nat} {s s' : Sys} {l : Label} (h : s.Placed pipes) (hx : s.Exclusive)
    (hs : s.step l = some s') : s'.Placed pipes := by
  cases l <;> simp only [step, askLookup, askStore] at hs
  case acquire c sql | lookupPayload c sql =>
    obtain ⟨hpc, rfl | ⟨p, -, rfl⟩⟩ := resolve_cases hs
    · exact h
    · exact h.quiet rfl rfl rfl rfl rfl rfl (by simp [Pc.spliced?]) (by simp [hpc, Pc.paired?]) (by simp [Pc.key?])
  case next c ok => exact placed_next h hx hs
  case askLookup c ok | askStore c canonical ok =>
    obtain ⟨t, key, hpc, rfl | ⟨-, rfl⟩ | ⟨k, hi, rfl⟩⟩ := post_cases hs
    · exact h.quiet rfl rfl rfl rfl rfl rfl (by simp [hpc, Pc.spliced?]) (by simp [hpc, Pc.paired?])
        (by simp [hpc, Pc.key?])
    · exact h.quiet rfl rfl rfl rfl rfl rfl (by simp [hpc, Posted, Pc.spliced?]) (by simp [hpc, Posted, Pc.paired?])
        (by simp [hpc, Posted, Pc.key?])
    · exact h.posted hpc hi _
  case takeReply c =>
    obtain ⟨t, key, num, r, rest, hpc, -, rfl⟩ := takeReply_cases hs
    exact h.quiet rfl rfl rfl rfl rfl rfl (by simp [hpc, Pc.spliced?]) (by simp [hpc, Pc.paired?])
      (by simp [hpc, Pc.key?])
  case giveUp c =>
    obtain ⟨t, key, num, hpc, -, rfl⟩ := giveUp_cases hs
    exact h.quiet rfl rfl rfl rfl rfl rfl (by simp [hpc, Pc.spliced?]) (by simp [hpc, Pc.paired?])
      (by simp [hpc, Pc.key?])
  case die c =>
    cases hs
    refine h.moved rfl ?_ (by simp [Pc.spliced?]) (fun d hd => Function.update_of_ne hd ..) ?_ h.free
      (by simp [Pc.key?]) rfl
    · intro d k hd hdk
      have hk := h.spliced d k hdk
      show (if s.cpipe k = some c then none else s.cpipe k) = some d
      rw [if_neg (by rw [hk]; simpa using hd), hk]
    · intro k
      simp [Sys.die, goto, Pc.paired?]
  case serve key env =>
    obtain ⟨req, hv⟩ := serve_cases hs
    obtain ⟨rest, hq, hq'⟩ := hv.queue
    refine h.congr (by rw [hv.frame]) (by rw [hv.frame]) (by rw [hv.frame]) (by rw [hv.frame]) (by rw [hv.frame]) ?_
    intro k hk
    by_cases e : k = key
    · rw [e, hq]
      simp
    · rwa [hq', Function.update_of_ne e] at hk
  case publish sql p => obtain ⟨-, rfl⟩ := publish_cases hs; exact h.congr rfl rfl rfl rfl rfl fun _ => id
  case unpublish sql =>
    obtain ⟨p, r, -, -, -, rfl⟩ := unpublish_cases hs; exact h.congr rfl rfl rfl rfl rfl fun _ => id
  case drop p =>
    obtain ⟨r, -, -, ⟨-, rfl⟩ | ⟨-, rfl⟩⟩ := drop_cases hs <;> exact h.congr rfl rfl rfl rfl rfl fun _ => id
  case collect p => obtain ⟨r, -, -, -, rfl⟩ := collect_cases hs; exact h.congr rfl rfl rfl rfl rfl fun _ => id
  case reclaim p => obtain ⟨r, -, -, rfl⟩ := reclaim_cases hs; exact h.congr rfl rfl rfl rfl rfl fun _ => id
  case breakLock => obtain ⟨c, -, rfl⟩ := breakLock_cases hs; exact h.congr rfl rfl rfl rfl rfl fun _ => id

theorem placed_start (pipes : Nat) : (start pipes).Placed pipes := by
  constructor <;> simp [start, Pc.spliced?, Pc.paired?, Pc.key?]

end Sys

/-! ### What the kernel does with a send -/

namespace Net
variable {pipes : Nat} {n n' : Net} {c : Nat}

/-- Both programs are attached and switched on. -/
structure On (n : Net) : Prop where
  enabled : n.enabled ≠ 0
  c2d_on : n.c2d_on = true
  d2c_on : n.d2c_on = true
  max_pipes : n.pipes ≤ n.max_pipes

structure Wired (n : Net) : Prop where
  on : n.On
  exclusive : n.sys.Exclusive
  placed : n.sys.Placed n.pipes

theorem holds_cpipe {k : Nat} (hk : k < n.max_pipes) (hc : n.sys.cpipe k = some c) :
    n.kernel.holds n.kernel.cpipe_map (.client c) = true := by
  refine List.any_eq_true.mpr ⟨k, List.mem_range.mpr hk, ?_⟩
  simp [kernel, hc]

theorem not_holds_dpipe (n : Net) (c : Nat) : n.kernel.holds n.kernel.dpipe_map (.client c) = false := by
  refine List.any_eq_false.mpr fun k _ => ?_
  simp [kernel]

theorem not_holds_cpipe (n : Net) (key : Nat) : n.kernel.holds n.kernel.cpipe_map (.sfd key) = false := by
  refine List.any_eq_false.mpr fun k _ => ?_
  simp [kernel]

/-- On a paired socket a client talks to its pipe. -/
theorem Wired.sendmsg_paired (h : n.Wired) {k : Nat} (hi : n.sys.info c = some k) :
    n.kernel.sendmsg (.client c) = .redirect (.sfd k) := by
  have hp := (h.placed.paired c k).mp hi
  have hspl := Pc.spliced_of_paired hp
  have hk : k < n.pipes := h.placed.keys c k (Pc.key?_of_spliced hspl)
  have hheld := holds_cpipe (Nat.lt_of_lt_of_le hk h.on.max_pipes) (h.placed.spliced c k hspl)
  rw [Kernel.sendmsg, hheld, if_pos (by simp [kernel, h.on.c2d_on])]
  simp [Kernel.splice_c2d, Kernel.splice, kernel, h.on.enabled, hi, hk]

/-- On any other it talks to its database. -/
theorem sendmsg_unpaired (n : Net) (hi : n.sys.info c = none) : n.kernel.sendmsg (.client c) = .SK_PASS := by
  rw [Kernel.sendmsg, not_holds_dpipe]
  split
  · simp [Kernel.splice_c2d, Kernel.splice, kernel, hi]
  · simp

/-- The daemon's end, paired with its key, reaches whoever is registered for that. -/
theorem On.sendmsg_back (h : n.On) {k : Nat} (hk : k < n.pipes) (hb : n.back k = some ⟨k, true⟩) :
    n.kernel.sendmsg (.sfd k) = (n.sys.cpipe k).elim .SK_DROP fun c => .redirect (.client c) := by
  have hheld : n.kernel.holds n.kernel.dpipe_map (.sfd k) = true := by
    refine List.any_eq_true.mpr ⟨k, List.mem_range.mpr (Nat.lt_of_lt_of_le hk h.max_pipes), ?_⟩
    simp [kernel, hk]
  rw [Kernel.sendmsg, not_holds_cpipe, hheld, if_neg (by simp), if_pos (by simp [kernel, h.d2c_on])]
  cases hc : n.sys.cpipe k <;> simp [Kernel.splice_d2c, Kernel.splice, kernel, h.enabled, hb, hc]

/-! ### The pipes, seen through it -/

/-- What the kernel and the daemon's set-up say stays. -/
structure Same (n n' : Net) : Prop where
  pipes : n'.pipes = n.pipes
  max_pipes : n'.max_pipes = n.max_pipes
  enabled : n'.enabled = n.enabled
  c2d_on : n'.c2d_on = n.c2d_on
  d2c_on : n'.d2c_on = n.d2c_on
  stray : n'.stray = n.stray

theorem Same.on (h : Same n n') (hon : n.On) : n'.On := by
  refine ⟨?_, ?_, ?_, ?_⟩
  · rw [h.enabled]
    exact hon.enabled
  · rw [h.c2d_on]
    exact hon.c2d_on
  · rw [h.d2c_on]
    exact hon.d2c_on
  · rw [h.pipes, h.max_pipes]
    exact hon.max_pipes

theorem On.reply (h : n.On) {k : Nat} (hk : k < n.pipes) (hb : n.back k = some ⟨k, true⟩) (r : Reply) :
    n.reply k r = n.setSys (n.sys.reply k r) := by
  rw [Net.reply, send, h.sendmsg_back hk hb, Sys.reply]
  cases n.sys.cpipe k <;> rfl

theorem Wired.post (h : n.Wired) {kind : Kind} {ok : Bool} (hs : n.post c kind ok = some n') :
    n.sys.post c kind ok = some n'.sys ∧ n' = n.setSys n'.sys := by
  unfold Net.post at hs
  split at hs
  next t key hpc =>
    have hi := (h.placed.paired c key).mpr (by rw [hpc]; rfl)
    rw [send, h.sendmsg_paired hi] at hs
    rw [Sys.post, hpc]
    cases ok with
    | true =>
      obtain rfl := Option.some.inj hs
      simp only [Bool.not_true, Bool.false_eq_true, if_false, hi]
      exact ⟨rfl, rfl⟩
    | false =>
      obtain rfl := Option.some.inj hs
      exact ⟨rfl, rfl⟩
  next => cases hs

theorem Wired.serve (h : n.Wired) {key : Nat} {env : Sys.Env} (hs : n.serve key env = some n') :
    n.sys.serve key env = some n'.sys ∧ Same n n' ∧ n'.wire = n.wire := by
  unfold Net.serve at hs
  unfold Sys.serve Sys.answer
  cases hq : n.sys.queue key with
  | nil =>
    rw [hq] at hs
    cases hs
  | cons req rest =>
    have hk : key < n.pipes := h.placed.queued key (by rw [hq]; simp)
    rw [hq] at hs
    dsimp only at hs ⊢
    obtain ⟨kind, poster, num, uid⟩ := req
    cases kind with
    | store body =>
      dsimp only at hs ⊢
      cases hst : n.sys.stmt key with
      | none =>
        simp only [setSys, hst] at hs ⊢
        cases hs
        exact ⟨rfl, ⟨rfl, rfl, rfl, rfl, rfl, rfl⟩, rfl⟩
      | some p =>
        simp only [setSys, hst] at hs ⊢
        cases hr : n.sys.recs p with
        | none =>
          rw [hr] at hs
          cases hs
        | some r =>
          rw [hr] at hs
          dsimp only at hs ⊢
          split at hs
          next => cases hs
          next hph =>
            cases hs
            rw [if_neg hph]
            exact ⟨rfl, ⟨rfl, rfl, rfl, rfl, rfl, rfl⟩, rfl⟩
    | lookup =>
      dsimp only at hs ⊢
      cases hsp : env.spliced with
      | false =>
        rw [hsp] at hs
        cases hs
        exact ⟨rfl, ⟨rfl, rfl, rfl, rfl, rfl, rfl⟩, rfl⟩
      | true =>
        -- the daemon's own end is paired by now, so what it answers goes to the client
        have hreply : ∀ (s : Sys) (r : Reply), ((n.pairBack key).setSys s).reply key r =
            (n.pairBack key).setSys (s.reply key r) := by
          intro s r
          have hon : ((n.pairBack key).setSys s).On := ⟨h.on.enabled, h.on.c2d_on, h.on.d2c_on, h.on.max_pipes⟩
          exact hon.reply hk (Function.update_self ..) r
        have hmove : ∀ s, (n.setSys s).pairBack key = (n.pairBack key).setSys s := fun _ => rfl
        simp only [hsp, Bool.not_true, Bool.false_eq_true, if_false, setSys_sys, hmove] at hs ⊢
        cases hst : n.sys.stmt key with
        | none =>
          simp only [hst, hreply] at hs ⊢
          cases hs
          exact ⟨rfl, ⟨rfl, rfl, rfl, rfl, rfl, rfl⟩, rfl⟩
        | some p =>
          simp only [hst] at hs ⊢
          cases hr : n.sys.recs p with
          | none =>
            simp only [hr] at hs
            cases hs
          | some r =>
            have hset : ∀ s t, ((n.pairBack key).setSys s).setSys t = (n.pairBack key).setSys t := fun _ _ => rfl
            simp only [hr, hset, hreply] at hs ⊢
            split at hs
            next => cases hs
            next hph =>
              cases hs
              rw [if_neg hph]
              exact ⟨rfl, ⟨rfl, rfl, rfl, rfl, rfl, rfl⟩, rfl⟩

/-- The application writes only while its connection is its own, and the daemon frees the freelist lock
    only of a client that has died. -/
def Paced (n : Net) : Label → Prop
  | .write c _ => (n.sys.pc c).paired? = none
  | .sys l => n.sys.Abandoned l

instance (n : Net) : (l : Label) → Decidable (n.Paced l)
  | .write c _ => inferInstanceAs (Decidable ((n.sys.pc c).paired? = none))
  | .sys l => inferInstanceAs (Decidable (n.sys.Abandoned l))

/-- What the application writes on the connection of client `c`. -/
def written (c : Nat) : Label → List Chunk
  | .write d bytes => if d = c then [.mysql bytes] else []
  | .sys _ => []

/-- A step that the pipes take, and nothing else comes of it. -/
theorem Wired.taken (h : n.Wired) {l : Sys.Label} (ha : n.sys.Abandoned l) (hs : n.sys.step l = some n'.sys)
    (hsame : Same n n') : n'.Wired :=
  ⟨hsame.on h.on, Sys.exclusive_step h.exclusive ha hs, hsame.pipes ▸ Sys.placed_step h.placed h.exclusive hs⟩

/-- Every step for the pipes is the step that `Sys` takes. -/
theorem Wired.step_sys (h : n.Wired) {l : Sys.Label} (hs : n.step (.sys l) = some n') :
    n.sys.step l = some n'.sys ∧ Same n n' ∧ n'.wire = n.wire := by
  have hother : (n.sys.step l).map n.setSys = some n' →
      n.sys.step l = some n'.sys ∧ Same n n' ∧ n'.wire = n.wire := by
    intro hmap
    obtain ⟨s, hs', rfl⟩ := Option.map_eq_some_iff.mp hmap
    exact ⟨hs', ⟨rfl, rfl, rfl, rfl, rfl, rfl⟩, rfl⟩
  cases l with
  | askLookup c ok =>
    obtain ⟨hp, e⟩ := h.post hs
    rw [e]
    exact ⟨hp, ⟨rfl, rfl, rfl, rfl, rfl, rfl⟩, rfl⟩
  | askStore c canonical ok =>
    obtain ⟨hp, e⟩ := h.post hs
    rw [e]
    exact ⟨hp, ⟨rfl, rfl, rfl, rfl, rfl, rfl⟩, rfl⟩
  | serve key env => exact h.serve hs
  | acquire | lookupPayload | next | takeReply | giveUp | die | publish | unpublish | drop | collect | reclaim
    | breakLock => exact hother hs

/-- What is written while the connection is its own goes to the database. -/
theorem Wired.write (h : n.Wired) {bytes : Bytes} (hp : (n.sys.pc c).paired? = none)
    (hs : n.step (.write c bytes) = some n') :
    n' = { n with wire := Function.update n.wire c (n.wire c ++ [.mysql bytes]) } := by
  have hi : n.sys.info c = none := by
    cases hk : n.sys.info c with
    | none => rfl
    | some k =>
      rw [(h.placed.paired c k).mp hk] at hp
      cases hp
  simp only [step, send, sendmsg_unpaired n hi] at hs
  split at hs
  next => exact (Option.some.inj hs).symm
  next => cases hs

theorem Wired.step (h : n.Wired) {l : Label} (hp : n.Paced l) (hs : n.step l = some n') :
    n'.Wired ∧ Same n n' ∧ Matches Sys.step n.sys (n.op l) n'.sys ∧ ∀ c, n'.wire c = n.wire c ++ written c l := by
  cases l with
  | sys l =>
    obtain ⟨hstep, hsame, hwire⟩ := h.step_sys hs
    refine ⟨h.taken hp hstep hsame, hsame, hstep, fun c => ?_⟩
    rw [hwire, written, List.append_nil]
  | write c bytes =>
    obtain rfl := h.write hp hs
    refine ⟨⟨⟨h.on.enabled, h.on.c2d_on, h.on.d2c_on, h.on.max_pipes⟩, h.exclusive, h.placed⟩,
      ⟨rfl, rfl, rfl, rfl, rfl, rfl⟩, rfl, fun d => ?_⟩
    rw [written]
    by_cases e : c = d
    · subst e
      rw [if_pos rfl]
      exact Function.update_self ..
    · rw [if_neg e, List.append_nil]
      exact Function.update_of_ne (Ne.symm e) ..

theorem wired_start {pipes max_pipes : Nat} (hmax : pipes ≤ max_pipes) : (start pipes max_pipes).Wired :=
  ⟨⟨show (1 : UInt32) ≠ 0 by decide, rfl, rfl, hmax⟩, Sys.exclusive_start pipes, Sys.placed_start pipes⟩

/-- Under the two programs the pipes are what they are meant to be: as long as no application writes on a
    connection that is spliced, and the freelist lock is freed only of a client that has died, requests
    reach the dpipe of their client and replies the client that is registered for the key, the database of
    every client is sent exactly what the application writes, in order, and no socket is given a kind of
    message that is not read from it. -/
theorem net_refines (pipes max_pipes : Nat) (hmax : pipes ≤ max_pipes) (ls : List Label) (n : Net)
    (hrun : run step (start pipes max_pipes) ls = some n) (hpaced : Along step Paced (start pipes max_pipes) ls) :
    run Sys.step (Sys.start pipes) (visible step op (start pipes max_pipes) ls) = some n.sys ∧
      (∀ c, n.wire c = ls.flatMap (written c)) ∧ ∀ sk, n.stray sk = [] := by
  have hstep : ∀ (m : Net) (l : Label) (m' : Net), m.Wired ∧ m.stray = (fun _ => []) → m.Paced l →
      m.step l = some m' → (m'.Wired ∧ m'.stray = fun _ => []) ∧ Matches Sys.step m.sys (m.op l) m'.sys := by
    intro m l m' ⟨h, hm⟩ hp hs
    obtain ⟨h', hsame, hmatch, -⟩ := h.step hp hs
    exact ⟨⟨h', hsame.stray.trans hm⟩, hmatch⟩
  obtain ⟨⟨-, hstray⟩, hsys⟩ := run_view hstep ⟨wired_start hmax, rfl⟩ hpaced hrun
  refine ⟨hsys, fun c => ?_, fun sk => congrFun hstray sk⟩
  have hlog : ∀ (m : Net) (l : Label) (m' : Net), m.Wired → m.Paced l → m.step l = some m' →
      m'.Wired ∧ m'.wire c = m.wire c ++ written c l := by
    intro m l m' h hp hs
    obtain ⟨h', -, -, hwire⟩ := h.step hp hs
    exact ⟨h', hwire c⟩
  exact run_log (fun m => m.wire c) hlog (wired_start hmax) hpaced hrun

/-- A client asks about a statement that nobody has an answer for. -/
def asking : List Sys.Label := .publish [83] 100 :: Sys.acquiring 0 [83] ++ [.askLookup 0 true]

def told : List Sys.Label := asking ++ [.serve 0 ⟨true, some none, true, true⟩]

def oneMiss : List Label :=
  .write 0 [1] :: (told ++ .takeReply 0 :: Sys.releasing 0).map .sys ++ [.write 0 [2]]

theorem oneMiss_refines : ∃ n, run step (start 1 4) oneMiss = some n ∧
    run Sys.step (Sys.start 1) (visible step op (start 1 4) oneMiss) = some n.sys ∧
    n.wire 0 = [.mysql [1], .mysql [2]] ∧ (∀ sk, n.stray sk = []) ∧ n.sys.pc 0 = .idle := by
  refine exists_run_of_map (fun n => n.sys.pc 0) .idle (by decide +kernel) ?_
  intro n hn hpc
  obtain ⟨hsys, hwire, hstray⟩ := net_refines 1 4 (by decide) oneMiss n hn (by decide +kernel)
  exact ⟨hsys, hwire 0, hstray, hpc⟩

/-- What is written before the answer has been taken lands in the dpipe. -/
example : (run step (start 1 4) (asking.map .sys ++ [.write 0 [2]])).map
    (fun n => ((n.wire 0).length, (n.stray (.sfd 0)).length)) = some (0, 1) := by
  decide +kernel

/-- With one of the programs missing, replies end at the far end of the pipe. -/
example : (run step { start 1 4 with d2c_on := false } (told.map .sys)).map
    (fun n => ((n.sys.inbox 0).length, (n.stray (.cfd 0)).length)) = some (0, 1) := by
  decide +kernel

end Net

end Barnacle.Pipes
