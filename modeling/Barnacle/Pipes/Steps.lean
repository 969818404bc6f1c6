import Barnacle.Pipes.Model

/-! What each step of the pipes can do, said once: the state it leads to, with the guards it was taken
    under. The invariants are proved from these. -/

namespace Barnacle.Pipes
open Barnacle.Lib

/-- The client's socket is paired with the key. -/
def Pc.paired? : Pc → Option Nat
  | held _ k | waiting _ k _ | relInfo _ k => some k
  | _ => none

namespace Sys

variable {s s' : Sys} {c : Nat}

/-! ### References touch the records only -/

theorem get_recs {p : Nat} {lucky : Bool} (h : s.bncl_stmt_get c p lucky = some s') :
    s' = { s with recs := s'.recs } := by
  unfold bncl_stmt_get at h
  split at h
  · split at h
    · cases h; rfl
    · cases h
  · split at h
    · cases h
    · cases h; rfl

theorem put_recs (s : Sys) (o : Owner) (p : Nat) :
    s.bncl_stmt_put o p = { s with recs := (s.bncl_stmt_put o p).recs } := by
  unfold bncl_stmt_put
  split <;> rfl

theorem forget_recs (s : Sys) (c p : Nat) :
    s.forget c p = { s with recs := (s.forget c p).recs } := by
  unfold forget
  split <;> rfl

/-- Where the client goes and what it puts back can be done in either order. -/
theorem put_goto (s : Sys) (o : Owner) (p : Nat) (q : Pc) :
    (s.bncl_stmt_put o p).goto c q = (s.goto c q).bncl_stmt_put o p := by
  have e : (s.goto c q).recs = s.recs := rfl
  unfold bncl_stmt_put
  rw [e]
  cases s.recs p <;> rfl

theorem forget_goto (s : Sys) (p : Nat) (q : Pc) :
    (s.forget c p).goto c q = (s.goto c q).forget c p := by
  have e : (s.goto c q).recs = s.recs := rfl
  unfold forget
  rw [e]
  cases s.recs p <;> rfl

/-- What a client can do to a record: nothing but count. -/
structure Recounted (r r' : Rec) : Prop where
  uid : r'.uid = r.uid
  txt : r'.txt = r.txt
  data : r'.data = r.data
  phase : r'.phase = r.phase

/-- The records that were there are still there with their contents, and no others. -/
def KeepsRecs (s s' : Sys) : Prop :=
  ∀ p, (s.recs p = none ∧ s'.recs p = none) ∨
    ∃ r r', s.recs p = some r ∧ s'.recs p = some r' ∧ Recounted r r'

theorem KeepsRecs.of_eq (h : s'.recs = s.recs) : KeepsRecs s s' := fun p => by
  rw [h]
  cases hp : s.recs p with
  | none => exact .inl ⟨rfl, rfl⟩
  | some r => exact .inr ⟨r, r, rfl, rfl, rfl, rfl, rfl, rfl⟩

theorem KeepsRecs.amend {x : Nat} {r r' : Rec} (hx : s.recs x = some r)
    (h : s'.recs = Function.update s.recs x (some r')) (hr : Recounted r r') : KeepsRecs s s' :=
  fun p => by
  by_cases e : p = x
  · subst e
    exact .inr ⟨r, r', hx, by rw [h, Function.update_self], hr⟩
  · rw [h, Function.update_of_ne e]
    exact KeepsRecs.of_eq rfl p

theorem get_keeps {p : Nat} {lucky : Bool} (h : s.bncl_stmt_get c p lucky = some s') :
    KeepsRecs s s' := by
  unfold bncl_stmt_get at h
  split at h
  · split at h <;> cases h
    exact .of_eq rfl
  next r hr =>
    split at h <;> cases h
    exact .amend hr rfl ⟨rfl, rfl, rfl, rfl⟩

theorem put_keeps (s : Sys) (o : Owner) (p : Nat) : KeepsRecs s (s.bncl_stmt_put o p) := by
  unfold bncl_stmt_put
  split
  · exact .of_eq rfl
  next r hr => exact .amend hr rfl ⟨rfl, rfl, rfl, rfl⟩

theorem forget_keeps (s : Sys) (c p : Nat) : KeepsRecs s (s.forget c p) := by
  unfold forget
  split
  · exact .of_eq rfl
  next r hr => exact .amend hr rfl ⟨rfl, rfl, rfl, rfl⟩

/-- What a client's step does apart from moving on: it leaves requests and records where they are,
    and only the claim redirects a pipe. -/
structure Nexted (s s' : Sys) (c : Nat) : Prop where
  pc : ∃ q, s'.pc = Function.update s.pc c q ∧ ∀ k, q.paired? = some k → s'.info c = some k
  queue : s'.queue = s.queue
  stored : s'.stored = s.stored
  texts : s'.texts = s.texts
  payloads : s'.payloads = s.payloads
  nextUid : s'.nextUid = s.nextUid
  recs : KeepsRecs s s'
  info : ∀ d, d ≠ c → s'.info d = s.info d
  stmt : s'.stmt = s.stmt ∨ ∃ t key, s.pc c = .claim t key ∧
    s'.stmt = Function.update s.stmt key (some t.ptr)

theorem next_cases {ok : Bool} (hs : s.next c ok = some s') : Nexted s s' c := by
  have quiet : ∀ {s₁ : Sys} {q : Pc}, s₁ = { s with
      lock := s₁.lock, num_free := s₁.num_free, freelist := s₁.freelist, cpipe := s₁.cpipe } →
      q.paired? = none → Nexted s (s₁.goto c q) c := fun {s₁ q} e hq => by
    rw [e]
    exact ⟨⟨q, rfl, by simp [hq]⟩, rfl, rfl, rfl, rfl, rfl, .of_eq rfl, fun _ _ => rfl, .inl rfl⟩
  have recs : ∀ {s₁ : Sys} {q : Pc}, s₁ = { s with recs := s₁.recs } → KeepsRecs s s₁ →
      q.paired? = none → Nexted s (s₁.goto c q) c := fun {s₁ q} e hk hq => by
    rw [e] at hk ⊢
    exact ⟨⟨q, rfl, by simp [hq]⟩, rfl, rfl, rfl, rfl, rfl, hk, fun _ _ => rfl, .inl rfl⟩
  have info : ∀ {v : Option Nat} {q : Pc}, (∀ k, q.paired? = some k → v = some k) →
      Nexted s ({ s with info := Function.update s.info c v }.goto c q) c := fun {v q} hv =>
    ⟨⟨q, rfl, by simpa [goto] using hv⟩, rfl, rfl, rfl, rfl, rfl, .of_eq rfl,
      fun d hd => Function.update_of_ne hd .., .inl rfl⟩
  cases hpc : s.pc c <;> simp only [next, hpc] at hs
  case idle | dead | held | waiting => cases hs
  case locking | pushLock =>
    split at hs <;> [skip; split at hs] <;> cases hs <;> exact quiet rfl rfl
  case popMeta | popSlot | popWrite | readPipe | pushMeta | pushSlot | pushWrite =>
    split at hs <;> cases hs <;> exact quiet rfl rfl
  case relRead =>
    split at hs <;> cases hs
    · exact quiet rfl rfl
    · exact recs (forget_recs ..) (forget_keeps s c _) rfl
  case getRef | peekGet =>
    split at hs <;> cases hs
    · exact quiet rfl rfl
    · rename_i hg; exact recs (get_recs hg) (get_keeps hg) rfl
  case claim t key =>
    cases hs
    exact ⟨⟨_, rfl, by simp [Pc.paired?]⟩, rfl, rfl, rfl, rfl, rfl, .of_eq rfl, fun _ _ => rfl,
      .inr ⟨t, key, hpc, rfl⟩⟩
  case splice =>
    split at hs <;> cases hs
    · exact quiet rfl rfl
    · exact recs (forget_recs ..) (forget_keeps s c _) rfl
  case pair =>
    split at hs <;> cases hs
    · exact info fun _ => id
    · exact recs (forget_recs ..) (forget_keeps s c _) rfl
  case relInfo => cases hs; exact info (by simp [Pc.paired?])
  case relPut t key stmt =>
    cases stmt <;> cases hs
    · exact quiet rfl rfl
    · exact recs (put_recs ..) (put_keeps s _ _) rfl
  case peek => cases hs; exact recs (put_recs ..) (put_keeps s _ _) rfl
  all_goals cases hs; exact quiet rfl rfl

/-! ### Calls a client begins -/

theorem resolve_cases {sql : Bytes} {k : Target → Pc} (h : s.resolve c sql k = some s') :
    s.pc c = .idle ∧ (s' = s ∨ ∃ p, s.stmts sql = some p ∧
      s' = s.goto c (k ⟨p, ((s.recs p).map Rec.uid).getD 0⟩)) := by
  unfold resolve at h
  split at h
  next hpc =>
    split at h
    · cases h; exact ⟨hpc, Or.inl rfl⟩
    · next p hp => cases h; exact ⟨hpc, Or.inr ⟨p, hp, rfl⟩⟩
  next => cases h

/-- Where a client goes after posting. -/
def Posted (t : Target) (key num : Nat) : Kind → Pc
  | .lookup => .waiting t key num
  | .store _ => .relInfo t key

/-- The state after a post that was accepted. -/
def posted (s : Sys) (c k : Nat) (t : Target) (key : Nat) (kind : Kind) : Sys :=
  { s with
    queue := Function.update s.queue k (s.queue k ++ [Request.mk kind c s.nextNum t.uid])
    nextNum := s.nextNum + 1 }.goto c (Posted t key s.nextNum kind)

theorem post_cases {kind : Kind} {ok : Bool} (h : s.post c kind ok = some s') :
    ∃ t key, s.pc c = .held t key ∧
      (s' = s.goto c (.relInfo t key) ∨
        (s.info c = none ∧ s' = s.goto c (Posted t key s.nextNum kind)) ∨
        ∃ k, s.info c = some k ∧ s' = s.posted c k t key kind) := by
  unfold post at h
  split at h
  next t key hpc =>
    refine ⟨t, key, hpc, ?_⟩
    split at h
    · cases h; exact Or.inl rfl
    · right
      cases kind <;> dsimp only at h <;> split at h <;> cases h
      · next hi => exact Or.inl ⟨hi, rfl⟩
      · next k hi => exact Or.inr ⟨k, hi, rfl⟩
      · next hi => exact Or.inl ⟨hi, rfl⟩
      · next k hi => exact Or.inr ⟨k, hi, rfl⟩
  next => cases h

theorem takeReply_cases (h : s.takeReply c = some s') :
    ∃ t key num r rest, s.pc c = .waiting t key num ∧ s.inbox c = r :: rest ∧
      s' = { s with inbox := Function.update s.inbox c rest }.goto c (.relInfo t key) := by
  unfold takeReply at h
  split at h
  next t key num r rest hpc hin => cases h; exact ⟨t, key, num, r, rest, hpc, hin, rfl⟩
  next => cases h

theorem giveUp_cases (h : s.giveUp c = some s') :
    ∃ t key num, s.pc c = .waiting t key num ∧ s.inbox c = [] ∧
      s' = s.goto c (.relInfo t key) := by
  unfold giveUp at h
  split at h
  next t key num hpc hin => cases h; exact ⟨t, key, num, hpc, hin, rfl⟩
  next => cases h

/-! ### The daemon -/

/-- Everything that answering a request can change. -/
structure Answered (s s' : Sys) (key : Nat) (req : Request) (ptr : Option Nat) : Prop where
  frame : s' = { s with
    recs := s'.recs, inbox := s'.inbox, stored := s'.stored, payloads := s'.payloads }
  recs : (s'.recs = s.recs ∧ s'.payloads = s.payloads) ∨ ∃ p r d, ptr = some p ∧
    s.recs p = some r ∧ r.phase ≠ .retired ∧
    s'.recs = Function.update s.recs p (some { r with data := d }) ∧
    s'.payloads = Function.update s.payloads r.uid d
  stored : s'.stored = s.stored ∨ ∃ p r body, req.kind = .store body ∧ ptr = some p ∧
    s.recs p = some r ∧ s'.stored = (r.uid, req) :: s.stored
  inbox : s'.inbox = s.inbox ∨ ∃ c status, req.kind = .lookup ∧ s.cpipe key = some c ∧
    s'.inbox = Function.update s.inbox c (s.inbox c ++ [⟨status, req.num⟩])

theorem answer_cases {key : Nat} {req : Request} {ptr : Option Nat} {env : Env}
    (h : s.answer key req ptr env = some s') : Answered s s' key req ptr := by
  unfold answer at h
  split at h
  next body hk => cases h; exact ⟨rfl, .inl ⟨rfl, rfl⟩, .inl rfl, .inl rfl⟩
  next body p hk =>
    split at h
    · cases h
    next r hr =>
      split at h
      · cases h
      next hph =>
        cases h
        unfold store
        split
        · exact ⟨rfl, .inl ⟨rfl, rfl⟩, .inl rfl, .inl rfl⟩
        · dsimp only
          split <;> split
          · exact ⟨rfl, .inr ⟨p, r, some body, rfl, hr, hph, rfl, rfl⟩, .inr ⟨p, r, body, hk, rfl, hr, rfl⟩, .inl rfl⟩
          · exact ⟨rfl, .inr ⟨p, r, some body, rfl, hr, hph, rfl, rfl⟩, .inl rfl, .inl rfl⟩
          · exact ⟨rfl, .inl ⟨rfl, rfl⟩, .inr ⟨p, r, body, hk, rfl, hr, rfl⟩, .inl rfl⟩
          · exact ⟨rfl, .inl ⟨rfl, rfl⟩, .inl rfl, .inl rfl⟩
  next hk =>
    split at h
    · cases h; exact ⟨rfl, .inl ⟨rfl, rfl⟩, .inl rfl, .inl rfl⟩
    · split at h
      · cases h
        unfold reply
        split
        · exact ⟨rfl, .inl ⟨rfl, rfl⟩, .inl rfl, .inl rfl⟩
        next c hc => exact ⟨rfl, .inl ⟨rfl, rfl⟩, .inl rfl, .inr ⟨c, _, hk, hc, rfl⟩⟩
      next p =>
        split at h
        · cases h
        next r hr =>
          split at h
          · cases h
          next hph =>
            cases h
            unfold reply
            split
            · exact ⟨rfl, .inr ⟨p, r, _, rfl, hr, hph, rfl, rfl⟩, .inl rfl, .inl rfl⟩
            next c hc =>
              exact ⟨rfl, .inr ⟨p, r, _, rfl, hr, hph, rfl, rfl⟩, .inl rfl, .inr ⟨c, _, hk, hc, rfl⟩⟩

/-- Everything that serving one request can change. -/
structure Served (s s' : Sys) (key : Nat) (req : Request) (ptr : Option Nat) : Prop where
  frame : s' = { s with
    recs := s'.recs, queue := s'.queue, inbox := s'.inbox, stored := s'.stored,
    payloads := s'.payloads }
  queue : ∃ rest, s.queue key = req :: rest ∧ s'.queue = Function.update s.queue key rest
  recs : (s'.recs = s.recs ∧ s'.payloads = s.payloads) ∨ ∃ p r d, ptr = some p ∧
    s.recs p = some r ∧ r.phase ≠ .retired ∧
    s'.recs = Function.update s.recs p (some { r with data := d }) ∧
    s'.payloads = Function.update s.payloads r.uid d
  stored : s'.stored = s.stored ∨ ∃ p r body, req.kind = .store body ∧ ptr = some p ∧
    s.recs p = some r ∧ s'.stored = (r.uid, req) :: s.stored
  inbox : s'.inbox = s.inbox ∨ ∃ c status, req.kind = .lookup ∧ s.cpipe key = some c ∧
    s'.inbox = Function.update s.inbox c (s.inbox c ++ [⟨status, req.num⟩])

/-- A request is served when it is taken off its queue and answered. -/
theorem Answered.served {key : Nat} {req : Request} {rest : List Request} {ptr : Option Nat}
    (hq : s.queue key = req :: rest)
    (h : Answered { s with queue := Function.update s.queue key rest } s' key req ptr) :
    Served s s' key req ptr :=
  ⟨by rw [h.frame], ⟨rest, hq, by rw [h.frame]⟩, h.recs, h.stored, h.inbox⟩

theorem serve_cases {key : Nat} {env : Env} (h : s.serve key env = some s') :
    ∃ req, Served s s' key req (s.stmt key) := by
  unfold serve at h
  split at h
  · cases h
  next req rest hq => exact ⟨req, (answer_cases h).served hq⟩

theorem publish_cases {sql : Bytes} {p : Nat} (h : s.publish sql p = some s') :
    s.recs p = none ∧
      s' = { s with
        recs := Function.update s.recs p (some ⟨s.nextUid, sql, none, 1, [.list], .known⟩)
        stmts := Function.update s.stmts sql (some p)
        texts := Function.update s.texts s.nextUid sql
        payloads := Function.update s.payloads s.nextUid none
        nextUid := s.nextUid + 1 } := by
  unfold publish at h
  split at h
  next hc => cases h; exact ⟨hc, rfl⟩
  next => cases h

theorem unpublish_cases {sql : Bytes} (h : s.unpublish sql = some s') :
    ∃ p r, s.stmts sql = some p ∧ s.recs p = some r ∧ r.phase = .known ∧
      s' = { s with stmts := Function.update s.stmts sql none }.setRec p
        (some { r with phase := .removing }) := by
  unfold unpublish at h
  split at h
  · cases h
  next p hp =>
    split at h
    · cases h
    next r hr =>
      split at h
      next hk => cases h; exact ⟨p, r, hp, hr, hk, rfl⟩
      next => cases h

theorem drop_cases {p : Nat} (h : s.drop p = some s') :
    ∃ r, s.recs p = some r ∧ r.phase = .removing ∧
      ((r.refs - 1 = 0 ∧
        s' = s.retireStmt p { r with refs := r.refs - 1, owners := r.owners.erase .list }) ∨
      (r.refs - 1 ≠ 0 ∧ s' = s.setRec p (some { r with
        refs := r.refs - 1, owners := r.owners.erase .list, phase := .orphan }))) := by
  unfold drop at h
  split at h
  · cases h
  next r hr =>
    split at h
    next hk =>
      dsimp only at h
      split at h
      next h0 => cases h; exact ⟨r, hr, hk, .inl ⟨h0, rfl⟩⟩
      next h0 => cases h; exact ⟨r, hr, hk, .inr ⟨h0, rfl⟩⟩
    next => cases h

theorem collect_cases {p : Nat} (h : s.collect p = some s') :
    ∃ r, s.recs p = some r ∧ r.phase = .orphan ∧ r.refs = 0 ∧ s' = s.retireStmt p r := by
  unfold collect at h
  split at h
  · cases h
  next r hr =>
    split at h
    next hk => cases h; exact ⟨r, hr, hk.1, hk.2, rfl⟩
    next => cases h

theorem step_collect {p : Nat} {r : Rec} (hr : s.recs p = some r) (hk : r.phase = .orphan) (h0 : r.refs = 0) :
    s.step (.collect p) = some (s.retireStmt p r) := by
  simp only [step, collect, hr, hk, h0, and_self, if_true]

theorem reclaim_cases {p : Nat} (h : s.reclaim p = some s') :
    ∃ r, s.recs p = some r ∧ r.phase = .retired ∧ s' = s.setRec p none := by
  unfold reclaim at h
  split at h
  · cases h
  next r hr =>
    split at h
    next hk => cases h; exact ⟨r, hr, hk, rfl⟩
    next => cases h

theorem breakLock_cases (h : s.breakLock = some s') :
    ∃ c, s.lock = some c ∧ s' = { s with lock := none } := by
  unfold breakLock at h
  split at h
  · cases h
  next c hc => cases h; exact ⟨c, hc, rfl⟩

/-! ### Any step -/

/-- A step changes what the queues hold or where the pipes point in three ways only: a claim, a post,
    or a request served. -/
inductive Piped (s s' : Sys) (l : Label) : Prop
  | same (queue : s'.queue = s.queue) (stmt : s'.stmt = s.stmt) (stored : s'.stored = s.stored)
  | claim (c : Nat) (ok : Bool) (t : Target) (key : Nat) (label : l = .next c ok)
      (pc : s.pc c = .claim t key) (queue : s'.queue = s.queue) (recs : s'.recs = s.recs)
      (stmt : s'.stmt = Function.update s.stmt key (some t.ptr)) (stored : s'.stored = s.stored)
  | post (c : Nat) (t : Target) (key k : Nat) (kind : Kind) (pc : s.pc c = .held t key)
      (info : s.info c = some k) (recs : s'.recs = s.recs) (stmt : s'.stmt = s.stmt)
      (stored : s'.stored = s.stored)
      (queue : s'.queue =
        Function.update s.queue k (s.queue k ++ [Request.mk kind c s.nextNum t.uid]))
  | serve (key : Nat) (req : Request) (served : Served s s' key req (s.stmt key))

theorem piped_step {l : Label} (hs : s.step l = some s') : Piped s s' l := by
  cases l <;> simp only [step, askLookup, askStore] at hs
  case acquire c sql | lookupPayload c sql =>
    obtain ⟨-, rfl | ⟨p, -, rfl⟩⟩ := resolve_cases hs <;> exact .same rfl rfl rfl
  case next c ok =>
    have hn := next_cases hs
    rcases hn.stmt with e | ⟨t, key, hpc, e⟩
    · exact .same hn.queue e hn.stored
    · refine .claim c ok t key rfl hpc hn.queue ?_ e hn.stored
      simp only [next, hpc] at hs
      cases hs
      rfl
  case askLookup c ok | askStore c canonical ok =>
    obtain ⟨t, key, hpc, rfl | ⟨-, rfl⟩ | ⟨k, hi, rfl⟩⟩ := post_cases hs
    · exact .same rfl rfl rfl
    · exact .same rfl rfl rfl
    · exact .post c t key k _ hpc hi rfl rfl rfl rfl
  case takeReply c =>
    obtain ⟨t, key, num, r, rest, -, -, rfl⟩ := takeReply_cases hs; exact .same rfl rfl rfl
  case giveUp c => obtain ⟨t, key, num, -, -, rfl⟩ := giveUp_cases hs; exact .same rfl rfl rfl
  case die c => cases hs; exact .same rfl rfl rfl
  case serve key env => obtain ⟨req, hv⟩ := serve_cases hs; exact .serve key req hv
  case publish sql p => obtain ⟨-, rfl⟩ := publish_cases hs; exact .same rfl rfl rfl
  case unpublish sql => obtain ⟨p, r, -, -, -, rfl⟩ := unpublish_cases hs; exact .same rfl rfl rfl
  case drop p =>
    obtain ⟨r, -, -, ⟨-, rfl⟩ | ⟨-, rfl⟩⟩ := drop_cases hs <;> exact .same rfl rfl rfl
  case collect p => obtain ⟨r, -, -, -, rfl⟩ := collect_cases hs; exact .same rfl rfl rfl
  case reclaim p => obtain ⟨r, -, -, rfl⟩ := reclaim_cases hs; exact .same rfl rfl rfl
  case breakLock => obtain ⟨c, -, rfl⟩ := breakLock_cases hs; exact .same rfl rfl rfl

/-- What a step does to the records: the clients count, the daemon gives payloads, publishes, takes
    out, retires and reclaims. -/
inductive Kept (s s' : Sys) (l : Label) : Prop
  | count (recs : KeepsRecs s s') (texts : s'.texts = s.texts) (payloads : s'.payloads = s.payloads)
      (nextUid : s'.nextUid = s.nextUid)
  | payload (p : Nat) (r : Rec) (d : Option Bytes) (at_ : s.recs p = some r)
      (recs : s'.recs = Function.update s.recs p (some { r with data := d }))
      (texts : s'.texts = s.texts) (payloads : s'.payloads = Function.update s.payloads r.uid d)
      (nextUid : s'.nextUid = s.nextUid)
  | publish (sql : Bytes) (p : Nat) (at_ : s.recs p = none) (label : l = .publish sql p)
      (recs : s'.recs =
        Function.update s.recs p (some ⟨s.nextUid, sql, none, 1, [.list], .known⟩))
      (texts : s'.texts = Function.update s.texts s.nextUid sql)
      (payloads : s'.payloads = Function.update s.payloads s.nextUid none)
      (nextUid : s'.nextUid = s.nextUid + 1)
  | list (p : Nat) (r : Rec) (refs : UInt32) (owners : List Owner) (phase : Phase)
      (at_ : s.recs p = some r) (before : r.phase ≠ .retired) (after : phase ≠ .retired)
      (same : s' = { s with stmts := s'.stmts }.setRec p
        (some { r with refs := refs, owners := owners, phase := phase }))
  | retire (p : Nat) (r : Rec) (refs : UInt32) (owners : List Owner) (at_ : s.recs p = some r)
      (label : (l = .drop p ∧ r.phase = .removing ∧ r.refs - 1 = 0) ∨ l = .collect p)
      (same : s' = s.retireStmt p { r with refs := refs, owners := owners })
  | reclaim (p : Nat) (r : Rec) (at_ : s.recs p = some r) (before : r.phase = .retired)
      (same : s' = s.setRec p none)

theorem kept_step {l : Label} (hs : s.step l = some s') : Kept s s' l := by
  cases l <;> simp only [step, askLookup, askStore] at hs
  case acquire c sql | lookupPayload c sql =>
    obtain ⟨-, rfl | ⟨p, -, rfl⟩⟩ := resolve_cases hs <;> exact .count (.of_eq rfl) rfl rfl rfl
  case next c ok =>
    have hn := next_cases hs
    exact .count hn.recs hn.texts hn.payloads hn.nextUid
  case askLookup c ok | askStore c canonical ok =>
    obtain ⟨t, key, -, rfl | ⟨-, rfl⟩ | ⟨k, -, rfl⟩⟩ := post_cases hs <;>
      exact .count (.of_eq rfl) rfl rfl rfl
  case takeReply c =>
    obtain ⟨t, key, num, r, rest, -, -, rfl⟩ := takeReply_cases hs
    exact .count (.of_eq rfl) rfl rfl rfl
  case giveUp c =>
    obtain ⟨t, key, num, -, -, rfl⟩ := giveUp_cases hs; exact .count (.of_eq rfl) rfl rfl rfl
  case die c => cases hs; exact .count (.of_eq rfl) rfl rfl rfl
  case serve key env =>
    obtain ⟨req, hv⟩ := serve_cases hs
    rcases hv.recs with ⟨e, ep⟩ | ⟨p, r, d, -, hr, -, e, ep⟩
    · exact .count (.of_eq e) (by rw [hv.frame]) ep (by rw [hv.frame])
    · exact .payload p r d hr e (by rw [hv.frame]) ep (by rw [hv.frame])
  case publish sql p =>
    obtain ⟨hnone, rfl⟩ := publish_cases hs; exact .publish sql p hnone rfl rfl rfl rfl rfl
  case unpublish sql =>
    obtain ⟨p, r, -, hr, hk, rfl⟩ := unpublish_cases hs
    exact .list p r r.refs r.owners .removing hr (by rw [hk]; simp) (by simp) rfl
  case drop p =>
    obtain ⟨r, hr, hk, ⟨h0, rfl⟩ | ⟨-, rfl⟩⟩ := drop_cases hs
    · exact .retire p r _ _ hr (.inl ⟨rfl, hk, h0⟩) rfl
    · exact .list p r _ _ .orphan hr (by rw [hk]; simp) (by simp) rfl
  case collect p =>
    obtain ⟨r, hr, -, -, rfl⟩ := collect_cases hs; exact .retire p r r.refs r.owners hr (.inr rfl) rfl
  case reclaim p => obtain ⟨r, hr, hk, rfl⟩ := reclaim_cases hs; exact .reclaim p r hr hk rfl
  case breakLock =>
    obtain ⟨c, -, rfl⟩ := breakLock_cases hs; exact .count (.of_eq rfl) rfl rfl rfl

/-! ### Pairing -/

/-- A client that holds a pipe has its socket paired with that pipe's key. -/
def Paired (s : Sys) : Prop := ∀ c k, (s.pc c).paired? = some k → s.info c = some k

theorem Paired.move (h : s.Paired) {q : Pc} (hp : s'.pc = Function.update s.pc c q)
    (hi : ∀ d, d ≠ c → s'.info d = s.info d) (hq : ∀ k, q.paired? = some k → s'.info c = some k) :
    s'.Paired := fun d k hd => by
  rw [hp, Function.update_apply] at hd
  split at hd
  next e => subst e; exact hq k hd
  next e => rw [hi d e]; exact h d k hd

theorem Paired.congr (h : s.Paired) (hp : s'.pc = s.pc) (hi : s'.info = s.info) : s'.Paired := by
  rw [Paired, hp, hi]
  exact h

theorem paired_step {l : Label} (h : s.Paired) (hs : s.step l = some s') : s'.Paired := by
  cases l <;> simp only [step, askLookup, askStore] at hs
  case acquire c sql | lookupPayload c sql =>
    obtain ⟨-, rfl | ⟨p, -, rfl⟩⟩ := resolve_cases hs
    · exact h
    · exact h.move rfl (fun _ _ => rfl) (by simp [Pc.paired?])
  case next c ok =>
    have hn := next_cases hs
    obtain ⟨q, hp, hq⟩ := hn.pc
    exact h.move hp hn.info hq
  case askLookup c ok | askStore c canonical ok =>
    obtain ⟨t, key, hpc, hs⟩ := post_cases hs
    have hi := h c key (by rw [hpc]; rfl)
    rcases hs with rfl | ⟨-, rfl⟩ | ⟨k, -, rfl⟩ <;>
      exact h.move rfl (fun _ _ => rfl) fun _ hk => hi.trans hk
  case takeReply c =>
    obtain ⟨t, key, num, r, rest, hpc, -, rfl⟩ := takeReply_cases hs
    exact h.move rfl (fun _ _ => rfl) fun k hk => (h c key (by rw [hpc]; rfl)).trans hk
  case giveUp c =>
    obtain ⟨t, key, num, hpc, -, rfl⟩ := giveUp_cases hs
    exact h.move rfl (fun _ _ => rfl) fun k hk => (h c key (by rw [hpc]; rfl)).trans hk
  case die c =>
    cases hs
    exact h.move rfl (fun d hd => Function.update_of_ne hd ..) (by simp [Pc.paired?])
  case serve key env =>
    obtain ⟨req, hv⟩ := serve_cases hs
    exact h.congr (by rw [hv.frame]) (by rw [hv.frame])
  case publish sql p => obtain ⟨-, rfl⟩ := publish_cases hs; exact h.congr rfl rfl
  case unpublish sql => obtain ⟨p, r, -, -, -, rfl⟩ := unpublish_cases hs; exact h.congr rfl rfl
  case drop p => obtain ⟨r, -, -, ⟨-, rfl⟩ | ⟨-, rfl⟩⟩ := drop_cases hs <;> exact h.congr rfl rfl
  case collect p => obtain ⟨r, -, -, -, rfl⟩ := collect_cases hs; exact h.congr rfl rfl
  case reclaim p => obtain ⟨r, -, -, rfl⟩ := reclaim_cases hs; exact h.congr rfl rfl
  case breakLock => obtain ⟨c, -, rfl⟩ := breakLock_cases hs; exact h.congr rfl rfl

theorem paired_start (pipes : Nat) : (start pipes).Paired := by simp [Paired, start, Pc.paired?]

end Sys

end Barnacle.Pipes
