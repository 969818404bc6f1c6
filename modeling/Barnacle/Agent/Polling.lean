import Barnacle.Agent.Process

/-! When the agent notices that its daemon has stopped (`refreshLocked` in `src/uclient/agent.cpp`,
    `daemonAlive` and `cfgRead` in `src/uclient/shared.cpp`). Whether there is a daemon is read off a
    path that the next daemon makes again; the slots are read from maps that outlive theirs. -/

namespace Barnacle.Agent
open Barnacle.Lib Barnacle.Mysql

/-! ### Nothing is held back while interception is off -/

namespace Conn

/-- What `handleWrite` leaves alone while interception is off. -/
structure Passed (c : Conn) (r : Handled) : Prop where
  suppress : r.suppress = false
  awaiting : r.conn.awaiting = c.awaiting
  owed : r.conn.owed = c.owed ∧ r.conn.owed_off = c.owed_off

theorem handleLoop_off {sw : Switches} (hoff : sw.on = false) (looks : Nat → Look) (buf : Bytes) (fuel : Nat) :
    ∀ (i : Nat) (c : Conn) (sql : Bytes), Passed c (handleLoop sw looks buf fuel i c sql) := by
  induction fuel with
  | zero => exact fun i c sql => ⟨rfl, rfl, rfl, rfl⟩
  | succ fuel ih =>
    intro i c sql
    have e : consider sw (looks i) buf c sql =
        (.pass, { c with last_seq := c.req.last_seq, resp := ResponseTracker.begin c.assumed }) := by
      unfold consider
      simp [hoff]
    unfold handleLoop
    rw [e]
    dsimp only
    rw [if_neg (by decide)]
    cases (RequestTracker.next c.req).1 with
    | none => exact ⟨rfl, rfl, rfl, rfl⟩
    | some sql' =>
      obtain ⟨h1, h2, h3⟩ := ih (i + 1)
        { c with last_seq := c.req.last_seq, resp := ResponseTracker.begin c.assumed,
                 req := (RequestTracker.next c.req).2 } sql'
      exact ⟨h1, h2, h3⟩

theorem handleWrite_off {sw : Switches} (hoff : sw.on = false) (c : Conn) (looks : Nat → Look) (buf : Bytes) :
    Passed c (c.handleWrite sw looks buf) := by
  unfold handleWrite
  dsimp only
  cases (c.req.feed buf).1 with
  | none => exact ⟨rfl, rfl, rfl, rfl⟩
  | some sql =>
    obtain ⟨h1, h2, h3⟩ := handleLoop_off hoff looks buf ((c.req.feed buf).2.reader.buffered + 1) 0
      { c with req := (c.req.feed buf).2 } sql
    exact ⟨h1, h2, h3⟩

end Conn

/-! ### Polling -/

namespace Process
variable {p : Process} {now : UInt64} {alive : Bool} {cfg : Option Cfg} {file : Option (List Bytes)}

/-- What a poll leaves alone. -/
theorem refreshLocked_rest (p : Process) (now : UInt64) (alive : Bool) (cfg : Option Cfg)
    (file : Option (List Bytes)) :
    (p.refreshLocked now alive cfg file).fds = p.fds ∧
      (p.refreshLocked now alive cfg file).conns_s = p.conns_s ∧
      (p.refreshLocked now alive cfg file).hooked_s = p.hooked_s := by
  unfold refreshLocked
  dsimp only
  repeat' split
  all_goals exact ⟨rfl, rfl, rfl⟩

/-- What it finds: the daemon gone, now or earlier, or the slots of the maps there are descriptors of. -/
theorem refreshLocked_finds (p : Process) (now : UInt64) (alive : Bool) (cfg : Option Cfg)
    (file : Option (List Bytes)) :
    (p.refreshLocked now alive cfg file).daemon_gone_s = (p.daemon_gone_s || (p.polls now && !alive)) ∧
      (p.refreshLocked now alive cfg file).on_s =
        if p.polls now then
          if !alive then false
          else if p.daemon_gone_s then p.on_s
          else (cfg.map fun sw => decide (sw.client_on ≠ 0)).getD p.on_s
        else p.on_s := by
  unfold refreshLocked
  dsimp only
  cases p.polls now with
  | false => simp
  | true =>
    cases alive with
    | false => simp
    | true =>
      cases hg : p.daemon_gone_s with
      | true => simp
      | false =>
        cases cfg with
        | none => simp
        | some sw =>
          by_cases hgen : sw.generation = p.gen_s
          · simp [hgen]
          · cases file <;> simp [hgen]

end Process

/-! ### Whole runs -/

/-- `bncl_agent_init` runs. -/
def Label.isInit : Label → Bool
  | .attach _ | .detach => true
  | _ => false

namespace Host
variable {h h' : Host} {l : Label} {d : Option (Nat × Decision)} {m : Nat}

/-- The steps that have nothing to do with the switches. -/
structure Still (h h' : Host) : Prop where
  on_s : h'.agent.on_s = h.agent.on_s
  gone : h'.agent.daemon_gone_s = h.agent.daemon_gone_s
  fds : h'.agent.fds = h.agent.fds
  cfg : h'.cfg = h.cfg
  made : h'.made = h.made
  pinned : h'.pinned = h.pinned

/-- What a step can be, as far as the switches are concerned. -/
inductive Does (h : Host) : Label → Host → Option (Nat × Decision) → Prop
  | still {l : Label} {h' : Host} {d : Option (Nat × Decision)} (same : Still h h')
      (pass : ∀ x ∈ d, x.2.suppress = false) : Does h l h' d
  | start {l : Label} {h' : Host} (agent : h'.agent = h.agent) (pinned : h'.pinned = some h.made)
      (made : h'.made = h.made + 1) (sw : Cfg) (cfg : h'.cfg = Function.update h.cfg h.made sw) : Does h l h' none
  | stop {l : Label} {h' : Host} (agent : h'.agent = h.agent) (pinned : h'.pinned = none)
      (made : h'.made = h.made) (cfg : h'.cfg = h.cfg) : Does h l h' none
  | ctl {l : Label} (m : Nat) (pinned : h.pinned = some m) (sw : Cfg) :
      Does h l { h with cfg := Function.update h.cfg m sw } none
  | attach (file : Option (List Bytes)) : Does h (.attach file) (h.attach file) none
  | detach : Does h .detach { h with agent := { h.agent with on_s := false }, detach := .waiting 0 } none
  | write {l : Label} (ssl : Nat) (now : UInt64) (file : Option (List Bytes)) (looks : Nat → Look) (buf : Bytes)
      {d : Option (Nat × Decision)} (pass : ∀ x ∈ d, x.2.suppress = (h.write ssl now file looks buf).1.suppress) :
      Does h l (h.write ssl now file looks buf).2 d

theorem does_of_act (hs : h.act l = some (h', d)) : Does h l h' d := by
  have hnone : ∀ x ∈ (none : Option (Nat × Decision)), x.2.suppress = false := fun x hx => by cases hx
  cases l with
  | start local_on =>
    simp only [act] at hs
    split at hs
    · cases hs
    · cases hs
      exact .start rfl rfl rfl _ rfl
  | stop =>
    simp only [act] at hs
    split at hs
    · cases hs
    · cases hs
      exact .stop rfl rfl rfl rfl
  | ctl sw =>
    simp only [act] at hs
    split at hs
    · cases hs
    next m hp =>
      cases hs
      exact .ctl m hp sw
  | attach file =>
    cases hs
    exact .attach file
  | detach =>
    simp only [act] at hs
    split at hs
    · cases hs
    · split at hs
      · cases hs
        exact .still ⟨rfl, rfl, rfl, rfl, rfl, rfl⟩ hnone
      · cases hs
        exact .detach
  | look =>
    simp only [act] at hs
    split at hs
    · split at hs
      · cases hs
        exact .still ⟨rfl, rfl, rfl, rfl, rfl, rfl⟩ hnone
      · split at hs <;> cases hs <;> exact .still ⟨rfl, rfl, rfl, rfl, rfl, rfl⟩ hnone
    · cases hs
  | revert =>
    simp only [act] at hs
    split at hs
    · cases hs
      exact .still ⟨rfl, rfl, rfl, rfl, rfl, rfl⟩ hnone
    · cases hs
  | write ssl now file looks buf =>
    simp only [act] at hs
    split at hs
    · cases hs
    · split at hs
      · cases hs
        exact .still ⟨rfl, rfl, rfl, rfl, rfl, rfl⟩ hnone
      · cases hs
        refine .write ssl now file looks buf ?_
        intro x hx
        cases hx
        rfl
  | settle ssl cap reply payload =>
    simp only [act] at hs
    split at hs
    · cases hs
    · cases hs
      refine .still ⟨rfl, rfl, rfl, rfl, rfl, rfl⟩ ?_
      intro x hx
      cases hx
      rfl
  | drain ssl cap =>
    simp only [act] at hs
    cases hs
    refine .still ?_ ?_
    · split <;> exact ⟨rfl, rfl, rfl, rfl, rfl, rfl⟩
    · intro x hx
      cases hx
      rfl
  | observe ssl chunk =>
    cases hs
    refine .still ⟨rfl, rfl, rfl, rfl, rfl, rfl⟩ ?_
    intro x hx
    cases hx
    rfl

/-! ### Before and after the stop -/

/-- Once the daemon is known to be gone interception is off; maps are numbered as they are made. -/
structure Inv (h : Host) : Prop where
  gone : h.agent.daemon_gone_s = true → h.agent.on_s = false
  fds : ∀ m ∈ h.agent.fds, m < h.made
  pinned : ∀ m ∈ h.pinned, m < h.made

theorem write_fields (h : Host) (ssl : Nat) (now : UInt64) (file : Option (List Bytes)) (looks : Nat → Look)
    (buf : Bytes) :
    (h.write ssl now file looks buf).2.agent.fds = h.agent.fds ∧
      (h.write ssl now file looks buf).2.agent.daemon_gone_s =
        (h.agent.daemon_gone_s || (h.agent.polls now && !h.daemonAlive)) ∧
      (h.write ssl now file looks buf).2.agent.on_s =
        if h.agent.polls now then
          if !h.daemonAlive then false
          else if h.agent.daemon_gone_s then h.agent.on_s
          else (h.cfgRead.map fun sw => decide (sw.client_on ≠ 0)).getD h.agent.on_s
        else h.agent.on_s := by
  obtain ⟨e1, -, -⟩ := h.agent.refreshLocked_rest now h.daemonAlive h.cfgRead file
  obtain ⟨e2, e3⟩ := h.agent.refreshLocked_finds now h.daemonAlive h.cfgRead file
  exact ⟨e1, e2, e3⟩

theorem inv_start : Inv {} := by
  refine ⟨?_, ?_, ?_⟩
  · intro hc
    cases hc
  · intro m hm
    cases hm
  · intro m hm
    cases hm

theorem inv_act (hi : h.Inv) (hs : h.act l = some (h', d)) : h'.Inv := by
  cases does_of_act hs with
  | still same _ =>
    refine ⟨?_, ?_, ?_⟩
    · rw [same.gone, same.on_s]
      exact hi.gone
    · rw [same.fds, same.made]
      exact hi.fds
    · rw [same.pinned, same.made]
      exact hi.pinned
  | start agent pinned made sw cfg =>
    refine ⟨?_, ?_, ?_⟩
    · rw [agent]
      exact hi.gone
    · rw [agent, made]
      exact fun m hm => Nat.lt_succ_of_lt (hi.fds m hm)
    · rw [pinned, made]
      intro m hm
      cases hm
      exact Nat.lt_succ_self _
  | stop agent pinned made cfg =>
    refine ⟨?_, ?_, ?_⟩
    · rw [agent]
      exact hi.gone
    · rw [agent, made]
      exact hi.fds
    · rw [pinned]
      intro m hm
      cases hm
  | ctl m pinned sw => exact ⟨hi.gone, hi.fds, hi.pinned⟩
  | attach file =>
    cases file with
    | none => exact hi
    | some list =>
      unfold Host.attach
      dsimp only
      cases hp : h.pinned with
      | none =>
        refine ⟨hi.gone, ?_, ?_⟩
        · intro m hm
          cases hm
        · intro m hm
          cases hm
      | some m =>
        refine ⟨?_, ?_, ?_⟩
        · intro hc
          cases hc
        · intro m' hm
          exact hi.pinned m' (hp.trans hm)
        · intro m' hm
          exact hi.pinned m' (hp.trans hm)
  | detach => exact ⟨fun _ => rfl, hi.fds, hi.pinned⟩
  | write ssl now file looks buf pass =>
    obtain ⟨e1, e2, e3⟩ := h.write_fields ssl now file looks buf
    refine ⟨?_, ?_, hi.pinned⟩
    · rw [e2, e3]
      intro hg
      cases hp : h.agent.polls now with
      | false => simpa [hp] using hi.gone (by simpa [hp] using hg)
      | true =>
        cases ha : h.daemonAlive with
        | false => simp
        | true =>
          have hg : h.agent.daemon_gone_s = true := by simpa [ha] using hg
          simpa [hg] using hi.gone hg
    · rw [e1]
      exact hi.fds

/-- The daemon whose maps `m` the agent has opened is no longer there, and the agent has noticed or will
    find interception switched off. -/
structure Off (h : Host) (m : Nat) : Prop where
  on_s : h.agent.on_s = false
  fds : h.agent.fds = some m
  stopped : h.pinned ≠ some m
  made : m < h.made
  why : h.agent.daemon_gone_s = true ∨ (h.cfg m).client_on = 0

/-- With interception off nothing is held back. -/
theorem write_suppress {ssl : Nat} {now : UInt64} {file : Option (List Bytes)} {looks : Nat → Look} {buf : Bytes}
    (hon : (h.write ssl now file looks buf).2.agent.on_s = false) :
    (h.write ssl now file looks buf).1.suppress = false := by
  have hoff : (h.agent.refreshLocked now h.daemonAlive h.cfgRead file).switches.on = false := hon
  exact (Conn.handleWrite_off hoff _ looks buf).suppress

theorem act_write (h : Host) (ssl : Nat) (now : UInt64) (file : Option (List Bytes)) (looks : Nat → Look)
    {buf : Bytes} (hhook : h.agent.hooked_s = true) (hbuf : buf ≠ []) :
    ∃ d, h.act (.write ssl now file looks buf) = some ((h.write ssl now file looks buf).2, some (ssl, d)) ∧
      d.suppress = (h.write ssl now file looks buf).1.suppress := by
  simp only [act, hhook, hbuf, Bool.not_true, Bool.false_eq_true, if_false]
  exact ⟨_, rfl, rfl⟩

theorem Off.write (ho : h.Off m) (ssl : Nat) (now : UInt64) (file : Option (List Bytes)) (looks : Nat → Look)
    (buf : Bytes) : (h.write ssl now file looks buf).2.Off m := by
  obtain ⟨e1, e2, e3⟩ := h.write_fields ssl now file looks buf
  refine ⟨?_, e1.trans ho.fds, ho.stopped, ho.made, ?_⟩
  · rw [e3, ho.on_s, Host.cfgRead, ho.fds]
    rcases ho.why with hg | hc
    · simp [hg]
    · simp [hc]
  · rw [e2]
    exact ho.why.imp_left fun hg => by rw [hg, Bool.true_or]

/-- No step but `bncl_agent_init` switches interception on again. -/
theorem off_act (ho : h.Off m) (hl : l.isInit = false) (hs : h.act l = some (h', d)) :
    h'.Off m ∧ ∀ x ∈ d, x.2.suppress = false := by
  have hnone : ∀ x ∈ (none : Option (Nat × Decision)), x.2.suppress = false := fun x hx => by cases hx
  cases does_of_act hs with
  | still same pass =>
    refine ⟨⟨same.on_s.trans ho.on_s, same.fds.trans ho.fds, ?_, ?_, ?_⟩, pass⟩
    · rw [same.pinned]
      exact ho.stopped
    · rw [same.made]
      exact ho.made
    · rw [same.gone, same.cfg]
      exact ho.why
  | start agent pinned made sw cfg =>
    have hne : m ≠ h.made := Nat.ne_of_lt ho.made
    refine ⟨⟨?_, ?_, ?_, ?_, ?_⟩, hnone⟩
    · rw [agent]
      exact ho.on_s
    · rw [agent]
      exact ho.fds
    · rw [pinned]
      simpa using hne.symm
    · rw [made]
      exact Nat.lt_succ_of_lt ho.made
    · rw [agent, cfg, Function.update_of_ne hne]
      exact ho.why
  | stop agent pinned made cfg =>
    refine ⟨⟨?_, ?_, ?_, ?_, ?_⟩, hnone⟩
    · rw [agent]
      exact ho.on_s
    · rw [agent]
      exact ho.fds
    · rw [pinned]
      simp
    · rw [made]
      exact ho.made
    · rw [agent, cfg]
      exact ho.why
  | ctl m' pinned sw =>
    -- the slots written are those of another daemon's maps
    have hne : m ≠ m' := by
      rintro rfl
      exact ho.stopped pinned
    refine ⟨⟨ho.on_s, ho.fds, ho.stopped, ho.made, ?_⟩, hnone⟩
    dsimp only
    rw [Function.update_of_ne hne]
    exact ho.why
  | attach file => cases hl
  | detach => cases hl
  | write ssl now file looks buf pass =>
    have hoff := ho.write ssl now file looks buf
    refine ⟨hoff, ?_⟩
    intro x hx
    rw [pass x hx]
    exact write_suppress hoff.on_s

theorem off_run {ls : List Label} (hl : ∀ l ∈ ls, l.isInit = false) (ho : h.Off m)
    (hr : run step h ls = some h') : h'.Off m ∧ ∀ x ∈ h.decisions ls, x.2.suppress = false := by
  induction ls generalizing h with
  | nil =>
    rw [run, Option.some.injEq] at hr
    exact ⟨hr ▸ ho, fun x hx => absurd hx List.not_mem_nil⟩
  | cons l ls ih =>
    rw [run, Option.bind_eq_some_iff] at hr
    obtain ⟨t, ht, hr⟩ := hr
    rw [step, Option.map_eq_some_iff] at ht
    obtain ⟨⟨t', d⟩, ha, rfl⟩ := ht
    obtain ⟨h1, h2⟩ := off_act ho (hl l List.mem_cons_self) ha
    obtain ⟨h3, h4⟩ := ih (fun l' hl' => hl l' (List.mem_cons_of_mem _ hl')) h1 hr
    refine ⟨h3, ?_⟩
    intro x hx
    rw [decisions, ha] at hx
    rcases List.mem_append.mp hx with hx | hx
    · exact h2 x (Option.mem_toList.mp hx)
    · exact h4 x hx

end Host

/-- The daemon whose maps the agent has opened has stopped, and a write polls: interception is off from
    there on and nothing is held back until `bncl_agent_init` runs again, if and only if the agent knew
    already, or no other daemon has come up in between, or the switch was off when its own stopped. -/
theorem off_after_stop (labels : List Label) (h : Host) (hrun : run Host.step {} labels = some h) (m : Nat)
    (hfds : h.agent.fds = some m) (hstop : h.pinned ≠ some m) (ssl : Nat) (now : UInt64)
    (file : Option (List Bytes)) (looks : Nat → Look) (buf : Bytes) (hhook : h.agent.hooked_s = true)
    (hbuf : buf ≠ []) (hpoll : h.agent.polls now = true) :
    (∀ more h', (∀ l ∈ more, l.isInit = false) →
      run Host.step h (.write ssl now file looks buf :: more) = some h' →
        h'.agent.on_s = false ∧ ∀ x ∈ h.decisions (.write ssl now file looks buf :: more), x.2.suppress = false) ↔
    h.agent.daemon_gone_s = true ∨ h.pinned = none ∨ (h.cfg m).client_on = 0 := by
  have hi : h.Inv := by
    refine run_inv (I := Host.Inv) ?_ Host.inv_start hrun
    intro s l s' hs ht
    rw [Host.step, Option.map_eq_some_iff] at ht
    obtain ⟨⟨t, d⟩, ha, rfl⟩ := ht
    exact Host.inv_act hs ha
  obtain ⟨e1, e2, e3⟩ := h.write_fields ssl now file looks buf
  rw [hpoll, Host.cfgRead, hfds] at e3
  simp only [if_true, Option.map_some, Option.getD_some] at e3
  obtain ⟨d, hact, hd⟩ := h.act_write ssl now file looks hhook hbuf
  have hstep : h.step (.write ssl now file looks buf) = some (h.write ssl now file looks buf).2 := by
    rw [Host.step, hact, Option.map_some]
  constructor
  · intro hall
    obtain ⟨hon, -⟩ := hall [] (h.write ssl now file looks buf).2 (fun l hl => absurd hl List.not_mem_nil)
      (by rw [run, hstep, Option.bind_some, run])
    rw [e3] at hon
    by_contra hno
    rw [not_or, not_or] at hno
    obtain ⟨hgone, hnone, hclient⟩ := hno
    have halive : h.daemonAlive = true := Option.isSome_iff_ne_none.mpr hnone
    simp [halive, hgone, hclient] at hon
  · intro hwhy more h' hmore hr
    have hoff : (h.write ssl now file looks buf).2.Off m := by
      refine ⟨?_, e1.trans hfds, hstop, hi.fds m hfds, ?_⟩
      · rw [e3]
        rcases hwhy with hgone | hnone | hclient
        · simp [hgone, hi.gone hgone]
        · simp [Host.daemonAlive, hnone]
        · cases hg : h.agent.daemon_gone_s with
          | true => simp [hi.gone hg]
          | false => simp [hclient]
      · rw [e2, hpoll]
        rcases hwhy with hgone | hnone | hclient
        · simp [hgone]
        · simp [Host.daemonAlive, hnone]
        · exact .inr hclient
    rw [run, hstep, Option.bind_some] at hr
    obtain ⟨h1, h2⟩ := Host.off_run hmore hoff hr
    refine ⟨h1.on_s, ?_⟩
    intro x hx
    rw [Host.decisions, hact] at hx
    rcases List.mem_append.mp hx with hx | hx
    · obtain rfl : x = (ssl, d) := by simpa using hx
      rw [hd]
      exact Host.write_suppress hoff.on_s
    · exact h2 x hx

/-- A daemon stops, and the write after that polls before the next daemon starts. -/
theorem off_after_stop_sample :
    ∃ h, run Host.step {} [.start true, .attach (some [[83]]), .stop] = some h ∧
      ∀ more h', (∀ l ∈ more, l.isInit = false) →
        run Host.step h (.write 9 7 none (fun _ => ⟨true, true, true⟩) [2, 0, 0, 0, 3, 83] :: more) = some h' →
          h'.agent.on_s = false ∧
            ∀ x ∈ h.decisions (.write 9 7 none (fun _ => ⟨true, true, true⟩) [2, 0, 0, 0, 3, 83] :: more),
              x.2.suppress = false := by
  refine exists_run_of_map (fun h => (h.agent.fds, h.pinned, h.agent.hooked_s, h.agent.polls 7))
    (some 0, none, true, true) (by decide) ?_
  intro h hs e
  simp only [Prod.mk.injEq] at e
  obtain ⟨e1, e2, e3, e4⟩ := e
  refine (off_after_stop _ h hs 0 e1 ?_ 9 7 none _ _ e3 ?_ e4).mpr (.inr (.inl e2))
  · rw [e2]
    decide
  · decide

/-- The daemon has stopped and another has started since the last poll: the path is there, the slots are
    those of the old maps, and the query is held back for a daemon that is gone. -/
theorem restart_unnoticed :
    ∃ h h', run Host.step {} [.start true, .attach (some [[83]]), .stop, .start true] = some h ∧
      h.agent.fds = some 0 ∧ h.pinned ≠ some 0 ∧ h.agent.polls 7 = true ∧
      h.step (.write 9 7 none (fun _ => ⟨true, true, true⟩) [2, 0, 0, 0, 3, 83]) = some h' ∧
      h'.agent.on_s = true ∧
      (h.decisions [.write 9 7 none (fun _ => ⟨true, true, true⟩) [2, 0, 0, 0, 3, 83]]).map
        (fun x => x.2.suppress) = [true] := by
  have hrun : (run Host.step {} [.start true, .attach (some [[83]]), .stop, .start true]).map (fun h =>
      (h.agent.fds, h.pinned, h.agent.polls 7,
        (h.step (.write 9 7 none (fun _ => ⟨true, true, true⟩) [2, 0, 0, 0, 3, 83])).map fun h' => h'.agent.on_s,
        (h.decisions [.write 9 7 none (fun _ => ⟨true, true, true⟩) [2, 0, 0, 0, 3, 83]]).map
          fun x => x.2.suppress)) = some (some 0, some 1, true, some true, [true]) := by
    decide
  obtain ⟨h, hs, e⟩ := Option.map_eq_some_iff.mp hrun
  simp only [Prod.mk.injEq] at e
  obtain ⟨e1, e2, e3, e4, e5⟩ := e
  obtain ⟨h', hh, e6⟩ := Option.map_eq_some_iff.mp e4
  refine ⟨h, h', hs, e1, ?_, e3, hh, e6, e5⟩
  rw [e2]
  decide

end Barnacle.Agent
