import Barnacle.Agent.Polling
import Barnacle.Agent.Reads

/-! The hooks are taken out under a running application (`unhookAll` in `src/uclient/agent.cpp`): nothing
    new is taken on, the connections that still wait for an answer are waited for, a hundred looks at
    most, and then the entry points are put back. -/

namespace Barnacle.Agent
open Barnacle.Lib Barnacle.Mysql

/-! ### A connection at rest stays so -/

namespace Process
variable {p : Process} {c : Conn}

theorem busyConn_congr {c c' : Conn} (ha : c'.awaiting = c.awaiting)
    (ho : c'.owed = c.owed ∧ c'.owed_off = c.owed_off) : busyConn c' = busyConn c := by
  rw [busyConn, busyConn, ha, ho.1, ho.2]

theorem settle_rest (h : busyConn c = false) (cap : Nat) (reply : Option UInt8) (payload : Option Bytes) :
    (c.settle cap reply payload).conn = c := by
  simp only [busyConn, Bool.or_eq_false_iff] at h
  rw [Conn.settle, h.1]
  rfl

theorem drainLocked_rest (h : busyConn c = false) (cap : Nat) : (c.drainLocked cap).2 = c := by
  simp only [busyConn, Bool.or_eq_false_iff, decide_eq_false_iff_not, Nat.not_lt] at h
  rw [Conn.drainLocked, if_pos h.2]

theorem observe_rest (c : Conn) (chunk : Bytes) : busyConn (c.observe chunk).1 = busyConn c := by
  obtain ⟨hw, -⟩ := observe_spec c chunk
  exact busyConn_congr hw.awaiting hw.owed

/-! ### The process at rest -/

theorem connFor_rest (h : p.busy = false) (ssl : Nat) : busyConn (p.connFor ssl) = false := by
  rw [connFor]
  cases hl : p.conns_s.lookup ssl with
  | none => rfl
  | some c =>
    obtain ⟨l₁, l₂, e, -⟩ := List.lookup_eq_some_iff.mp hl
    rw [busy, List.any_eq_false] at h
    simpa using h (ssl, c) (by rw [e]; simp)

theorem setConn_rest (h : p.busy = false) {ssl : Nat} (hc : busyConn c = false) : (p.setConn ssl c).busy = false := by
  rw [busy, List.any_eq_false] at h
  rw [busy, setConn, List.any_cons, hc, Bool.false_or, List.any_eq_false]
  intro x hx
  exact h x (List.mem_of_mem_filter hx)

end Process

/-! ### Runs -/

namespace Host
variable {h h' : Host} {l : Label}

/-- While the hooks are being taken out, no poll and no attach switches interception on again. -/
def Quiet (h : Host) : Label → Prop
  | .write _ now _ _ _ => h.detach ≠ .no → h.agent.polls now = true → h.pinned = none ∨
      h.agent.daemon_gone_s = true ∨ ∀ m ∈ h.agent.fds, (h.cfg m).client_on = 0
  | .attach _ => h.detach = .no
  | _ => True

instance (h : Host) : (l : Label) → Decidable (h.Quiet l)
  | .write _ now _ _ _ => inferInstanceAs (Decidable (h.detach ≠ .no → h.agent.polls now = true → h.pinned = none ∨
      h.agent.daemon_gone_s = true ∨ ∀ m ∈ h.agent.fds, (h.cfg m).client_on = 0))
  | .attach _ => inferInstanceAs (Decidable (h.detach = .no))
  | .start _ | .stop | .ctl _ | .detach | .look | .revert | .settle .. | .drain .. | .observe .. => .isTrue trivial

/-- How far the wait may be, and what it has found. -/
def Waited (h : Host) : Detach → Prop
  | .no => True
  | .waiting i => h.agent.on_s = false ∧ i < LOOKS
  | .leaving i => h.agent.on_s = false ∧ (h.agent.busy = false ∨ i = LOOKS)

/-- A step that leaves the wait where it is keeps interception off and the process at rest. -/
theorem Waited.keep (hw : h.Waited h.detach) (hd : h'.detach = h.detach)
    (hon : h.detach ≠ .no → h.agent.on_s = false → h'.agent.on_s = false)
    (hbusy : h.agent.on_s = false → h.detach ≠ .no → h.agent.busy = false → h'.agent.busy = false) :
    h'.Waited h'.detach := by
  rw [hd]
  cases e : h.detach with
  | no => trivial
  | waiting i =>
    rw [e] at hw hon
    exact ⟨hon (by simp) hw.1, hw.2⟩
  | leaving i =>
    rw [e] at hw hon hbusy
    exact ⟨hon (by simp) hw.1, hw.2.imp_left (hbusy hw.1 (by simp))⟩

/-- With interception off a write makes no connection busy. -/
theorem write_rest {ssl : Nat} {now : UInt64} {file : Option (List Bytes)} {looks : Nat → Look} {buf : Bytes}
    (hon : (h.write ssl now file looks buf).2.agent.on_s = false) (hb : h.agent.busy = false) :
    (h.write ssl now file looks buf).2.agent.busy = false := by
  obtain ⟨-, hconns, -⟩ := h.agent.refreshLocked_rest now h.daemonAlive h.cfgRead file
  have hb : (h.agent.refreshLocked now h.daemonAlive h.cfgRead file).busy = false := by
    rw [Process.busy, hconns]
    exact hb
  have hoff : (h.agent.refreshLocked now h.daemonAlive h.cfgRead file).switches.on = false := hon
  have hp := Conn.handleWrite_off hoff
    ((h.agent.refreshLocked now h.daemonAlive h.cfgRead file).connFor ssl) looks buf
  refine Process.setConn_rest hb ?_
  rw [Process.busyConn_congr hp.awaiting hp.owed]
  exact Process.connFor_rest hb ssl

/-- A poll during the wait finds interception off. -/
theorem write_off {ssl : Nat} {now : UInt64} {file : Option (List Bytes)} {looks : Nat → Look} {buf : Bytes}
    (hq : h.Quiet (.write ssl now file looks buf)) (hd : h.detach ≠ .no) (hon : h.agent.on_s = false) :
    (h.write ssl now file looks buf).2.agent.on_s = false := by
  obtain ⟨-, -, e⟩ := h.write_fields ssl now file looks buf
  rw [e, hon]
  cases hp : h.agent.polls now with
  | false => rfl
  | true =>
    rcases hq hd hp with hnone | hgone | hclient
    · simp [daemonAlive, hnone]
    · simp [hgone]
    · cases hf : h.agent.fds with
      | none => simp [cfgRead, hf]
      | some m =>
        have := hclient m hf
        simp [cfgRead, hf, this]

theorem waited_step (hw : h.Waited h.detach) (hq : h.Quiet l) (hs : h.step l = some h') : h'.Waited h'.detach := by
  rw [step, Option.map_eq_some_iff] at hs
  obtain ⟨⟨t, d⟩, ha, rfl⟩ := hs
  cases l with
  | start local_on =>
    simp only [act] at ha
    split at ha
    · cases ha
    · cases ha
      exact hw
  | stop =>
    simp only [act] at ha
    split at ha
    · cases ha
    · cases ha
      exact hw
  | ctl sw =>
    simp only [act] at ha
    split at ha
    · cases ha
    · cases ha
      exact hw
  | attach file =>
    cases ha
    have hd : (h.attach file).detach = .no := by
      have hd : h.detach = .no := hq
      unfold attach
      split
      · exact hd
      · dsimp only
        split <;> exact hd
    dsimp only
    rw [hd]
    trivial
  | detach =>
    simp only [act] at ha
    split at ha
    · cases ha
    · split at ha
      · cases ha
        exact hw
      · cases ha
        exact ⟨rfl, by decide⟩
  | look =>
    simp only [act] at ha
    split at ha
    next i hd =>
      rw [hd] at hw
      split at ha
      next hb =>
        cases ha
        exact ⟨hw.1, .inl (by simpa using hb)⟩
      · split at ha
        next hlt =>
          cases ha
          exact ⟨hw.1, hlt⟩
        next hge =>
          cases ha
          exact ⟨hw.1, .inr (by have := hw.2; omega)⟩
    · cases ha
  | revert =>
    simp only [act] at ha
    split at ha
    · cases ha
      trivial
    · cases ha
  | write ssl now file looks buf =>
    simp only [act] at ha
    split at ha
    · cases ha
    · split at ha
      · cases ha
        exact hw
      · cases ha
        refine hw.keep rfl (fun hd hon => write_off hq hd hon) ?_
        intro hon hd hb
        exact write_rest (write_off hq hd hon) hb
  | settle ssl cap reply payload =>
    simp only [act] at ha
    split at ha
    · cases ha
    · cases ha
      refine hw.keep rfl (fun _ hon => hon) ?_
      intro _ _ hb
      have hc := Process.connFor_rest hb ssl
      refine Process.setConn_rest hb ?_
      rw [Process.settle_rest hc]
      exact hc
  | drain ssl cap =>
    simp only [act] at ha
    cases ha
    split
    · exact hw
    · refine hw.keep rfl (fun _ hon => hon) ?_
      intro _ _ hb
      have hc := Process.connFor_rest hb ssl
      refine Process.setConn_rest hb ?_
      rw [Process.drainLocked_rest hc]
      exact hc
  | observe ssl chunk =>
    cases ha
    refine hw.keep rfl (fun _ hon => hon) ?_
    intro _ _ hb
    refine Process.setConn_rest hb ?_
    rw [Process.observe_rest]
    exact Process.connFor_rest hb ssl

end Host

/-- Where the hooks are taken out, no connection waits for a verdict or is owed bytes, unless each of the
    hundred looks has found one that did; polls and attaches leaving interception off meanwhile. -/
theorem unhooked_at_rest (labels : List Label) (h h' : Host) (hrun : run Host.step {} labels = some h)
    (hquiet : Along Host.step Host.Quiet {} labels) (hrevert : h.step .revert = some h') :
    (∀ x ∈ h.agent.conns_s, x.2.awaiting = false ∧ x.2.owed.length ≤ x.2.owed_off) ∨
      h.detach = .leaving LOOKS := by
  have hw : h.Waited h.detach := run_inv_along (I := fun s => s.Waited s.detach)
    (fun _ _ _ hw hq hs => Host.waited_step hw hq hs) trivial hquiet hrun
  rw [Host.step, Option.map_eq_some_iff] at hrevert
  obtain ⟨⟨t, d⟩, ha, -⟩ := hrevert
  simp only [Host.act] at ha
  split at ha
  next i hd =>
    rw [hd] at hw
    rcases hw.2 with hb | rfl
    · left
      intro x hx
      rw [Process.busy, List.any_eq_false] at hb
      have := hb x hx
      simpa [Process.busyConn] using this
    · exact .inr hd
  · cases ha

/-- One look finds the query held back, then a read gives up on the daemon and sends it. -/
theorem unhooked_at_rest_sample :
    ∃ h h', run Host.step {} [.start true, .attach (some [[83]]),
        .write 9 7 none (fun _ => ⟨true, true, true⟩) [2, 0, 0, 0, 3, 83], .ctl ⟨0, 1, 1⟩, .detach, .look,
        .settle 9 64 none none, .look] = some h ∧ h.step .revert = some h' ∧ h.detach = .leaving 1 ∧
      ∀ x ∈ h.agent.conns_s, x.2.awaiting = false ∧ x.2.owed.length ≤ x.2.owed_off := by
  have hrun : (run Host.step {} [.start true, .attach (some [[83]]),
      .write 9 7 none (fun _ => ⟨true, true, true⟩) [2, 0, 0, 0, 3, 83], .ctl ⟨0, 1, 1⟩, .detach, .look,
      .settle 9 64 none none, .look]).map (fun h => (h.detach, (h.step .revert).isSome)) =
      some (.leaving 1, true) := by decide
  obtain ⟨h, hs, e⟩ := Option.map_eq_some_iff.mp hrun
  simp only [Prod.mk.injEq] at e
  obtain ⟨h', hr⟩ := Option.isSome_iff_exists.mp e.2
  refine ⟨h, h', hs, hr, e.1, ?_⟩
  refine (unhooked_at_rest _ h h' hs (by decide) hr).resolve_right ?_
  rw [e.1]
  decide

/-- The hooks are taken out with a query still held back. -/
def Stranded (labels : List Label) : Prop :=
  ∃ h h', run Host.step {} labels = some h ∧ h.step .revert = some h' ∧
    ¬∀ x ∈ h.agent.conns_s, x.2.awaiting = false ∧ x.2.owed.length ≤ x.2.owed_off

theorem stranded_of {labels : List Label} (hrun : (run Host.step {} labels).map (fun h =>
    ((h.step .revert).isSome, h.agent.conns_s.map fun x => x.2.awaiting)) = some (true, [true])) :
    Stranded labels := by
  obtain ⟨h, hs, e⟩ := Option.map_eq_some_iff.mp hrun
  simp only [Prod.mk.injEq] at e
  obtain ⟨h', hr⟩ := Option.isSome_iff_exists.mp e.1
  refine ⟨h, h', hs, hr, ?_⟩
  intro hall
  have hmem : true ∈ h.agent.conns_s.map fun x => x.2.awaiting := by
    rw [e.2]
    exact List.mem_cons_self
  obtain ⟨x, hx, ha⟩ := List.mem_map.mp hmem
  rw [(hall x hx).1] at ha
  cases ha

/-- The application does not read for half a second; or it writes between the last look and the end, and
    that write polls while the daemon's switch is on. -/
theorem unhooked_awaiting :
    Stranded ([.start true, .attach (some [[83]]),
      .write 9 7 none (fun _ => ⟨true, true, true⟩) [2, 0, 0, 0, 3, 83], .detach] ++ List.replicate LOOKS .look) ∧
    Stranded [.start true, .attach (some [[83]]), .detach, .look,
      .write 9 7 none (fun _ => ⟨true, true, true⟩) [2, 0, 0, 0, 3, 83]] :=
  ⟨stranded_of (by decide +kernel), stranded_of (by decide +kernel)⟩

end Barnacle.Agent
