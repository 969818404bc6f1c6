import Barnacle.Agent.Polling
import Barnacle.Daemon.Model
import Mathlib.Data.List.Sort

/-! How an edited statement list reaches the daemon and every agent (`cmd_attach_client`,
    `cmd_detach_client`, `cmd_reload_config`, `cmd_start_server` and `cmd_stop_server` in `barnacle`,
    `refreshLocked` and `bncl_agent_init` in `src/uclient/agent.cpp`, RELOAD in `src/daemon/main.cpp`).

    The daemon reads the list from the administrator's file, an agent from the same file or, where it has
    a filesystem of its own, from a copy that the tool puts there. The daemon counts its loads in the
    generation. An agent that finds a generation it does not have takes it, and then reads its file; so
    the copies have to be there before the daemon counts on.

    One command of the tool runs at a time. Its steps are taken between the polls of the agents, the
    edits of the file, and whatever happens to the daemon and to the processes. -/

namespace Barnacle.Tool
open Barnacle.Lib
open Barnacle.Agent (Cfg Process)
open Barnacle.Daemon (loadList)

/-- What the tool is doing, and for which processes still. -/
inductive Command where
  | idle
  /-- `entries` is the record to be; the first process may have its copy already -/
  | attaching (entries left : List Nat) (staged : Bool)
  | reloading (left : List Nat)
  | detaching (left : List Nat)
  deriving DecidableEq

def Command.isReloading : Command → Bool
  | .reloading _ => true
  | _ => false

structure Rollout where
  /-- the lines of every version of the list file, and the version there is -/
  contents : Nat → List Bytes := fun _ => []
  version : Nat := 0
  alive : Nat → Bool := fun _ => false
  /-- a process that sees the same filesystem as the tool -/
  shared : Nat → Bool := fun _ => false
  /-- the version a process finds in its own filesystem -/
  copies : Nat → Option Nat := fun _ => none
  up : Bool := false
  pinned : Option Nat := none
  /-- every `cfg` map ever made, and how many there are -/
  cfg : Nat → Cfg := fun _ => {}
  made : Nat := 0
  /-- the version the daemon has loaded -/
  loaded : Nat := 0
  agents : Nat → Process := fun _ => {}
  /-- the version an agent has read -/
  held : Nat → Nat := fun _ => 0
  record : List Nat := []
  tool : Command := .idle

inductive Action where
  | edit (lines : List Bytes)
  | spawn (pid : Nat) (shared : Bool)
  | exit (pid : Nat)
  -- the daemon
  | start (local_on : Bool)
  | stop
  | die
  -- `attach-client`
  | attachClient (ready : List Nat)
  | stage
  | inject (ok : Bool)
  | writeAttached
  -- `reload-config`
  | reloadConfig
  | copy (ok : Bool)
  | ask (ok : Bool)
  -- `detach-client`
  | detachClient
  | unhook (ok : Bool)
  | clearAttached
  -- an agent
  | poll (pid : Nat) (now : UInt64)

namespace Rollout

/-- The version at the path an agent has. -/
def file (s : Rollout) (pid : Nat) : Option Nat := if s.shared pid then some s.version else s.copies pid

def readAttached (s : Rollout) : List Nat := s.record.filter s.alive

/-- `stage`, where it can copy. -/
def staged (s : Rollout) (pid : Nat) : Rollout :=
  if s.shared pid then s else { s with copies := Function.update s.copies pid (some s.version) }

/-- The slots of the maps that are pinned. -/
def setCfg (s : Rollout) (f : Cfg → Cfg) : Rollout :=
  match s.pinned with
  | none => s
  | some m => { s with cfg := Function.update s.cfg m (f (s.cfg m)) }

def setAgent (s : Rollout) (pid : Nat) (a : Process) (v : Nat) : Rollout :=
  { s with agents := Function.update s.agents pid a, held := Function.update s.held pid v }

/-- `bncl_agent_init`, with version `v` of the list at its path. -/
def attached (s : Rollout) (pid v : Nat) : Process :=
  (Agent.Host.attach { agent := s.agents pid, cfg := s.cfg, made := s.made, pinned := s.pinned }
    (some (loadList (s.contents v)))).agent

/-- `refreshLocked`. -/
def polled (s : Rollout) (pid : Nat) (now : UInt64) : Process :=
  (s.agents pid).refreshLocked now s.pinned.isSome ((s.agents pid).fds.map s.cfg)
    ((s.file pid).map fun v => loadList (s.contents v))

def fresh (local_on : Bool) : Cfg := ⟨1, 1, if local_on then 1 else 0⟩

def step (s : Rollout) : Action → Option Rollout
  | .edit lines =>
    some { s with contents := Function.update s.contents (s.version + 1) lines, version := s.version + 1 }
  | .spawn pid shared =>
    if s.alive pid then none
    else some { s with alive := Function.update s.alive pid true, shared := Function.update s.shared pid shared
                       copies := Function.update s.copies pid none }
  | .exit pid =>
    some ({ s with alive := Function.update s.alive pid false }.setAgent pid {} (s.held pid))
  | .start local_on =>
    if s.up ∨ s.tool ≠ .idle then none
    else
      match s.pinned with
      -- maps are reused by name, and the slots set anew
      | some _ => some { s.setCfg fun _ => fresh local_on with up := true, loaded := s.version }
      | none => some { s with
          up := true, loaded := s.version, pinned := some s.made, made := s.made + 1
          cfg := Function.update s.cfg s.made (fresh local_on) }
  | .stop => if s.up then some { s with up := false, pinned := none } else none
  | .die => if s.up then some { s with up := false } else none
  | .attachClient ready =>
    if s.tool = .idle ∧ s.up then
      some { s.setCfg fun sw => { sw with client_on := 1 } with tool := .attaching s.readAttached ready false }
    else none
  | .stage =>
    match s.tool with
    | .attaching entries (pid :: left) false =>
      some { s.staged pid with tool := .attaching entries (pid :: left) true }
    | _ => none
  | .inject ok =>
    match s.tool with
    | .attaching entries (pid :: left) true =>
      if ok ∧ s.alive pid then
        let t := match s.file pid with
          | some v => s.setAgent pid (s.attached pid v) v
          -- there is no list at the path
          | none => s
        some { t with tool := .attaching (entries.insert pid) left false }
      else some { s with tool := .attaching entries left false }
    | _ => none
  | .writeAttached =>
    match s.tool with
    | .attaching entries [] false => some { s with record := entries.insertionSort (· ≤ ·), tool := .idle }
    | _ => none
  | .reloadConfig => if s.tool = .idle then some { s with tool := .reloading s.readAttached } else none
  | .copy ok =>
    match s.tool with
    | .reloading (pid :: left) => some { (if ok then s.staged pid else s) with tool := .reloading left }
    | _ => none
  | .ask ok =>
    match s.tool with
    | .reloading [] =>
      if s.up ∧ ok then
        some { s.setCfg fun sw => { sw with generation := sw.generation + 1 } with
          loaded := s.version, tool := .idle }
      else some { s with tool := .idle }
    | _ => none
  | .detachClient =>
    if s.tool = .idle then
      let t := if s.up then s.setCfg fun sw => { sw with client_on := 0 } else s
      some (if s.readAttached = [] then t else { t with tool := .detaching s.readAttached })
    else none
  | .unhook ok =>
    match s.tool with
    | .detaching (pid :: left) =>
      let a := s.agents pid
      let t := { s with tool := .detaching left }
      some (if ok ∧ a.hooked_s then t.setAgent pid { a with on_s := false, hooked_s := false } (s.held pid) else t)
    | _ => none
  | .clearAttached =>
    match s.tool with
    | .detaching [] => some { s with record := [], tool := .idle }
    | _ => none
  | .poll pid now =>
    if (s.agents pid).hooked_s then
      let a := s.polled pid now
      some (s.setAgent pid a (if a.gen_s = (s.agents pid).gen_s then s.held pid else (s.file pid).getD 0))
    else none

/-- The file is left alone while a reload is under way, and every copy and every detachment succeeds;
    maps that a killed daemon has left are used again only once no agent looks at them; and the
    generation does not start over. -/
def Careful (s : Rollout) : Action → Prop
  | .edit _ => s.tool.isReloading = false
  | .copy ok => ok = true
  | .unhook ok => ok = true
  | .start _ => ∀ m ∈ s.pinned, ∀ pid ∈ s.record, (s.agents pid).hooked_s = true → (s.agents pid).fds ≠ some m
  | .ask _ => ∀ m ∈ s.pinned, (s.cfg m).generation + 1 ≠ 0
  | _ => True

instance (s : Rollout) : (a : Action) → Decidable (s.Careful a)
  | .edit _ => inferInstanceAs (Decidable (_ = _))
  | .copy _ | .unhook _ => inferInstanceAs (Decidable (_ = _))
  | .start _ => inferInstanceAs (Decidable (∀ m ∈ s.pinned, ∀ pid ∈ s.record, _ → _))
  | .ask _ => inferInstanceAs (Decidable (∀ m ∈ s.pinned, _))
  | .spawn .. | .exit _ | .stop | .die | .attachClient _ | .stage | .inject _ | .writeAttached | .reloadConfig
  | .detachClient | .clearAttached | .poll .. => .isTrue trivial

/-! ### The invariant -/

/-- What holds of an agent that intercepts for the daemon's maps. -/
structure Tracks (s : Rollout) (pid m : Nat) : Prop where
  gen : (s.agents pid).gen_s ≤ (s.cfg m).generation
  held : (s.agents pid).gen_s = (s.cfg m).generation → s.loaded ≤ s.held pid
  known : s.held pid ≤ s.version
  list : (s.agents pid).list_s = loadList (s.contents (s.held pid))
  file : ∃ v, s.file pid = some v ∧ s.loaded ≤ v

/-- Where the tool will find a process that has been attached. -/
def Listed (s : Rollout) (pid : Nat) : Prop :=
  match s.tool with
  | .idle | .reloading _ => pid ∈ s.record
  | .attaching entries _ _ => pid ∈ entries
  | .detaching left => pid ∈ left

/-- The copies that have been made for the command under way. -/
def Ready (s : Rollout) : Prop :=
  match s.tool with
  | .reloading left => ∀ pid m, (s.agents pid).hooked_s = true → s.pinned = some m → (s.agents pid).fds = some m →
      pid ∈ left ∨ s.file pid = some s.version
  | .attaching _ (pid :: _) true => ∀ v, s.file pid = some v → s.loaded ≤ v
  | _ => True

structure Inv (s : Rollout) : Prop where
  made : ∀ m, s.pinned = some m → m < s.made
  fds : ∀ pid m, (s.agents pid).fds = some m → m < s.made
  loaded : s.loaded ≤ s.version
  copied : ∀ pid v, s.copies pid = some v → v ≤ s.version
  listed : ∀ pid, (s.agents pid).hooked_s = true → s.alive pid = true ∧ s.Listed pid
  tracks : ∀ pid m, (s.agents pid).hooked_s = true → s.pinned = some m → (s.agents pid).fds = some m →
    s.Tracks pid m
  ready : s.Ready

theorem inv_start : ({} : Rollout).Inv where
  made := by simp
  fds := by simp
  loaded := Nat.le_refl _
  copied := by simp
  listed := by simp
  tracks := by simp
  ready := trivial

section
variable {s s' : Rollout} {pid v : Nat}

theorem Inv.file_le (h : s.Inv) (hv : s.file pid = some v) : v ≤ s.version := by
  rw [file] at hv
  split at hv
  · cases hv
    exact Nat.le_refl _
  · exact h.copied pid v hv

theorem Inv.mem_readAttached (h : s.Inv) (ht : s.tool = .idle ∨ s.tool.isReloading = true)
    (hh : (s.agents pid).hooked_s = true) : pid ∈ s.readAttached := by
  obtain ⟨halive, hl⟩ := h.listed pid hh
  refine List.mem_filter.mpr ⟨?_, halive⟩
  rcases ht with ht | ht
  · rwa [Listed, ht] at hl
  · cases htool : s.tool <;> simp_all [Listed, Command.isReloading]

end

/-! ### Parts of a step -/

section
variable {s s' : Rollout} {pid m v : Nat}

theorem Tracks.congr (h : s.Tracks pid m) (ha : s'.agents pid = s.agents pid) (hh : s'.held pid = s.held pid)
    (hg : (s'.cfg m).generation = (s.cfg m).generation) (hl : s'.loaded = s.loaded)
    (hv : s'.version = s.version) (hc : s'.contents = s.contents) (hf : s'.file pid = s.file pid) :
    s'.Tracks pid m := by
  refine ⟨?_, ?_, ?_, ?_, ?_⟩
  · rw [ha, hg]
    exact h.gen
  · rw [ha, hg, hl, hh]
    exact h.held
  · rw [hh, hv]
    exact h.known
  · rw [ha, hc, hh]
    exact h.list
  · rw [hf, hl]
    exact h.file

/-- The tool goes on to something else. -/
theorem Inv.goto (h : s.Inv) {t : Command}
    (hl : ∀ pid, (s.agents pid).hooked_s = true → ({ s with tool := t } : Rollout).Listed pid)
    (hr : ({ s with tool := t } : Rollout).Ready) : ({ s with tool := t } : Rollout).Inv :=
  { h with
    listed := fun pid hh => ⟨(h.listed pid hh).1, hl pid hh⟩
    tracks := fun pid m hh hp hf => (h.tracks pid m hh hp hf).congr rfl rfl rfl rfl rfl rfl rfl
    ready := hr }

/-- What a copy leaves alone. -/
theorem staged_rest (s : Rollout) (pid : Nat) : (s.staged pid).agents = s.agents ∧
    (s.staged pid).pinned = s.pinned ∧ (s.staged pid).version = s.version ∧ (s.staged pid).loaded = s.loaded ∧
      (s.staged pid).record = s.record := by
  rw [Rollout.staged]
  split <;> exact ⟨rfl, rfl, rfl, rfl, rfl⟩

@[simp] theorem setCfg_agents (s : Rollout) (f : Cfg → Cfg) : (s.setCfg f).agents = s.agents := by
  rw [Rollout.setCfg]
  split <;> rfl

/-- A switch that is no generation. -/
theorem Inv.setCfg (h : s.Inv) {f : Cfg → Cfg} (hf : ∀ sw, (f sw).generation = sw.generation) :
    (s.setCfg f).Inv := by
  rw [Rollout.setCfg]
  split
  · exact h
  next m hm =>
    refine { h with tracks := ?_, ready := h.ready }
    intro pid m' hh hp hfd
    refine (h.tracks pid m' hh hp hfd).congr rfl rfl ?_ rfl rfl rfl rfl
    by_cases he : m' = m
    · simp [he, hf]
    · simp [Function.update_of_ne he]

theorem file_staged (s : Rollout) (pid : Nat) : (s.staged pid).file pid = some s.version := by
  by_cases hs : s.shared pid = true
  · simp [staged, file, hs]
  · simp [staged, file, hs]

theorem file_staged_of_ne (s : Rollout) {pid q : Nat} (h : q ≠ pid) : (s.staged pid).file q = s.file q := by
  by_cases hs : s.shared pid = true
  · simp [staged, file, hs]
  · simp [staged, file, hs, h]

/-- A copy of what there is. -/
theorem Inv.staged (h : s.Inv) (pid : Nat) : (s.staged pid).Inv := by
  have hself := file_staged s pid
  have hother := fun q (hq : q ≠ pid) => file_staged_of_ne s hq
  by_cases hs : s.shared pid = true
  · rw [Rollout.staged, if_pos hs]
    exact h
  rw [Rollout.staged, if_neg hs] at hself hother ⊢
  refine { h with copied := ?_, tracks := ?_, ready := ?_ }
  · intro q v hv
    by_cases he : q = pid
    · have hv' : s.version = v := by simpa [he] using hv
      exact hv'.ge
    · exact h.copied q v (by simpa [Function.update_of_ne he] using hv)
  · intro q m hq hp hf
    have ht := h.tracks q m hq hp hf
    by_cases he : q = pid
    · exact { ht with file := ⟨s.version, he ▸ hself, h.loaded⟩ }
    · exact ht.congr rfl rfl rfl rfl rfl rfl (hother q he)
  · have hready := h.ready
    cases htool : s.tool with
    | idle | detaching left => trivial
    | reloading left =>
      simp only [Ready, htool] at hready ⊢
      intro q m hq hp hf
      by_cases he : q = pid
      · exact .inr (he ▸ hself)
      · exact (hready q m hq hp hf).imp_right (hother q he).trans
    | attaching entries left st =>
      rcases left with _ | ⟨q, left⟩
      · trivial
      cases st with
      | false => trivial
      | true =>
        simp only [Ready, htool] at hready ⊢
        intro v hv
        by_cases he : q = pid
        · rw [he] at hv
          exact h.loaded.trans (Option.some.inj (hself.symm.trans hv)).le
        · exact hready v ((hother q he).symm.trans hv)

/-- The copies are none of the agent's doing. -/
theorem Inv.ready_setAgent (h : s.Inv) {a : Process}
    (ha : a.hooked_s = true → (s.agents pid).hooked_s = true ∧ a.fds = (s.agents pid).fds) :
    (s.setAgent pid a v).Ready := by
  have hready := h.ready
  cases htool : s.tool with
  | idle | detaching left => simp [Ready, Rollout.setAgent, htool]
  | reloading left =>
    simp only [Ready, Rollout.setAgent, htool] at hready ⊢
    intro q m hq hp hf
    by_cases he : q = pid
    · rw [he, Function.update_self] at hq hf
      obtain ⟨hh, efds⟩ := ha hq
      rw [he]
      exact hready pid m hh hp (efds ▸ hf)
    · rw [Function.update_of_ne he] at hq hf
      exact hready q m hq hp hf
  | attaching entries left st =>
    rcases left with _ | ⟨q, left⟩
    · simp [Ready, Rollout.setAgent, htool]
    cases st with
    | false => simp [Ready, Rollout.setAgent, htool]
    | true =>
      simp only [Ready, Rollout.setAgent, htool] at hready ⊢
      exact hready

/-- An agent changes, and what it has read. -/
theorem Inv.setAgent (h : s.Inv) {a : Process} (hfds : ∀ m, a.fds = some m → m < s.made)
    (hl : a.hooked_s = true → s.alive pid = true ∧ s.Listed pid)
    (ht : ∀ m, a.hooked_s = true → s.pinned = some m → a.fds = some m → (s.setAgent pid a v).Tracks pid m)
    (hr : (s.setAgent pid a v).Ready) : (s.setAgent pid a v).Inv := by
  refine { h with fds := ?_, listed := ?_, tracks := ?_, ready := hr }
  · intro q m hq
    by_cases he : q = pid
    · exact hfds m (by simpa [Rollout.setAgent, he] using hq)
    · exact h.fds q m (by simpa [Rollout.setAgent, Function.update_of_ne he] using hq)
  · intro q hq
    by_cases he : q = pid
    · rw [he]
      exact hl (by simpa [Rollout.setAgent, he] using hq)
    · exact h.listed q (by simpa [Rollout.setAgent, Function.update_of_ne he] using hq)
  · intro q m hq hp hf
    by_cases he : q = pid
    · rw [he] at hq hf ⊢
      exact ht m (by simpa [Rollout.setAgent] using hq) hp (by simpa [Rollout.setAgent] using hf)
    · refine (h.tracks q m ?_ hp ?_).congr ?_ ?_ rfl rfl rfl rfl rfl
      · simpa [Rollout.setAgent, Function.update_of_ne he] using hq
      · simpa [Rollout.setAgent, Function.update_of_ne he] using hf
      · simp [Rollout.setAgent, Function.update_of_ne he]
      · simp [Rollout.setAgent, Function.update_of_ne he]

/-- An agent that no longer intercepts. -/
theorem Inv.leave (h : s.Inv) {a : Process} (ha : a.hooked_s = false)
    (hfds : ∀ m, a.fds = some m → (s.agents pid).fds = some m) : (s.setAgent pid a v).Inv := by
  have hno : a.hooked_s ≠ true := by simp [ha]
  exact h.setAgent (fun m hm => h.fds pid m (hfds m hm)) (fun hh => absurd hh hno) (fun m hh => absurd hh hno)
    (h.ready_setAgent fun hh => absurd hh hno)

theorem hooked_of_leave {a : Process} (ha : a.hooked_s = false) {q : Nat}
    (hq : ((s.setAgent pid a v).agents q).hooked_s = true) : q ≠ pid ∧ (s.agents q).hooked_s = true := by
  have he : q ≠ pid := by
    rintro rfl
    simp [Rollout.setAgent, ha] at hq
  exact ⟨he, by simpa [Rollout.setAgent, Function.update_of_ne he] using hq⟩

end

/-! ### The agents -/

section
variable {s : Rollout} {pid m v : Nat}

/-- An agent that is attached starts out with the list it has read. -/
theorem Inv.attach (h : s.Inv) (hv : s.file pid = some v) (hle : s.loaded ≤ v) (halive : s.alive pid = true)
    (hl : s.Listed pid) (hr : ∀ a, (s.setAgent pid a v).Ready) : (s.setAgent pid (s.attached pid v) v).Inv := by
  have hself : (s.setAgent pid (s.attached pid v) v).agents pid = s.attached pid v := by simp [Rollout.setAgent]
  have hheld : (s.setAgent pid (s.attached pid v) v).held pid = v := by simp [Rollout.setAgent]
  refine h.setAgent ?_ (fun _ => ⟨halive, hl⟩) ?_ (hr _)
  · intro m hm
    refine h.made m ?_
    cases hp : s.pinned with
    | none => simp [attached, Agent.Host.attach, hp] at hm
    | some m' => simpa [attached, Agent.Host.attach, hp] using hm
  · intro m _ hp _
    have he : (s.attached pid v).gen_s = (s.cfg m).generation ∧
        (s.attached pid v).list_s = loadList (s.contents v) := by
      simp [attached, Agent.Host.attach, hp]
    refine ⟨?_, fun _ => ?_, ?_, ?_, v, hv, hle⟩
    · rw [hself, he.1]
      exact UInt32.le_refl _
    · rw [hheld]
      exact hle
    · rw [hheld]
      exact h.file_le hv
    · rw [hself, hheld]
      exact he.2

/-- A poll of an agent that looks at the daemon's maps: nothing new, or a new generation, and then a
    list. -/
theorem polled_cases (hp : s.pinned = some m) (hf : (s.agents pid).fds = some m) (hv : s.file pid = some v)
    (now : UInt64) :
    (s.polled pid now).gen_s = (s.agents pid).gen_s ∧ (s.polled pid now).list_s = (s.agents pid).list_s ∨
      (s.polled pid now).gen_s = (s.cfg m).generation ∧ (s.polled pid now).gen_s ≠ (s.agents pid).gen_s ∧
        (s.polled pid now).list_s = loadList (s.contents v) := by
  simp only [polled, hp, hf, hv, Process.refreshLocked, Option.isSome_some, Option.map_some, Bool.not_true,
    Bool.false_eq_true, if_false]
  split
  · exact .inl ⟨rfl, rfl⟩
  split
  · exact .inl ⟨rfl, rfl⟩
  split
  · exact .inl ⟨rfl, rfl⟩
  next hne => exact .inr ⟨rfl, hne, rfl⟩

theorem polled_rest (s : Rollout) (pid : Nat) (now : UInt64) : (s.polled pid now).fds = (s.agents pid).fds ∧
    (s.polled pid now).hooked_s = (s.agents pid).hooked_s :=
  ⟨(Process.refreshLocked_rest ..).1, (Process.refreshLocked_rest ..).2.2⟩

theorem Inv.poll (h : s.Inv) (now : UInt64) (hh : (s.agents pid).hooked_s = true) :
    (s.setAgent pid (s.polled pid now) (if (s.polled pid now).gen_s = (s.agents pid).gen_s then s.held pid
      else (s.file pid).getD 0)).Inv := by
  obtain ⟨efds, ehooked⟩ := polled_rest s pid now
  refine h.setAgent ?_ (fun _ => h.listed pid hh) ?_ ?_
  · rw [efds]
    exact h.fds pid
  · intro m _ hp hf
    rw [efds] at hf
    have ht := h.tracks pid m hh hp hf
    obtain ⟨v, hv, hle⟩ := ht.file
    rcases polled_cases hp hf hv now with ⟨e1, e2⟩ | ⟨e1, e2, e3⟩
    · rw [if_pos e1]
      refine ⟨?_, ?_, ?_, ?_, v, hv, hle⟩
      · simpa [Rollout.setAgent, e1] using ht.gen
      · simpa [Rollout.setAgent, e1] using ht.held
      · simpa [Rollout.setAgent] using ht.known
      · simpa [Rollout.setAgent, e2] using ht.list
    · rw [if_neg e2, hv]
      refine ⟨?_, ?_, ?_, ?_, v, hv, hle⟩
      · simp [Rollout.setAgent, e1]
      · simpa [Rollout.setAgent] using fun _ => hle
      · simpa [Rollout.setAgent] using h.file_le hv
      · simp [Rollout.setAgent, e3]
  · exact h.ready_setAgent fun _ => ⟨hh, efds⟩

/-- The daemon has loaded what there is, and counts on. -/
theorem Inv.loads (h : s.Inv) (hgen : ∀ m ∈ s.pinned, (s.cfg m).generation + 1 ≠ 0)
    (hcopies : ∀ pid m, (s.agents pid).hooked_s = true → s.pinned = some m → (s.agents pid).fds = some m →
      s.file pid = some s.version) (hl : ∀ pid, (s.agents pid).hooked_s = true → pid ∈ s.record) :
    ({ s.setCfg fun sw => { sw with generation := sw.generation + 1 } with
      loaded := s.version, tool := .idle } : Rollout).Inv := by
  rw [Rollout.setCfg]
  split
  next hp =>
    exact { h with
      loaded := Nat.le_refl _
      listed := fun pid hh => ⟨(h.listed pid hh).1, hl pid hh⟩
      tracks := fun pid m _ hm _ => by
        rw [hp] at hm
        cases hm
      ready := trivial }
  next m hp =>
    refine { h with
      loaded := Nat.le_refl _
      listed := fun pid hh => ⟨(h.listed pid hh).1, hl pid hh⟩
      tracks := ?_
      ready := trivial }
    intro pid m' hh hp' hf
    have hm : m' = m := Option.some.inj (hp'.symm.trans hp)
    rw [hm] at hf
    have ht := h.tracks pid m hh hp hf
    have hne := hgen m hp
    -- nobody has the next generation yet
    have hlt : (s.agents pid).gen_s < (s.cfg m).generation + 1 := by
      have hle := ht.gen
      rw [UInt32.le_iff_toNat_le] at hle
      rw [UInt32.lt_iff_toNat_lt, UInt32.toNat_add]
      have hne' : ((s.cfg m).generation + 1).toNat ≠ 0 := fun e => hne (UInt32.toNat_inj.mp e)
      rw [UInt32.toNat_add] at hne'
      have hbound := (s.cfg m).generation.toNat_lt
      simp only [UInt32.toNat_one] at hne' ⊢
      omega
    refine ⟨?_, ?_, ht.known, ht.list, s.version, hcopies pid m hh hp hf, Nat.le_refl _⟩
    · simp only [hm, Function.update_self]
      exact UInt32.le_of_lt hlt
    · simp only [hm, Function.update_self]
      intro e
      rw [e] at hlt
      exact absurd hlt (UInt32.lt_irrefl _)

end

/-! ### The world -/

section
variable {s : Rollout}

theorem Inv.edit (h : s.Inv) (hr : s.tool.isReloading = false) (lines : List Bytes) :
    ({ s with contents := Function.update s.contents (s.version + 1) lines
              version := s.version + 1 } : Rollout).Inv := by
  refine { h with loaded := Nat.le_succ_of_le h.loaded, copied := ?_, tracks := ?_, ready := ?_ }
  · exact fun pid v hv => Nat.le_succ_of_le (h.copied pid v hv)
  · intro pid m hh hp hf
    have ht := h.tracks pid m hh hp hf
    have hne : s.held pid ≠ s.version + 1 := by
      have := ht.known
      omega
    refine { ht with known := Nat.le_succ_of_le ht.known, list := ?_, file := ?_ }
    · simpa [Function.update_of_ne hne] using ht.list
    · obtain ⟨v, hv, hle⟩ := ht.file
      simp only [file] at hv ⊢
      split at hv
      next hs => exact ⟨s.version + 1, by rw [if_pos hs], Nat.le_succ_of_le h.loaded⟩
      next hs => exact ⟨v, by rw [if_neg hs]; exact hv, hle⟩
  · have hready := h.ready
    cases htool : s.tool with
    | idle | detaching left => trivial
    | reloading left =>
      rw [htool] at hr
      cases hr
    | attaching entries left st =>
      rcases left with _ | ⟨q, left⟩
      · trivial
      cases st with
      | false => trivial
      | true =>
        simp only [Ready, htool, file] at hready ⊢
        intro v hv
        split at hv
        · cases hv
          exact Nat.le_succ_of_le h.loaded
        next hs => exact hready v (by rw [if_neg hs]; exact hv)

/-- A process that was not there has no agent in it. -/
theorem Inv.spawn (h : s.Inv) {pid : Nat} (hdead : s.alive pid = false) (shared : Bool) :
    ({ s with alive := Function.update s.alive pid true, shared := Function.update s.shared pid shared
              copies := Function.update s.copies pid none } : Rollout).Inv := by
  have hne : ∀ q, (s.agents q).hooked_s = true → q ≠ pid := by
    rintro q hq rfl
    rw [(h.listed q hq).1] at hdead
    cases hdead
  have hfile : ∀ q, q ≠ pid → Rollout.file { s with
      alive := Function.update s.alive pid true, shared := Function.update s.shared pid shared
      copies := Function.update s.copies pid none } q = s.file q := by
    intro q hq
    simp [file, Function.update_of_ne hq]
  refine { h with copied := ?_, listed := ?_, tracks := ?_, ready := ?_ }
  · intro q v hv
    by_cases he : q = pid
    · simp [he] at hv
    · exact h.copied q v (by simpa [Function.update_of_ne he] using hv)
  · intro q hq
    refine ⟨?_, (h.listed q hq).2⟩
    simpa [Function.update_of_ne (hne q hq)] using (h.listed q hq).1
  · intro q m hq hp hf
    exact (h.tracks q m hq hp hf).congr rfl rfl rfl rfl rfl rfl (hfile q (hne q hq))
  · have hready := h.ready
    cases htool : s.tool with
    | idle | detaching left => trivial
    | reloading left =>
      simp only [Ready, htool] at hready ⊢
      intro q m hq hp hf
      exact (hready q m hq hp hf).imp_right (hfile q (hne q hq)).trans
    | attaching entries left st =>
      rcases left with _ | ⟨q, left⟩
      · trivial
      cases st with
      | false => trivial
      | true =>
        simp only [Ready, htool] at hready ⊢
        intro v hv
        by_cases he : q = pid
        · simp only [file, he, Function.update_self] at hv
          split at hv
          · cases hv
            exact h.loaded
          · cases hv
        · exact hready v ((hfile q he).symm.trans hv)

theorem Inv.exit (h : s.Inv) (pid : Nat) :
    ({ s with alive := Function.update s.alive pid false }.setAgent pid {} (s.held pid)).Inv := by
  have hleft : (s.setAgent pid {} (s.held pid)).Inv := h.leave rfl fun _ hm => by cases hm
  refine { hleft with listed := ?_, tracks := ?_, ready := hleft.ready }
  · intro q hq
    obtain ⟨he, -⟩ := hooked_of_leave (s := s) (v := s.held pid) rfl hq
    obtain ⟨halive, hl⟩ := hleft.listed q hq
    exact ⟨by simpa [Rollout.setAgent, Function.update_of_ne he] using halive, hl⟩
  · intro q m hq hp hf
    exact (hleft.tracks q m hq hp hf).congr rfl rfl rfl rfl rfl rfl rfl

/-- A daemon that starts has maps that no agent looks at. -/
theorem Inv.start (h : s.Inv) (ht : s.tool = .idle) (cfg : Nat → Cfg) {m made : Nat}
    (hm : m < made) (hmade : s.made ≤ made)
    (hfree : ∀ pid, (s.agents pid).hooked_s = true → (s.agents pid).fds ≠ some m) :
    ({ s with up := true, loaded := s.version, pinned := some m, made := made, cfg := cfg } : Rollout).Inv :=
  { h with
    made := fun m' e => Option.some.inj e ▸ hm
    fds := fun pid m' e => Nat.lt_of_lt_of_le (h.fds pid m' e) hmade
    loaded := Nat.le_refl _
    tracks := fun pid m' hh e hf => absurd (hf.trans e.symm) (hfree pid hh)
    ready := by simp [Ready, ht] }

theorem Inv.stop (h : s.Inv) : ({ s with up := false, pinned := none } : Rollout).Inv := by
  refine { h with made := ?_, tracks := ?_, ready := ?_ }
  · intro m hm
    cases hm
  · intro pid m _ hm
    cases hm
  · have hready := h.ready
    cases htool : s.tool with
    | idle | detaching left => trivial
    | reloading left =>
      intro pid m _ hm
      cases hm
    | attaching entries left st =>
      rcases left with _ | ⟨q, left⟩
      · trivial
      cases st with
      | false => trivial
      | true =>
        simp only [Ready, htool] at hready ⊢
        exact hready

/-! ### Steps -/

variable {s' : Rollout}

/-- Who has hooks in it is among those the command under way will look at. -/
theorem Inv.reached (h : s.Inv) {t : Command} (ht : s.tool = t) (pid : Nat) (hh : (s.agents pid).hooked_s = true) :
    Listed { s with tool := t } pid := by
  subst ht
  exact (h.listed pid hh).2

theorem step_start {local_on : Bool} (h : s.Inv) (hc : s.Careful (.start local_on))
    (hs : s.step (.start local_on) = some s') : s'.Inv := by
  rw [Rollout.step] at hs
  split at hs
  · cases hs
  next hidle =>
    have ht : s.tool = .idle := by
      by_contra hne
      exact hidle (.inr hne)
    cases hp : s.pinned with
    | none =>
      rw [hp] at hs
      cases hs
      refine h.start ht _ (Nat.lt_succ_self _) (Nat.le_succ _) fun pid _ hf => ?_
      exact absurd (h.fds pid _ hf) (Nat.lt_irrefl _)
    | some m =>
      rw [hp] at hs
      cases hs
      simp only [Rollout.setCfg, hp]
      have hfree : ∀ pid, (s.agents pid).hooked_s = true → (s.agents pid).fds ≠ some m :=
        fun pid hh => hc m hp pid (h.reached ht pid hh) hh
      rw [← hp]
      exact hp ▸ h.start ht (Function.update s.cfg m (fresh local_on)) (h.made m hp) (Nat.le_refl _) hfree

theorem step_stage (h : s.Inv) (hs : s.step .stage = some s') : s'.Inv := by
  rw [Rollout.step] at hs
  split at hs
  next entries pid left ht =>
    cases hs
    obtain ⟨eagents, -, -, eloaded, -⟩ := staged_rest s pid
    refine (h.staged pid).goto (fun q hq => ?_) ?_
    · rw [eagents] at hq
      exact h.reached ht q hq
    · intro v hv
      have he : s.version = v := Option.some.inj ((file_staged s pid).symm.trans hv)
      show (s.staged pid).loaded ≤ v
      rw [eloaded, ← he]
      exact h.loaded
  · cases hs

/-- An agent is attached with the list that `stage` has left at its path. -/
theorem step_inject {ok : Bool} (h : s.Inv) (hs : s.step (.inject ok) = some s') : s'.Inv := by
  rw [Rollout.step] at hs
  split at hs
  next entries pid left ht =>
    have hentries : ∀ q, (s.agents q).hooked_s = true → q ∈ entries := h.reached ht
    have hgo : ∀ l, ({ s with tool := .attaching (entries.insert pid) l false } : Rollout).Inv := by
      intro l
      refine h.goto (fun q hq => List.mem_insert_of_mem (hentries q hq)) ?_
      cases l <;> trivial
    split at hs
    next hok =>
      cases hs
      cases hv : s.file pid with
      | none => exact hgo left
      | some v =>
        have hready := h.ready
        rw [Ready, ht] at hready
        refine (hgo left).attach hv (hready v hv) hok.2 List.mem_insert_self fun a => ?_
        cases left <;> trivial
    · cases hs
      refine h.goto hentries ?_
      cases left <;> trivial
  · cases hs

/-- The record is written: everyone with hooks in it is there. -/
theorem Inv.recorded (h : s.Inv) {record : List Nat} (hrec : ∀ pid, (s.agents pid).hooked_s = true → pid ∈ record) :
    ({ s with record := record, tool := .idle } : Rollout).Inv :=
  { h with
    listed := fun pid hh => ⟨(h.listed pid hh).1, hrec pid hh⟩
    tracks := fun pid m hh hp hf => (h.tracks pid m hh hp hf).congr rfl rfl rfl rfl rfl rfl rfl
    ready := trivial }

/-- One copy more is in place, and none has been lost. -/
theorem step_copy (h : s.Inv) (hs : s.step (.copy true) = some s') : s'.Inv := by
  rw [Rollout.step] at hs
  split at hs
  next pid left ht =>
    cases hs
    obtain ⟨eagents, epinned, eversion, -, erecord⟩ := staged_rest s pid
    refine (h.staged pid).goto (fun q hq => ?_) ?_
    · rw [eagents] at hq
      show q ∈ (s.staged pid).record
      rw [erecord]
      exact h.reached ht q hq
    · intro q m hq hp hf
      replace hq : ((s.staged pid).agents q).hooked_s = true := hq
      replace hp : (s.staged pid).pinned = some m := hp
      replace hf : ((s.staged pid).agents q).fds = some m := hf
      show q ∈ left ∨ (s.staged pid).file q = some (s.staged pid).version
      rw [eagents] at hq hf
      rw [epinned] at hp
      rw [eversion]
      have hready := h.ready
      rw [Ready, ht] at hready
      by_cases he : q = pid
      · exact .inr (he ▸ file_staged s pid)
      · rw [file_staged_of_ne s he]
        exact (hready q m hq hp hf).imp_left fun hm => (List.mem_cons.mp hm).resolve_left he
  · cases hs

/-- The daemon reads the file when every copy is in place. -/
theorem step_ask {ok : Bool} (h : s.Inv) (hc : s.Careful (.ask ok)) (hs : s.step (.ask ok) = some s') : s'.Inv := by
  rw [Rollout.step] at hs
  split at hs
  next ht =>
    have hrecord : ∀ pid, (s.agents pid).hooked_s = true → pid ∈ s.record := h.reached ht
    split at hs
    · cases hs
      refine h.loads hc (fun pid m hh hp hf => ?_) hrecord
      have hready := h.ready
      rw [Ready, ht] at hready
      exact (hready pid m hh hp hf).resolve_left List.not_mem_nil
    · cases hs
      exact h.goto hrecord trivial
  · cases hs

theorem step_detachClient (h : s.Inv) (hs : s.step .detachClient = some s') : s'.Inv := by
  obtain ⟨ht, hs⟩ := Option.ite_none_right_eq_some.mp hs
  cases hs
  have hoff : (if s.up then s.setCfg fun sw => { sw with client_on := 0 } else s).Inv := by
    split
    · exact h.setCfg fun _ => rfl
    · exact h
  have hagents : (if s.up then s.setCfg fun sw => { sw with client_on := 0 } else s).agents = s.agents := by
    split <;> simp
  split
  · exact hoff
  · refine hoff.goto (fun pid hh => ?_) trivial
    rw [hagents] at hh
    exact h.mem_readAttached (.inl ht) hh

/-- Whoever is taken off the list of those left has no hooks any more. -/
theorem step_unhook (h : s.Inv) (hs : s.step (.unhook true) = some s') : s'.Inv := by
  rw [Rollout.step] at hs
  split at hs
  next pid left ht =>
    cases hs
    have hleft : ∀ q, (s.agents q).hooked_s = true → q = pid ∨ q ∈ left :=
      fun q hq => List.mem_cons.mp (h.reached ht q hq)
    split
    next hok =>
      have hoff : (s.setAgent pid { s.agents pid with on_s := false, hooked_s := false } (s.held pid)).Inv :=
        h.leave rfl fun _ hm => hm
      refine hoff.goto (fun q hq => ?_) trivial
      obtain ⟨he, hq'⟩ := hooked_of_leave (s := s) (v := s.held pid) rfl hq
      exact (hleft q hq').resolve_left he
    next hok =>
      refine h.goto (fun q hq => ?_) trivial
      refine (hleft q hq).resolve_left ?_
      rintro rfl
      exact hok ⟨rfl, hq⟩
  · cases hs

theorem Inv.step {a : Action} (h : s.Inv) (hc : s.Careful a) (hs : s.step a = some s') : s'.Inv := by
  cases a with
  | edit lines =>
    cases hs
    exact h.edit hc lines
  | spawn pid shared =>
    rw [Rollout.step] at hs
    split at hs
    · cases hs
    next hdead =>
      cases hs
      exact h.spawn (by simpa using hdead) shared
  | exit pid =>
    cases hs
    exact h.exit pid
  | start local_on => exact step_start h hc hs
  | stop =>
    obtain ⟨-, hs⟩ := Option.ite_none_right_eq_some.mp hs
    cases hs
    exact h.stop
  | die =>
    obtain ⟨-, hs⟩ := Option.ite_none_right_eq_some.mp hs
    cases hs
    exact { h with tracks := fun pid m hh hp hf => (h.tracks pid m hh hp hf).congr rfl rfl rfl rfl rfl rfl rfl }
  | attachClient ready =>
    obtain ⟨⟨ht, -⟩, hs⟩ := Option.ite_none_right_eq_some.mp hs
    cases hs
    refine (h.setCfg (f := fun sw => { sw with client_on := 1 }) fun _ => rfl).goto (fun pid hh => ?_) ?_
    · rw [setCfg_agents] at hh
      exact h.mem_readAttached (.inl ht) hh
    · cases ready <;> trivial
  | stage => exact step_stage h hs
  | inject ok => exact step_inject h hs
  | writeAttached =>
    rw [Rollout.step] at hs
    split at hs
    next entries ht =>
      cases hs
      exact h.recorded fun pid hh => (List.mem_insertionSort _).mpr (h.reached ht pid hh)
    · cases hs
  | reloadConfig =>
    obtain ⟨ht, hs⟩ := Option.ite_none_right_eq_some.mp hs
    cases hs
    have hrecord : ∀ pid, (s.agents pid).hooked_s = true → pid ∈ s.record := h.reached ht
    exact h.goto hrecord fun pid m hh _ _ => .inl (h.mem_readAttached (.inl ht) hh)
  | copy ok =>
    obtain rfl : ok = true := hc
    exact step_copy h hs
  | ask ok => exact step_ask h hc hs
  | detachClient => exact step_detachClient h hs
  | unhook ok =>
    obtain rfl : ok = true := hc
    exact step_unhook h hs
  | clearAttached =>
    rw [Rollout.step] at hs
    split at hs
    next ht =>
      cases hs
      exact h.recorded (h.reached ht)
    · cases hs
  | poll pid now =>
    obtain ⟨hh, hs⟩ := Option.ite_none_right_eq_some.mp hs
    cases hs
    exact h.poll now hh

end

/-! ### Whole runs -/

/-- A daemon that is killed leaves its maps to the next one, which starts to count at the same number: an
    agent that has seen no reload keeps the old list. -/
example : (run Rollout.step {} [.edit [[65]], .start true, .spawn 7 false, .attachClient [7], .stage, .inject true,
    .writeAttached, .edit [[66]], .die, .start true, .poll 7 0]).map (fun s => (s.pinned, (s.agents 7).fds,
      decide ((s.agents 7).gen_s = (s.cfg 0).generation), s.loaded, s.held 7)) = some (some 0, some 0, true, 2, 1) := by
  decide +kernel

end Rollout

end Barnacle.Tool
