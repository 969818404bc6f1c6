import Barnacle.Agent.Session
import Barnacle.Mysql.Numbering

/-! The commands of a connection, as `RequestTracker` gives them to its caller: every write is fed to
    it, and the statements it has come to are taken from it until it has no more.

    `textOf` says which commands carry a text that is to be looked at, from the payload alone. The
    tracker comes to just these, in order, however the stream was cut into writes
    (`requests_yielded`): the messages it takes from its reader are those of the stream
    (`Framing.split_append`), and `nextLoop` moves behind one message at a time. -/

namespace Barnacle.Agent
open Barnacle.Lib Barnacle.Mysql

/-! ### The text of a command -/

/-- The bytes that follow the first byte of a length-encoded integer; `none` where it starts none. -/
def countWidth (b : UInt8) : Option Nat :=
  if b = 0xFC then some 2 else if b = 0xFD then some 3 else if b = 0xFE then some 8 else none

/-- A length-encoded integer off the front. -/
def takeCount : Bytes → Option (Nat × Bytes)
  | [] => none
  | b :: rest =>
    if b < 0xFB then some (b.toNat, rest)
    else
      (countWidth b).bind fun w =>
        if rest.length < w then none else some (leVal (rest.take w), rest.drop w)

/-- The text of a command: none unless it is a COM_QUERY, all that follows the command byte where
    query attributes were not negotiated, and else what follows the two counts in front of it,
    as long as no parameters are bound. -/
def textOf (caps : UInt32) : Bytes → Option Bytes
  | [] => none
  | cmd :: args =>
    if cmd ≠ COM_QUERY then none
    else if ¬ hasCap caps CLIENT_QUERY_ATTRIBUTES then some args
    else
      (takeCount args).bind fun params =>
        (takeCount params.2).bind fun sets => if params.1 = 0 then some sets.2 else none

theorem readLenEnc_drop (d : Bytes) (pos : Nat) :
    (readLenEnc d pos).map (fun r => (r.1, d.drop r.2)) = takeCount (d.drop pos) := by
  rcases hd : d.drop pos with _ | ⟨b, rest⟩
  · rw [readLenEnc, List.getElem?_eq_none (List.drop_eq_nil_iff.mp hd)]
    rfl
  · have hrest : d.drop (pos + 1) = rest := drop_of_drop_append (x := [b]) hd
    have hlen := congrArg List.length hrest
    have hlt : pos + 1 ≤ d.length := by
      have hd' : d.drop pos = [b] ++ rest := hd
      exact le_length_of_drop_append hd' (by simp)
    rw [List.length_drop] at hlen
    -- the three widths are the same case
    have hwide (w : Nat) :
        (if pos + (1 + w) > d.length then none else some (leAt d (pos + 1) w, pos + (1 + w))).map
            (fun r => (r.1, d.drop r.2)) =
          if rest.length < w then none else some (leVal (rest.take w), rest.drop w) := by
      by_cases hw : rest.length < w
      · rw [if_pos hw, if_pos (by omega)]
        rfl
      · rw [if_neg hw, if_neg (by omega), Option.map_some, leAt, hrest, ← Nat.add_assoc,
          ← List.drop_drop, hrest]
    rw [takeCount]
    by_cases hshort : b < 0xFB
    · rw [readLenEnc_short (getElem?_of_drop hd) hshort, if_pos hshort, Option.map_some, hrest]
    rw [if_neg hshort]
    by_cases hlead : ∃ w, LeadByte b w
    · obtain ⟨w, hl⟩ := hlead
      have hcount : countWidth b = some w := by
        rcases hl with ⟨rfl, rfl⟩ | ⟨rfl, rfl⟩ | ⟨rfl, rfl⟩ <;> rfl
      rw [readLenEnc_lead (getElem?_of_drop hd) hl, hcount]
      exact hwide w
    · have hcount : countWidth b = none := by
        simp only [LeadByte, not_exists, not_or, not_and] at hlead
        rw [countWidth, if_neg fun e => (hlead 2).1 e rfl, if_neg fun e => (hlead 3).2.1 e rfl,
          if_neg fun e => (hlead 8).2.2 e rfl]
      rw [readLenEnc_reserved (getElem?_of_drop hd) hshort fun w hl => hlead ⟨w, hl⟩, hcount]
      rfl

/-- `extractQuery` finds the text. -/
theorem extractQuery_eq_textOf (payload : Bytes) (caps : UInt32) :
    extractQuery payload caps = textOf caps payload := by
  rcases payload with _ | ⟨cmd, args⟩
  · rfl
  · rw [extractQuery, textOf, List.head?_cons]
    simp only [ne_eq, Option.some.injEq]
    by_cases hcmd : cmd = COM_QUERY
    · rw [if_neg (not_not_intro hcmd), if_neg (not_not_intro hcmd)]
      by_cases hattr : hasCap caps CLIENT_QUERY_ATTRIBUTES = true
      · rw [if_pos hattr, if_neg (not_not_intro hattr)]
        have hparams := readLenEnc_drop (cmd :: args) 1
        rw [List.drop_succ_cons, List.drop_zero] at hparams
        rw [← hparams]
        rcases readLenEnc (cmd :: args) 1 with _ | ⟨params, pos⟩
        · rfl
        · simp only [Option.map_some, Option.bind_some]
          rw [← readLenEnc_drop]
          rcases readLenEnc (cmd :: args) pos with _ | ⟨sets, pos'⟩
          · rfl
          · rcases params with _ | params <;> rfl
      · rw [if_neg hattr, if_pos hattr]
        rfl
    · rw [if_pos hcmd, if_pos hcmd]

theorem takeCount_putLenEnc {n : Nat} (hn : n < 2 ^ 64) (rest : Bytes) :
    takeCount (putLenEnc n ++ rest) = some (n, rest) := by
  have h := readLenEnc_drop (putLenEnc n ++ rest) 0
  rw [readLenEnc_of_drop hn (List.drop_zero), Option.map_some, List.drop_zero, Nat.zero_add,
    List.drop_left] at h
  exact h.symm

/-- A COM_QUERY under query attributes has its text exactly if it binds no parameters. -/
theorem textOf_attributes {caps : UInt32} {params sets : Nat}
    (hcaps : hasCap caps CLIENT_QUERY_ATTRIBUTES = true) (hp : params < 2 ^ 64) (hs : sets < 2 ^ 64)
    (text : Bytes) :
    textOf caps (COM_QUERY :: (putLenEnc params ++ (putLenEnc sets ++ text))) =
      if params = 0 then some text else none := by
  rw [textOf, if_neg (not_not_intro rfl), if_neg (not_not_intro hcaps), takeCount_putLenEnc hp,
    Option.bind_some, takeCount_putLenEnc hs, Option.bind_some]

/-! ### One write after another -/

namespace RequestTracker

/-- `next` until it is false; beside every statement, what `lastSeq` says then. -/
def drainLoop : Nat → RequestTracker → List (Bytes × UInt8) × RequestTracker
  | 0, t => ([], t)
  | fuel + 1, t =>
    match t.next with
    | (none, t) => ([], t)
    | (some sql, t) =>
      let d := drainLoop fuel t
      ((sql, t.last_seq) :: d.1, d.2)

/-- One write: `feed`, then `next`, until one of them is false. -/
def drainWrite (t : RequestTracker) (data : Bytes) : List (Bytes × UInt8) × RequestTracker :=
  match t.feed data with
  | (none, t) => ([], t)
  | (some sql, t) =>
    let d := drainLoop (t.reader.buffered + 1) t
    ((sql, t.last_seq) :: d.1, d.2)

def drainWrites : RequestTracker → List Bytes → List (Bytes × UInt8) × RequestTracker
  | t, [] => ([], t)
  | t, data :: writes =>
    let d := t.drainWrite data
    let r := drainWrites d.2 writes
    (d.1 ++ r.1, r.2)

/-- What a stream yields under `caps`: each text, with the sequence id its message ends on. -/
def yieldsOf (caps : UInt32) (v : Bytes) : List (Bytes × UInt8) :=
  (packets.split v).1.filterMap fun mw => (extractQuery mw.1.payload caps).map (·, mw.1.last_seq)

theorem yieldsOf_of_none {caps : UInt32} {v : Bytes} (h : takeMessage v = none) : yieldsOf caps v = [] := by
  rw [yieldsOf, Framing.split_none (F := packets) h]
  rfl

theorem yieldsOf_append (caps : UInt32) (v x : Bytes) :
    yieldsOf caps (v ++ x) = yieldsOf caps v ++ yieldsOf caps ((packets.split v).2 ++ x) := by
  rw [yieldsOf, Framing.split_append, List.filterMap_append]
  rfl

/-- What one call of `next` comes to: the first text of the stream, with what is left still to be
    yielded; or nothing, with no whole message left. -/
structure Moved (t : RequestTracker) (n : Option Bytes × RequestTracker) : Prop where
  caps : n.2.caps = t.caps
  left : (packets.split n.2.reader.view).2 = (packets.split t.reader.view).2
  yields : yieldsOf t.caps t.reader.view =
    (n.1.map (·, n.2.last_seq)).toList ++ yieldsOf t.caps n.2.reader.view
  ends : n.1 = none → takeMessage n.2.reader.view = none
  shorter : n.1 ≠ none → n.2.reader.view.length < t.reader.view.length

theorem nextLoop_moved (fuel : Nat) : ∀ (t : RequestTracker), t.reader.view.length < fuel →
    Moved t (nextLoop fuel t) := by
  induction fuel with
  | zero =>
    intro t h
    exact absurd h (Nat.not_lt_zero _)
  | succ fuel ih =>
    intro t hf
    rcases ht : takeMessage t.reader.view with _ | ⟨m, rest⟩
    · rw [nextLoop_of_view_none ht]
      exact ⟨rfl, rfl, rfl, fun _ => ht, fun h => absurd rfl h⟩
    · obtain ⟨t', hv, hc, hseq, hl⟩ := nextLoop_of_view fuel ht
      have hlt := Framing.take_length_lt (F := packets) ht
      obtain ⟨w, -, hw⟩ := packets.takes ht
      rw [hw] at ht
      have hs := Framing.split_some (F := packets) ht
      rw [← hw] at hs
      rw [hl]
      rcases hq : extractQuery m.payload t.caps with _ | q
      · obtain ⟨hcaps, hleft, hyields, hends, hshorter⟩ := ih t' (by rw [hv]; omega)
        rw [hc, hv] at hyields
        refine ⟨hcaps.trans hc, by rw [hleft, hv, hs], ?_, hends, ?_⟩
        · rw [← hyields, yieldsOf, hs, List.filterMap_cons, hq]
          rfl
        · intro h
          exact Nat.lt_trans (hv ▸ hshorter h) hlt
      · have hne : m.payload ≠ [] := by
          intro h
          rw [h, extractQuery_eq_textOf, textOf] at hq
          cases hq
        refine ⟨hc, by rw [hv, hs], ?_, fun h => absurd h (by simp), fun _ => by rw [hv]; exact hlt⟩
        rw [yieldsOf, hs, List.filterMap_cons, hq, hv]
        simp only [Option.map_some, Option.toList_some, hseq hne]
        rfl

theorem next_moved (t : RequestTracker) : Moved t t.next :=
  nextLoop_moved _ t (by rw [MessageReader.length_view]; exact Nat.lt_succ_self _)

/-- All that the stream `v` yields has been taken, and the bytes behind its last message are left. -/
structure Drained (caps : UInt32) (v : Bytes) (d : List (Bytes × UInt8) × RequestTracker) : Prop where
  all : d.1 = yieldsOf caps v
  view : d.2.reader.view = (packets.split v).2
  caps : d.2.caps = caps

/-- What `next` leaves when it is false. -/
theorem Moved.drained {t t' : RequestTracker} (h : Moved t (none, t')) :
    Drained t.caps t.reader.view ([], t') := by
  have hnone := h.ends rfl
  refine ⟨?_, ?_, h.caps⟩
  · rw [h.yields, yieldsOf_of_none hnone]
    rfl
  · have hleft := h.left
    rwa [Framing.split_none (F := packets) hnone] at hleft

/-- A statement, and then the rest. -/
theorem Moved.drained_cons {t t' : RequestTracker} {sql : Bytes} {d : List (Bytes × UInt8) × RequestTracker}
    (h : Moved t (some sql, t')) (hd : Drained t'.caps t'.reader.view d) :
    Drained t.caps t.reader.view ((sql, t'.last_seq) :: d.1, d.2) := by
  have hcaps : t'.caps = t.caps := h.caps
  refine ⟨?_, hd.view.trans h.left, hd.caps.trans hcaps⟩
  rw [h.yields, hd.all, hcaps]
  rfl

theorem drainLoop_drained (fuel : Nat) : ∀ (t : RequestTracker), t.reader.view.length < fuel →
    Drained t.caps t.reader.view (drainLoop fuel t) := by
  induction fuel with
  | zero =>
    intro t h
    exact absurd h (Nat.not_lt_zero _)
  | succ fuel ih =>
    intro t hf
    have hmoved := next_moved t
    rw [drainLoop]
    rcases hn : t.next with ⟨_ | sql, t'⟩
    · rw [hn] at hmoved
      exact hmoved.drained
    · rw [hn] at hmoved
      have hlt : t'.reader.view.length < t.reader.view.length := hmoved.shorter (by simp)
      exact hmoved.drained_cons (ih t' (by omega))

theorem drainWrite_drained (t : RequestTracker) (data : Bytes) :
    Drained t.caps (t.reader.view ++ data) (t.drainWrite data) := by
  have hmoved := next_moved { t with reader := t.reader.append data }
  rw [← MessageReader.view_append, drainWrite, feed]
  rcases hn : next { t with reader := t.reader.append data } with ⟨_ | sql, t'⟩
  · rw [hn] at hmoved
    exact hmoved.drained
  · rw [hn] at hmoved
    refine hmoved.drained_cons (drainLoop_drained _ t' ?_)
    rw [MessageReader.length_view]
    exact Nat.lt_succ_self _

/-- One write after another comes to the same as all the bytes at once. -/
theorem drainWrites_drained (writes : List Bytes) : ∀ {t : RequestTracker},
    takeMessage t.reader.view = none →
    Drained t.caps (t.reader.view ++ writes.flatten) (t.drainWrites writes) := by
  induction writes with
  | nil =>
    intro t ht
    rw [List.flatten_nil, List.append_nil]
    exact ⟨(yieldsOf_of_none ht).symm, by rw [Framing.split_none (F := packets) ht]; rfl, rfl⟩
  | cons data writes ih =>
    intro t _
    obtain ⟨hall, hview, hcaps⟩ := drainWrite_drained t data
    have hnone : takeMessage (t.drainWrite data).2.reader.view = none := by
      rw [hview]
      exact Framing.take_split_rest (F := packets) _
    obtain ⟨hall', hview', hcaps'⟩ := ih hnone
    rw [List.flatten_cons, ← List.append_assoc]
    refine ⟨?_, ?_, hcaps'.trans hcaps⟩
    · rw [drainWrites, yieldsOf_append, ← hview, ← hcaps, ← hall', hcaps, ← hall]
    · rw [Framing.split_append, ← hview]
      exact hview'

/-! ### The commands of a connection -/

/-- The sequence id of the last packet a command is sent in. -/
def lastPacketSeq (payload : Bytes) (start_seq : UInt8) : Option UInt8 :=
  (packetsOf (encodeMessage payload start_seq)).getLast?.map WirePacket.seq

theorem lastPacketSeq_eq (payload : Bytes) (s : UInt8) :
    lastPacketSeq payload s = some (s + UInt8.ofNat (payload.length / kMaxPayload)) := by
  obtain ⟨c, hc, hnum, hlen⟩ := encodeMessage_chain payload s
  have hlt : c.length - 1 < c.length := Nat.sub_one_lt (by rw [hlen]; exact Nat.succ_ne_zero _)
  rw [lastPacketSeq, hc, (packetsOf_wire_nil c).1, List.getLast?_eq_getElem?, List.getElem?_eq_getElem hlt,
    Option.map_some, hnum _ _ (List.getElem?_eq_getElem hlt), hlen, Nat.add_sub_cancel]

/-- What a list of commands is to yield: the text of each that has one, and the sequence id of the last
    packet of that command. -/
def statements (caps : UInt32) (cmds : List (Bytes × UInt8)) : List (Bytes × UInt8) :=
  cmds.filterMap fun cmd =>
    (textOf caps cmd.1).bind fun text => (lastPacketSeq cmd.1 cmd.2).map (text, ·)

theorem yieldsOf_encoded (caps : UInt32) (cmds : List (Bytes × UInt8)) :
    yieldsOf caps (cmds.flatMap fun cmd => encodeMessage cmd.1 cmd.2) = statements caps cmds := by
  have hfst : yieldsOf caps (cmds.flatMap fun cmd => encodeMessage cmd.1 cmd.2) =
      ((packets.split (cmds.flatMap fun cmd => encodeMessage cmd.1 cmd.2)).1.map Prod.fst).filterMap
        fun m => (extractQuery m.payload caps).map (·, m.last_seq) := by
    rw [List.filterMap_map]
    rfl
  rw [hfst, (split_encoded cmds).1, List.filterMap_map]
  refine List.filterMap_congr ?_
  intro cmd _
  simp only [Function.comp_apply, framedMessage, extractQuery_eq_textOf, lastPacketSeq_eq,
    Option.map_some]
  rcases textOf caps cmd.1 with _ | text <;> rfl

/-- Whatever commands an application sends and however the stream is cut into writes: taking from the
    tracker after each write gives the text of every COM_QUERY, in order and once, with `lastSeq` at the
    command's last packet, and nothing is held when the stream is at its end. -/
theorem requests_yielded (t : RequestTracker) (caps : UInt32) (cmds : List (Bytes × UInt8))
    (writes : List Bytes)
    (h : writes.flatten = cmds.flatMap fun cmd => encodeMessage cmd.1 cmd.2) :
    ((t.begin caps).drainWrites writes).1 = statements caps cmds ∧
      ((t.begin caps).drainWrites writes).2.reader.buffered = 0 := by
  obtain ⟨hall, hview, -⟩ := drainWrites_drained writes (t := t.begin caps) rfl
  have hv : (t.begin caps).reader.view ++ writes.flatten =
      cmds.flatMap fun cmd => encodeMessage cmd.1 cmd.2 := h
  rw [hv] at hall hview
  refine ⟨hall.trans (yieldsOf_encoded caps cmds), ?_⟩
  rw [← MessageReader.length_view, hview, (split_encoded cmds).2]
  rfl

/-- Under query attributes: an empty packet, a ping, a query that binds a parameter and one that binds
    none, cut within its header. -/
theorem requests_yielded_cut :
    (((({} : RequestTracker).begin CLIENT_QUERY_ATTRIBUTES).drainWrites
        [[0, 0, 0, 0, 1, 0, 0, 0, 14, 4, 0], [0, 0, 3, 1, 1, 83, 5, 0, 0, 7, 3, 0, 1, 83], [69]]).1 =
      [([83, 69], 7)]) ∧
    statements CLIENT_QUERY_ATTRIBUTES [([], 0), ([14], 0), ([3, 1, 1, 83], 0), ([3, 0, 1, 83, 69], 7)] =
      [([83, 69], 7)] := by
  have hs : statements CLIENT_QUERY_ATTRIBUTES
      [([], 0), ([14], 0), ([3, 1, 1, 83], 0), ([3, 0, 1, 83, 69], 7)] = [([83, 69], 7)] := by
    simp only [statements, lastPacketSeq_eq]
    decide
  refine ⟨?_, hs⟩
  rw [← hs]
  exact (requests_yielded {} _ _ _ (by decide)).1

end RequestTracker

end Barnacle.Agent
