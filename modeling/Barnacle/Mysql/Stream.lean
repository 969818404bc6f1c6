import Mathlib.Data.List.GetD
import Barnacle.Lib.Framing
import Barnacle.Mysql.RoundTrip

/-! `MessageReader` as a stream reader. What a reader holds is its `view`, the bytes past its cursor;
    `append` puts bytes behind the view whatever compaction does, and `next` takes the first message
    off it. So a reader is the MySQL framing at work, and the pieces the bytes came in do not matter. -/

namespace Barnacle.Mysql
open Barnacle.Lib

namespace MessageReader

/-- The bytes held and not yet consumed. -/
def view (r : MessageReader) : Bytes := r.buf.drop r.consumed

@[simp] theorem view_reset (r : MessageReader) : r.reset.view = [] := rfl

@[simp] theorem view_empty : ({} : MessageReader).view = [] := rfl

theorem length_view (r : MessageReader) : r.view.length = r.buffered := List.length_drop

theorem view_append (r : MessageReader) (data : Bytes) : (r.append data).view = r.view ++ data := by
  rw [append]
  split_ifs with h0
  · simp [List.eq_nil_of_length_eq_zero h0]
  · rw [compact]
    split_ifs with h1 h2 h3
    · simp [view, h1]
    · simp [view, h2]
    · simp [view]
    · simp only [view]
      rw [List.drop_append_of_le_length (by omega)]

/-! ### The loop of `next`, away from the cursor -/

theorem leAt_shift (pre b : Bytes) (pos w : Nat) :
    leAt (pre ++ b) (pre.length + pos) w = leAt b pos w := by
  rw [leAt, leAt, List.drop_append, List.drop_of_length_le (by omega), List.nil_append,
    Nat.add_sub_cancel_left]

/-- Consumed bytes in front of the cursor do not matter. -/
theorem nextLoop_shift (pre b : Bytes) (start fuel : Nat) : ∀ (pos : Nat) (acc : Bytes)
    (first : Option UInt8), nextLoop (pre ++ b) (pre.length + start) fuel (pre.length + pos) acc first =
      (nextLoop b start fuel pos acc first).map fun mp => (mp.1, pre.length + mp.2) := by
  induction fuel with
  | zero =>
    intro pos acc first
    rfl
  | succ fuel ih =>
    intro pos acc first
    have hlen : (pre ++ b).length - (pre.length + pos) = b.length - pos := by
      rw [List.length_append]; omega
    have hseq : (pre ++ b).getD (pre.length + pos + 3) 0 = b.getD (pos + 3) 0 := by
      rw [List.getD_append_right _ _ _ _ (by omega)]; congr 1; omega
    have hbody : (pre ++ b).drop (pre.length + pos + kHeaderLen) = b.drop (pos + kHeaderLen) := by
      rw [Nat.add_assoc, List.drop_append, List.drop_of_length_le (by omega), List.nil_append,
        Nat.add_sub_cancel_left]
    rw [nextLoop, nextLoop]
    simp only [hlen, leAt_shift, hseq, hbody]
    split_ifs with h1 h2 h3
    · rfl
    · rfl
    · rw [← ih, Nat.add_assoc]
    · simp only [Option.map_some, Option.some.injEq, Prod.mk.injEq, Message.mk.injEq, true_and]
      exact ⟨by omega, by omega⟩

/-- Every round moves the cursor past a header, so the bytes left bound the rounds. -/
theorem nextLoop_fuel (b : Bytes) (start : Nat) : ∀ (f g pos : Nat) (acc : Bytes)
    (first : Option UInt8), b.length - pos < f → b.length - pos < g →
    nextLoop b start f pos acc first = nextLoop b start g pos acc first
  | 0, _, _, _, _, hf, _ => absurd hf (Nat.not_lt_zero _)
  | _ + 1, 0, _, _, _, _, hg => absurd hg (Nat.not_lt_zero _)
  | f + 1, g + 1, pos, acc, first, hf, hg => by
    rw [nextLoop, nextLoop]
    split_ifs with h1
    · rfl
    · have hpos : kHeaderLen = 4 := rfl
      simp only
      split_ifs with h2 h3
      · rfl
      · exact nextLoop_fuel b start f g _ _ _ (by omega) (by omega)
      · rfl

theorem leAt_append {b : Bytes} {pos w : Nat} (x : Bytes) (h : pos + w ≤ b.length) :
    leAt (b ++ x) pos w = leAt b pos w := by
  rw [leAt, leAt, List.drop_append_of_le_length (by omega),
    List.take_append_of_le_length (by rw [List.length_drop]; omega)]

/-- A message taken is taken as well with more bytes behind it, and lies inside the bytes. -/
theorem nextLoop_append {b : Bytes} {start fuel pos : Nat} {acc : Bytes} {first : Option UInt8}
    {mp : Message × Nat} (x : Bytes) (h : nextLoop b start fuel pos acc first = some mp) :
    nextLoop (b ++ x) start fuel pos acc first = some mp ∧ pos < mp.2 ∧ mp.2 ≤ b.length := by
  induction fuel generalizing pos acc first with
  | zero => simp [nextLoop] at h
  | succ fuel ih =>
    have hk : kHeaderLen = 4 := rfl
    rw [nextLoop] at h ⊢
    simp only at h ⊢
    by_cases h1 : b.length - pos < kHeaderLen
    · simp [h1] at h
    rw [if_neg h1] at h
    by_cases h2 : b.length - pos - kHeaderLen < leAt b pos 3
    · simp [h2] at h
    rw [if_neg h2] at h
    have hseq : (b ++ x).getD (pos + 3) 0 = b.getD (pos + 3) 0 :=
      List.getD_append _ _ _ _ (by omega)
    have hbody : ((b ++ x).drop (pos + kHeaderLen)).take (leAt b pos 3) =
        (b.drop (pos + kHeaderLen)).take (leAt b pos 3) := by
      rw [List.drop_append_of_le_length (by omega),
        List.take_append_of_le_length (by rw [List.length_drop]; omega)]
    rw [leAt_append x (by omega), hseq, hbody, if_neg (by rw [List.length_append]; omega),
      if_neg (by rw [List.length_append]; omega)]
    by_cases h3 : leAt b pos 3 = kMaxPayload
    · rw [if_pos h3] at h ⊢
      obtain ⟨ha, hlt, hle⟩ := ih h
      exact ⟨ha, by omega, hle⟩
    · rw [if_neg h3] at h ⊢
      rw [Option.some.injEq] at h
      subst h
      exact ⟨rfl, by simp only; omega, by simp only; omega⟩

/-- A message takes little more room than its payload. -/
theorem nextLoop_length {b : Bytes} {start fuel pos : Nat} {acc : Bytes} {first : Option UInt8}
    {mp : Message × Nat} (h : nextLoop b start fuel pos acc first = some mp) :
    acc.length ≤ mp.1.payload.length ∧ mp.2 + 5 * acc.length ≤ pos + 5 * mp.1.payload.length + 4 := by
  induction fuel generalizing pos acc first with
  | zero => simp [nextLoop] at h
  | succ fuel ih =>
    have hk : kHeaderLen = 4 := rfl
    have hmax : kMaxPayload = 0xFFFFFF := rfl
    rw [nextLoop] at h
    simp only at h
    split_ifs at h with h1 h2 h3
    -- the packet's payload is all there
    all_goals
      have hlen : ((b.drop (pos + kHeaderLen)).take (leAt b pos 3)).length = leAt b pos 3 := by
        rw [List.length_take, List.length_drop]
        omega
    · obtain ⟨hle, hpos⟩ := ih h
      rw [List.length_append, hlen] at hle hpos
      exact ⟨by omega, by omega⟩
    · rw [Option.some.injEq] at h
      subst h
      simp only [List.length_append, hlen]
      exact ⟨by omega, by omega⟩

end MessageReader

/-! ### The framing -/

open MessageReader

/-- The first message of a byte stream, and the bytes after it. -/
def takeMessage (b : Bytes) : Option (Message × Bytes) :=
  (nextLoop b 0 (b.length + 1) 0 [] none).map fun mp => (mp.1, b.drop mp.2)

theorem takeMessage_eq_some {b rest : Bytes} {m : Message} (h : takeMessage b = some (m, rest)) :
    ∃ pos, nextLoop b 0 (b.length + 1) 0 [] none = some (m, pos) ∧ rest = b.drop pos ∧ 0 < pos ∧
      pos ≤ b.length := by
  rw [takeMessage, Option.map_eq_some_iff] at h
  obtain ⟨⟨m', pos⟩, hn, he⟩ := h
  obtain ⟨-, hlt, hle⟩ := nextLoop_append [] hn
  simp only [Prod.mk.injEq] at he
  exact ⟨pos, by rw [hn, he.1], he.2.symm, hlt, hle⟩

theorem takeMessage_length {b : Bytes} {m : Message} (h : takeMessage b = some (m, [])) :
    b.length ≤ 5 * m.payload.length + 4 := by
  obtain ⟨pos, hn, hrest, -, hle⟩ := takeMessage_eq_some h
  have hlen := (nextLoop_length hn).2
  have := congrArg List.length hrest
  rw [List.length_drop, List.length_nil] at this
  simp only [List.length_nil] at hlen
  omega

/-- MySQL's framing of a byte stream into messages. -/
def packets : Framing UInt8 Message where
  take := takeMessage
  takes {b m rest} h := by
    obtain ⟨pos, -, rfl, hpos, hle⟩ := takeMessage_eq_some h
    refine ⟨b.take pos, ?_, (List.take_append_drop pos b).symm⟩
    intro hnil
    have := congrArg List.length hnil
    rw [List.length_take, List.length_nil] at this
    omega
  stable {b m rest} x h := by
    obtain ⟨pos, hn, rfl, -, hle⟩ := takeMessage_eq_some h
    rw [nextLoop_fuel b 0 _ ((b ++ x).length + 1) _ _ _ (by omega)
      (by rw [List.length_append]; omega)] at hn
    obtain ⟨ha, -, -⟩ := nextLoop_append x hn
    rw [takeMessage, ha, Option.map_some, List.drop_append_of_le_length hle]

@[simp] theorem packets_take (b : Bytes) : packets.take b = takeMessage b := rfl

/-- The reader at work: `next` takes the first message off the view. -/
theorem next_view (r : MessageReader) :
    r.next.map (fun mr => (mr.1, mr.2.view)) = takeMessage r.view := by
  by_cases hle : r.consumed ≤ r.buf.length
  · have hpre : (r.buf.take r.consumed).length = r.consumed := by rw [List.length_take]; omega
    have hbuf : r.buf.take r.consumed ++ r.view = r.buf := List.take_append_drop _ _
    have hshift := nextLoop_shift (r.buf.take r.consumed) r.view 0 (r.buf.length + 1) 0 [] none
    rw [hbuf, hpre, Nat.add_zero, nextLoop_fuel r.view 0 _ (r.view.length + 1) _ _ _
      (by rw [view, List.length_drop]; omega) (by omega)] at hshift
    rw [next, hshift, takeMessage, Option.map_map, Option.map_map]
    congr 1
    funext mp
    simp [view, List.drop_drop]
  · have hview : r.view = [] := List.drop_of_length_le (by omega)
    have hnone : takeMessage [] = none := rfl
    rw [hview, hnone, next, nextLoop, if_pos (by rw [kHeaderLen]; omega)]
    rfl

theorem next_of_view_none {r : MessageReader} (h : takeMessage r.view = none) : r.next = none := by
  rw [← next_view, Option.map_eq_none_iff] at h
  exact h

theorem next_of_view {r : MessageReader} {m : Message} {rest : Bytes}
    (h : takeMessage r.view = some (m, rest)) : ∃ r', r.next = some (m, r') ∧ r'.view = rest := by
  rw [← next_view, Option.map_eq_some_iff] at h
  obtain ⟨⟨m', r'⟩, hn, he⟩ := h
  simp only [Prod.mk.injEq] at he
  exact ⟨r', by rw [hn, he.1], he.2⟩

/-- One framed payload is one message, whatever follows it. -/
theorem takeMessage_encodeMessage (payload tail : Bytes) (seq : UInt8) :
    ∃ m, takeMessage (encodeMessage payload seq ++ tail) = some (m, tail) ∧ m.payload = payload := by
  let r : MessageReader := { buf := encodeMessage payload seq ++ tail }
  have hr : r.view = encodeMessage payload seq ++ tail := rfl
  obtain ⟨m, r', hn, htail, hp, -⟩ := next_of_encodeMessage hr
  refine ⟨m, ?_, hp⟩
  rw [← hr, ← next_view, hn, Option.map_some, view, htail]

/-- A stream of framed payloads splits into messages that carry them. -/
theorem split_framed (ps : List Bytes) : ∀ s : UInt8,
    (packets.split (framed s ps)).1.map (fun mw => mw.1.payload) = ps ∧
      (packets.split (framed s ps)).2 = [] := by
  induction ps with
  | nil =>
    intro s
    exact ⟨rfl, rfl⟩
  | cons p ps ih =>
    intro s
    obtain ⟨m, hm, hp⟩ := takeMessage_encodeMessage p (framed (s + 1) ps) s
    rw [← packets_take] at hm
    obtain ⟨ih, ihr⟩ := ih (s + 1)
    rw [framed, Framing.split_some hm, List.map_cons, ih, hp]
    exact ⟨rfl, ihr⟩

end Barnacle.Mysql
