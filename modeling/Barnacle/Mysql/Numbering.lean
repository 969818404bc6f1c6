import Barnacle.Mysql.Wire

/-! What `encodeMessage` puts on the wire, packet by packet: a whole chain, numbered from the start
    sequence id (`encodeMessage_chain`). With the reader on the other side framing is a round trip, and
    a chain that was numbered without a gap is the one the encoder writes (`encodeMessage_of_chain`).

    The encoder of a result set counts messages where the wire counts packets: `emit` moves the
    sequence id on by one whatever `encodeMessage` wrote. The numbers are in step as long as no message
    takes a second packet, or takes full packets by the multiple of 256. -/

namespace Barnacle.Mysql
open Barnacle.Lib

/-! ### Chains the encoder writes -/

/-- Packets numbered from `s` on, none left out. -/
def Numbered (s : UInt8) (ps : List WirePacket) : Prop :=
  ∀ (i : Nat) (p : WirePacket), ps[i]? = some p → p.seq = s + UInt8.ofNat i

theorem numbered_cons_iff {s : UInt8} {p : WirePacket} {ps : List WirePacket} :
    Numbered s (p :: ps) ↔ p.seq = s ∧ Numbered (s + 1) ps := by
  refine ⟨?_, ?_⟩
  · intro h
    refine ⟨(h 0 p rfl).trans (UInt8.add_zero s), ?_⟩
    intro i q hq
    rw [← add_ofNat_succ]
    exact h (i + 1) q hq
  · rintro ⟨hp, hps⟩ (_ | i) q hq
    · cases hq
      exact hp.trans (UInt8.add_zero s).symm
    · rw [add_ofNat_succ]
      exact hps i q hq

theorem numbered_append_iff {ps : List WirePacket} : ∀ {s : UInt8} {qs : List WirePacket},
    Numbered s (ps ++ qs) ↔ Numbered s ps ∧ Numbered (s + UInt8.ofNat ps.length) qs := by
  induction ps with
  | nil =>
    intro s qs
    have h0 : s + UInt8.ofNat ([] : List WirePacket).length = s := UInt8.add_zero s
    rw [h0, List.nil_append]
    refine ⟨?_, ?_⟩
    · intro h
      exact ⟨fun i p hp => by simp at hp, h⟩
    · rintro ⟨-, h⟩
      exact h
  | cons p ps ih =>
    intro s qs
    rw [List.cons_append, numbered_cons_iff, numbered_cons_iff, ih, List.length_cons, add_ofNat_succ,
      and_assoc]

/-- Packets are in step exactly when numbering them changes nothing. -/
theorem numbered_eq_iff {ps : List WirePacket} : ∀ {s : UInt8}, numbered s ps = ps ↔ Numbered s ps := by
  induction ps with
  | nil =>
    intro s
    exact ⟨fun _ i p hp => by simp at hp, fun _ => rfl⟩
  | cons p ps ih =>
    intro s
    rw [numbered_cons, List.cons.injEq, ih, numbered_cons_iff]
    refine and_congr_left fun _ => ⟨?_, ?_⟩
    · intro h
      rw [← h]
      rfl
    · rintro rfl
      rfl

/-- Consecutive sequence ids, from the first on. -/
theorem numbered_of_isChain {c : List WirePacket} : ∀ {p : WirePacket},
    (p :: c).IsChain (fun p q => q.seq = p.seq + 1) → Numbered p.seq (p :: c) := by
  induction c with
  | nil =>
    intro p _
    exact numbered_cons_iff.mpr ⟨rfl, fun i q hq => by simp at hq⟩
  | cons q c ih =>
    intro p h
    obtain ⟨hq, hc⟩ := List.isChain_cons_cons.mp h
    refine numbered_cons_iff.mpr ⟨rfl, ?_⟩
    rw [← hq]
    exact ih hc

/-- The packets still to be written are a whole chain: one more than the full ones, numbered on, with
    the payload in their bodies. -/
theorem encodeLoop_chain (g : Nat) : ∀ (rest : Bytes) (seq : UInt8), rest.length / kMaxPayload < g →
    ∃ c, encodeLoop g rest seq = wire c ∧ Numbered seq c ∧ c.length = rest.length / kMaxPayload + 1 := by
  induction g with
  | zero =>
    intro rest seq h
    exact absurd h (Nat.not_lt_zero _)
  | succ g ih =>
    intro rest seq h
    rw [encodeLoop_succ]
    split_ifs with hshort
    · refine ⟨[⟨seq, rest, Nat.le_of_lt hshort⟩], ?_, ?_, ?_⟩
      · simp [wire, WirePacket.bytes]
      · exact numbered_cons_iff.mpr ⟨rfl, fun i q hq => by simp at hq⟩
      · rw [Nat.div_eq_of_lt hshort]
        rfl
    · have hge : kMaxPayload ≤ rest.length := Nat.le_of_not_lt hshort
      have hfull : (rest.take kMaxPayload).length = kMaxPayload := by rw [List.length_take]; omega
      have hdiv : rest.length / kMaxPayload = (rest.drop kMaxPayload).length / kMaxPayload + 1 := by
        rw [List.length_drop]
        exact Nat.div_eq_sub_div (by decide) hge
      obtain ⟨c, hc, hnum, hlen⟩ := ih (rest.drop kMaxPayload) (seq + 1) (by omega)
      refine ⟨⟨seq, rest.take kMaxPayload, Nat.le_of_eq hfull⟩ :: c, ?_, ?_, ?_⟩
      · rw [wire_cons, ← hc, WirePacket.bytes]
        dsimp only
        rw [hfull]
      · exact numbered_cons_iff.mpr ⟨rfl, hnum⟩
      · rw [List.length_cons, hlen, hdiv]

theorem encodeMessage_chain (payload : Bytes) (s : UInt8) :
    ∃ c, encodeMessage payload s = wire c ∧ Numbered s c ∧
      c.length = payload.length / kMaxPayload + 1 :=
  encodeLoop_chain _ payload s (Nat.lt_succ_self _)

/-- A whole chain in step is what the encoder writes for its payload. Induction on the chain, whose
    full packets are the full pieces of the payload. -/
theorem encodeLoop_of_chain {c : List WirePacket} : ∀ {g : Nat} {s : UInt8},
    Whole WirePacket.full c → Numbered s c → (messageOf c).payload.length / kMaxPayload < g →
    encodeLoop g (messageOf c).payload s = wire c := by
  induction c with
  | nil =>
    intro g s hw
    exact hw.elim
  | cons p c ih =>
    rintro (_ | g) s hw hnum hg
    · exact absurd hg (Nat.not_lt_zero _)
    · obtain ⟨hseq, hnum⟩ := numbered_cons_iff.mp hnum
      have hfits := p.fits
      have hp : (messageOf (p :: c)).payload = p.body ++ (messageOf c).payload := List.flatMap_cons
      rw [Whole] at hw
      split_ifs at hw with hfull
      · have hmax : p.body.length = kMaxPayload := by simpa [WirePacket.full] using hfull
        have hge : ¬ (p.body ++ (messageOf c).payload).length < kMaxPayload := by
          rw [List.length_append]
          omega
        have hdiv := Nat.div_eq_sub_div (a := (p.body ++ (messageOf c).payload).length)
          (b := kMaxPayload) (by decide) (Nat.le_of_not_lt hge)
        rw [hp, hdiv, List.length_append, hmax, Nat.add_sub_cancel_left] at hg
        rw [hp, encodeLoop_succ, if_neg hge, wire_cons, WirePacket.bytes, hmax, ← hmax, List.take_left,
          List.drop_left, ih hw hnum (by omega), hseq]
      · have hshort : p.body.length ≠ kMaxPayload := by simpa [WirePacket.full] using hfull
        subst hw
        have hbody : (messageOf [p]).payload = p.body := by simp [messageOf]
        rw [hbody, encodeLoop_succ, if_pos (by omega), wire_cons, WirePacket.bytes, hseq]
        exact (List.append_nil _).symm

theorem encodeMessage_of_chain {c : List WirePacket} {s : UInt8} (hw : Whole WirePacket.full c)
    (hnum : Numbered s c) : encodeMessage (messageOf c).payload s = wire c :=
  encodeLoop_of_chain hw hnum (Nat.lt_succ_self _)

/-! ### Framing both ways -/

open MessageReader

/-- The message the encoder's bytes are read as. -/
def framedMessage (ps : Bytes × UInt8) : Message where
  payload := ps.1
  first_seq := ps.2
  last_seq := ps.2 + UInt8.ofNat (ps.1.length / kMaxPayload)
  wire_size := (encodeMessage ps.1 ps.2).length

theorem takeMessage_framed (ps : Bytes × UInt8) (tail : Bytes) :
    takeMessage (encodeMessage ps.1 ps.2 ++ tail) = some (framedMessage ps, tail) := by
  let r : MessageReader := { buf := encodeMessage ps.1 ps.2 ++ tail }
  have hr : r.view = encodeMessage ps.1 ps.2 ++ tail := rfl
  obtain ⟨m, r', hn, htail, hp, hf, hl, hw⟩ := next_of_encodeMessage hr
  have hm : m = framedMessage ps := by
    obtain ⟨payload, first_seq, last_seq, wire_size⟩ := m
    simp only at hp hf hl hw
    rw [hp, hf, hl, hw]
    rfl
  rw [← hr, ← next_view, hn, Option.map_some, view, htail, hm]

/-- The messages of a concatenation, and nothing behind them. -/
theorem split_encoded (ms : List (Bytes × UInt8)) :
    ((packets.split (ms.flatMap fun ps => encodeMessage ps.1 ps.2)).1.map Prod.fst =
      ms.map framedMessage) ∧ (packets.split (ms.flatMap fun ps => encodeMessage ps.1 ps.2)).2 = [] := by
  induction ms with
  | nil => exact ⟨rfl, rfl⟩
  | cons ps ms ih =>
    have ht := takeMessage_framed ps (ms.flatMap fun ps => encodeMessage ps.1 ps.2)
    rw [← packets_take] at ht
    rw [List.flatMap_cons, Framing.split_some ht, List.map_cons, List.map_cons, ih.1]
    exact ⟨rfl, ih.2⟩

/-- What `next` has consumed is a whole chain, and the message is what it carries. -/
theorem next_chain {r r' : MessageReader} {m : Message} (h : r.next = some (m, r')) :
    ∃ c, r.view = wire c ++ r'.view ∧ Whole WirePacket.full c ∧ m = messageOf c := by
  have hv := next_view r
  rw [h, Option.map_some, takeMessage_chain] at hv
  rcases hc : cut WirePacket.full (packetsOf r.view) with _ | ⟨c, cs⟩
  · rw [hc] at hv
    cases hv
  · obtain ⟨hw, rest, hrest, -⟩ := cut_cons hc
    rw [hc, List.head?_cons, Option.map_some, Option.some.injEq, Prod.mk.injEq] at hv
    obtain ⟨rfl, hview⟩ := hv
    refine ⟨c, ?_, hw, rfl⟩
    have hb := wire_packetsOf r.view
    rw [hrest, wire_append, List.append_assoc] at hb
    rw [hview, ← hb, List.drop_left]

/-- Framing is a round trip. The messages of any concatenation of encoded payloads are these payloads,
    each with its start sequence id, the id of its last packet and its size, and nothing is left; and
    where `next` has consumed packets with consecutive ids, the encoder writes these packets again. -/
theorem framing_round_trips :
    (∀ ms : List (Bytes × UInt8),
      let r := ({} : MessageReader).append (ms.flatMap fun ps => encodeMessage ps.1 ps.2)
      r.drain.1 = ms.map framedMessage ∧ r.drain.2.buffered = 0) ∧
    ∀ (r r' : MessageReader) (m : Message), r.next = some (m, r') →
      (∃ c, r.view = wire c ++ r'.view) ∧
      ∀ c, r.view = wire c ++ r'.view → c.IsChain (fun p q => q.seq = p.seq + 1) →
        encodeMessage m.payload m.first_seq = wire c := by
  refine ⟨?_, ?_⟩
  · intro ms r
    have hv : r.view = ms.flatMap fun ps => encodeMessage ps.1 ps.2 := by
      rw [view_append, view_empty, List.nil_append]
    obtain ⟨hread, hleft⟩ := drain_split r
    rw [hv] at hread hleft
    refine ⟨by rw [hread, (split_encoded ms).1], ?_⟩
    rw [← length_view, hleft, (split_encoded ms).2]
    rfl
  · intro r r' m hn
    obtain ⟨c, hview, hw, rfl⟩ := next_chain hn
    refine ⟨⟨c, hview⟩, ?_⟩
    intro c' hview' hchain
    -- a stream has one reading
    obtain rfl : c' = c := wire_injective (List.append_cancel_right (hview'.symm.trans hview))
    rcases c' with _ | ⟨p, c'⟩
    · exact hw.elim
    · exact encodeMessage_of_chain hw (numbered_of_isChain hchain)

/-! ### A stream that is refused -/

/-- A stream that `renumber` refuses is left as it was exactly if the packets in front of what is wrong
    with it are numbered from `s` on already. -/
theorem renumber_refused_iff (b : Bytes) (s : UInt8) :
    ((renumber b s).1 = false → (renumber b s).2 = b) ↔ restOf b = [] ∨ Numbered s (packetsOf b) := by
  have hb := wire_packetsOf b
  rw [renumber_eq]
  dsimp only
  rw [decide_eq_false_iff_not, or_iff_not_imp_left, ← numbered_eq_iff]
  refine imp_congr_right fun _ => ⟨?_, ?_⟩
  · intro h
    exact wire_injective (List.append_cancel_right (h.trans hb.symm))
  · intro h
    rw [h, hb]

/-- A whole packet and then one that breaks off: the first is renumbered before the second is looked at. -/
theorem renumber_half_rewritten :
    renumber [1, 0, 0, 0, 1, 16, 0, 0, 0, 1] 5 = (false, [1, 0, 0, 5, 1, 16, 0, 0, 0, 1]) ∧
      ¬((renumber [1, 0, 0, 0, 1, 16, 0, 0, 0, 1] 5).1 = false →
        (renumber [1, 0, 0, 0, 1, 16, 0, 0, 0, 1] 5).2 = [1, 0, 0, 0, 1, 16, 0, 0, 0, 1]) := by
  decide

/-! ### The packets of a result set -/

theorem add_ofNat_eq_iff (s : UInt8) (n : Nat) : s + UInt8.ofNat n = s ↔ n % 256 = 0 := by
  have hs := s.toNat_lt
  rw [← UInt8.toNat_inj, UInt8.toNat_add, UInt8.toNat_ofNat']
  omega

/-- Packets in step from `s` on are in step from nowhere else. -/
theorem Numbered.unique {s t : UInt8} {ps : List WirePacket} (h : Numbered s ps) (hne : ps ≠ []) :
    Numbered t ps ↔ t = s := by
  obtain ⟨p, ps, rfl⟩ := List.exists_cons_of_ne_nil hne
  refine ⟨?_, ?_⟩
  · intro ht
    rw [← (numbered_cons_iff.mp ht).1, ← (numbered_cons_iff.mp h).1]
  · rintro rfl
    exact h

/-- Framed payloads are packets, in step exactly if no payload but the last has its full packets left
    out of the count. -/
theorem framed_wire (ps : List Bytes) : ∀ s : UInt8, ∃ qs, framed s ps = wire qs ∧
    ∀ t, Numbered t qs ↔
      (ps ≠ [] → t = s) ∧ ∀ p ∈ ps.dropLast, p.length / kMaxPayload % 256 = 0 := by
  induction ps with
  | nil =>
    intro s
    exact ⟨[], rfl, fun t => ⟨fun _ => ⟨fun h => absurd rfl h, by simp⟩, fun _ i p hp => by simp at hp⟩⟩
  | cons p ps ih =>
    intro s
    obtain ⟨c, hc, hnum, hlen⟩ := encodeMessage_chain p s
    obtain ⟨qs, hqs, hih⟩ := ih (s + 1)
    have hne : c ≠ [] := by
      rintro rfl
      simp at hlen
    refine ⟨c ++ qs, by rw [framed, hc, hqs, wire_append], ?_⟩
    intro t
    rw [numbered_append_iff, hnum.unique hne, hlen, hih, add_ofNat_succ]
    rcases ps with _ | ⟨p', ps⟩
    · simp
    · simp only [ne_eq, reduceCtorEq, not_false_eq_true, forall_const, List.dropLast_cons_cons,
        List.forall_mem_cons]
      refine and_congr_right ?_
      rintro rfl
      rw [add_ofNat_eq_iff]

/-- No column and no row of the result set takes full packets, but by the multiple of 256. -/
def ResultSet.OnePacketEach (rs : ResultSet) : Prop :=
  (∀ c ∈ rs.cols, (columnPayload c).length / kMaxPayload % 256 = 0) ∧
    ∀ r ∈ rs.rows, (rowPayload r).length / kMaxPayload % 256 = 0

theorem length_putLenEnc_le (x : Nat) : (putLenEnc x).length ≤ 9 := by
  unfold putLenEnc
  split_ifs <;> simp

/-- The other packets of a response are short. -/
theorem onePacketEach_iff (rs : ResultSet) (caps : UInt32) :
    (∀ p ∈ (responsePayloads rs caps).dropLast, p.length / kMaxPayload % 256 = 0) ↔
      rs.OnePacketEach := by
  have hmax : kMaxPayload = 0xFFFFFF := rfl
  have hcount : (putLenEnc rs.cols.length).length / kMaxPayload % 256 = 0 := by
    have := length_putLenEnc_le rs.cols.length
    rw [Nat.div_eq_of_lt (by omega)]
  have heof : (0xFE :: (putU16 rs.warnings ++ putU16 rs.status)).length / kMaxPayload % 256 = 0 := by
    simp [putU16, hmax]
  rw [responsePayloads, List.dropLast_concat, ResultSet.OnePacketEach]
  simp only [List.cons_append, List.forall_mem_cons, List.forall_mem_append, List.forall_mem_map, hcount,
    true_and]
  split_ifs with hdep
  · simp
  · simp only [List.mem_singleton, forall_eq, heof, and_true]

/-- The packets the encoder of a result set writes, and when they are in step. -/
theorem encodeResultSet_wire (rs : ResultSet) (caps : UInt32) (s : UInt8) :
    encodeResultSet rs caps s = wire (packetsOf (encodeResultSet rs caps s)) ∧
      (Numbered s (packetsOf (encodeResultSet rs caps s)) ↔ rs.OnePacketEach) := by
  obtain ⟨qs, hqs, hnum⟩ := framed_wire (responsePayloads rs caps) s
  rw [encodeResultSet_eq, hqs, (packetsOf_wire_nil qs).1, hnum, onePacketEach_iff]
  exact ⟨rfl, and_iff_right fun _ => rfl⟩

theorem renumber_encoded_iff (rs : ResultSet) (caps : UInt32) (s : UInt8) :
    renumber (encodeResultSet rs caps s) s = (true, encodeResultSet rs caps s) ↔ rs.OnePacketEach := by
  obtain ⟨hwire, hnum⟩ := encodeResultSet_wire rs caps s
  generalize packetsOf (encodeResultSet rs caps s) = qs at hwire hnum
  rw [hwire, renumber_eq, (packetsOf_wire_nil qs).1, (packetsOf_wire_nil qs).2, ← hnum, ← numbered_eq_iff,
    List.append_nil, decide_eq_true rfl, Prod.mk.injEq]
  exact ⟨fun h => wire_injective h.2, fun h => ⟨rfl, congrArg wire h⟩⟩

/-- The packets of a regenerated response are numbered without a gap, and `renumber` has nothing to
    change in it, exactly when the response has one packet for each message. -/
theorem encodeResultSet_numbered_iff (rs : ResultSet) (caps : UInt32) (s : UInt8) :
    encodeResultSet rs caps s = wire (packetsOf (encodeResultSet rs caps s)) ∧
      ((∀ i p, (packetsOf (encodeResultSet rs caps s))[i]? = some p → p.seq = s + UInt8.ofNat i) ↔
        rs.OnePacketEach) ∧
      (renumber (encodeResultSet rs caps s) s = (true, encodeResultSet rs caps s) ↔ rs.OnePacketEach) :=
  ⟨(encodeResultSet_wire rs caps s).1, (encodeResultSet_wire rs caps s).2, renumber_encoded_iff rs caps s⟩

/-- One column and one row, whose only value has 0xFFFFFF bytes. -/
def wideRow : ResultSet :=
  { cols := [⟨[], [], [], [], [110], [], 0, 0, 252, 0, 0⟩], rows := [[some (List.replicate 0xFFFFFF 97)]],
    status := 2, warnings := 0 }

theorem wideRow_not_onePacketEach : ¬ wideRow.OnePacketEach := by
  rintro ⟨-, hrows⟩
  have h := hrows _ (List.mem_singleton.mpr rfl)
  have hlen : (rowPayload [some (List.replicate 0xFFFFFF 97)]).length = 0xFFFFFF + 4 := by
    simp only [rowPayload, List.map_cons, List.map_nil, List.flatten_cons, List.flatten_nil,
      List.append_nil, valuePayload, putLenEncStr, List.length_append, List.length_replicate, putLenEnc]
    simp
  rw [hlen] at h
  exact absurd h (by decide)

/-- The row takes two packets and the terminator repeats the number of the second. -/
theorem encodeResultSet_gap :
    ¬ (∀ i p, (packetsOf (encodeResultSet wideRow 0x01002200 1))[i]? = some p →
        p.seq = 1 + UInt8.ofNat i) ∧
      renumber (encodeResultSet wideRow 0x01002200 1) 1 ≠
        (true, encodeResultSet wideRow 0x01002200 1) := by
  refine ⟨?_, ?_⟩
  · exact fun h => wideRow_not_onePacketEach ((encodeResultSet_wire _ _ _).2.mp h)
  · exact fun h => wideRow_not_onePacketEach ((renumber_encoded_iff _ _ _).mp h)

end Barnacle.Mysql
