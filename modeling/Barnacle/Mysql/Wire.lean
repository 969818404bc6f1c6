import Barnacle.Mysql.Chunks

/-! A byte stream as wire packets, below the messages. `wire` writes a list of packets out, `takePacket`
    takes the first one off, and the two are inverse, so a stream has one reading: some packets, and
    bytes behind them that are not a whole packet.

        stream  =  header body │ header body │ … │ a header or a body that breaks off

    In these terms `renumber` numbers the packets and leaves the rest (`renumber_eq`), and the reader's
    messages are the chains of packets (`messagesOf_chains`), whose payloads are made of bodies. -/

namespace Barnacle.Mysql
open Barnacle.Lib

/-- One wire packet. Its length is written in three bytes. -/
structure WirePacket where
  seq : UInt8
  body : Bytes
  fits : body.length ≤ kMaxPayload

namespace WirePacket

def bytes (p : WirePacket) : Bytes := leBytes 3 p.body.length ++ p.seq :: p.body

theorem length_bytes (p : WirePacket) : p.bytes.length = kHeaderLen + p.body.length := by
  simp only [bytes, List.length_append, length_leBytes, List.length_cons, kHeaderLen]
  omega

theorem bytes_ne_nil (p : WirePacket) : p.bytes ≠ [] := by
  simp [bytes]

/-- The packet with another sequence id. -/
def withSeq (p : WirePacket) (s : UInt8) : WirePacket := { p with seq := s }

@[simp] theorem withSeq_withSeq (p : WirePacket) (s t : UInt8) :
    (p.withSeq s).withSeq t = p.withSeq t := rfl

@[simp] theorem withSeq_body (p : WirePacket) (s : UInt8) : (p.withSeq s).body = p.body := rfl

/-- A full packet, which the message goes on behind. -/
def full (p : WirePacket) : Bool := p.body.length = kMaxPayload

end WirePacket

/-- The packets one after another. -/
def wire (ps : List WirePacket) : Bytes := ps.flatMap WirePacket.bytes

theorem wire_cons (p : WirePacket) (ps : List WirePacket) : wire (p :: ps) = p.bytes ++ wire ps :=
  List.flatMap_cons

theorem wire_append (ps qs : List WirePacket) : wire (ps ++ qs) = wire ps ++ wire qs :=
  List.flatMap_append

/-! ### One reading -/

theorem declared_fits (b : Bytes) : ((b.drop kHeaderLen).take (leAt b 0 3)).length ≤ kMaxPayload := by
  have hlt : leAt b 0 3 < 256 ^ 3 := leAt_lt b 0 3
  have hmax : kMaxPayload + 1 = 256 ^ 3 := rfl
  rw [List.length_take]
  omega

/-- The first packet of a stream, if its header and the body that declares are all there. -/
def takePacket (b : Bytes) : Option (WirePacket × Bytes) :=
  if b.length < kHeaderLen then none
  else if b.length - kHeaderLen < leAt b 0 3 then none
  else some (⟨b.getD 3 0, (b.drop kHeaderLen).take (leAt b 0 3), declared_fits b⟩,
    b.drop (kHeaderLen + leAt b 0 3))

theorem takePacket_bytes (p : WirePacket) (rest : Bytes) :
    takePacket (p.bytes ++ rest) = some (p, rest) := by
  have hat : PacketAt (p.bytes ++ rest) 0 p.seq p.body rest := packetAt_of_drop p.fits rfl
  obtain ⟨seq, body, fits⟩ := p
  have hlen : (WirePacket.bytes ⟨seq, body, fits⟩ ++ rest).length =
      kHeaderLen + body.length + rest.length := by
    rw [List.length_append, WirePacket.length_bytes]
  generalize WirePacket.bytes ⟨seq, body, fits⟩ ++ rest = b at hat hlen ⊢
  obtain ⟨-, hplen, hseq, hbody, htail⟩ := hat
  dsimp only at hplen hseq hbody htail
  have h1 : ¬ b.length < kHeaderLen := by omega
  have h2 : ¬ b.length - kHeaderLen < leAt b 0 3 := by rw [hplen]; omega
  rw [Nat.zero_add, ← hplen] at hbody htail
  rw [Nat.zero_add] at hseq
  rw [takePacket, if_neg h1, if_neg h2, Option.some.injEq, Prod.mk.injEq, WirePacket.mk.injEq]
  exact ⟨⟨hseq, hbody⟩, htail⟩

/-- Taking a packet off is the inverse of writing one in front. -/
theorem takePacket_eq_some_iff {b rest : Bytes} {p : WirePacket} :
    takePacket b = some (p, rest) ↔ b = p.bytes ++ rest := by
  refine ⟨?_, ?_⟩
  · intro h
    rw [takePacket] at h
    split_ifs at h with h1 h2
    rw [Option.some.injEq, Prod.mk.injEq] at h
    obtain ⟨rfl, rfl⟩ := h
    have hk : kHeaderLen = 4 := rfl
    have hbody : ((b.drop kHeaderLen).take (leAt b 0 3)).length = leAt b 0 3 := by
      rw [List.length_take, List.length_drop]
      omega
    -- the three length bytes, the sequence id and the body
    have hlen3 : (b.take 3).length = 3 := by rw [List.length_take]; omega
    have hhead : leBytes 3 (leAt b 0 3) = b.take 3 := by
      have := leBytes_leVal (b.take 3)
      rwa [hlen3] at this
    have hseq : b.drop 3 = b.getD 3 0 :: b.drop kHeaderLen := by
      rw [List.getD_eq_getElem _ _ (by omega : 3 < b.length)]
      exact List.drop_eq_getElem_cons (by omega)
    rw [WirePacket.bytes, hbody, hhead, List.append_assoc, List.cons_append, ← List.drop_drop,
      List.take_append_drop, ← hseq, List.take_append_drop]
  · rintro rfl
    exact takePacket_bytes p rest

/-- The framing of a byte stream into packets. -/
def wirePackets : Framing UInt8 WirePacket where
  take := takePacket
  takes {b p rest} h := ⟨p.bytes, p.bytes_ne_nil, takePacket_eq_some_iff.mp h⟩
  stable {b p rest} x h := by
    rw [takePacket_eq_some_iff.mp h, List.append_assoc]
    exact takePacket_bytes p (rest ++ x)

@[simp] theorem wirePackets_take (b : Bytes) : wirePackets.take b = takePacket b := rfl

/-- The whole packets of a stream. -/
def packetsOf (b : Bytes) : List WirePacket := (wirePackets.split b).1.map Prod.fst

/-- The bytes behind them. -/
def restOf (b : Bytes) : Bytes := (wirePackets.split b).2

theorem packetsOf_none {b : Bytes} (h : takePacket b = none) : packetsOf b = [] ∧ restOf b = b := by
  rw [packetsOf, restOf, Framing.split_none (F := wirePackets) h]
  exact ⟨rfl, rfl⟩

theorem packetsOf_cons (p : WirePacket) (b : Bytes) :
    packetsOf (p.bytes ++ b) = p :: packetsOf b ∧ restOf (p.bytes ++ b) = restOf b := by
  have ht := takePacket_bytes p b
  rw [← wirePackets_take] at ht
  rw [packetsOf, restOf, Framing.split_some ht]
  exact ⟨rfl, rfl⟩

theorem takePacket_restOf (b : Bytes) : takePacket (restOf b) = none :=
  Framing.take_split_rest (F := wirePackets) b

/-- The reading of packets with something behind them that is no packet. -/
theorem packetsOf_wire {tail : Bytes} (ht : takePacket tail = none) (ps : List WirePacket) :
    packetsOf (wire ps ++ tail) = ps ∧ restOf (wire ps ++ tail) = tail := by
  induction ps with
  | nil => exact packetsOf_none ht
  | cons p ps ih =>
    obtain ⟨hp, hr⟩ := packetsOf_cons p (wire ps ++ tail)
    rw [wire_cons, List.append_assoc, hp, hr, ih.1, ih.2]
    exact ⟨rfl, rfl⟩

theorem takePacket_nil : takePacket [] = none := rfl

theorem packetsOf_wire_nil (ps : List WirePacket) : packetsOf (wire ps) = ps ∧ restOf (wire ps) = [] := by
  have h := packetsOf_wire takePacket_nil ps
  rwa [List.append_nil] at h

theorem wire_injective {ps qs : List WirePacket} (h : wire ps = wire qs) : ps = qs := by
  rw [← (packetsOf_wire_nil ps).1, h, (packetsOf_wire_nil qs).1]

/-- A stream is its packets and the rest. -/
theorem wire_packetsOf (b : Bytes) : wire (packetsOf b) ++ restOf b = b := by
  rcases h : takePacket b with _ | ⟨p, rest⟩
  · obtain ⟨hp, hr⟩ := packetsOf_none h
    rw [hp, hr]
    rfl
  · have hlt := Framing.take_length_lt (F := wirePackets) h
    obtain rfl := takePacket_eq_some_iff.mp h
    obtain ⟨hp, hr⟩ := packetsOf_cons p rest
    rw [hp, hr, wire_cons, List.append_assoc, wire_packetsOf rest]
termination_by b.length

/-- A stream is a concatenation of packets if nothing is left. -/
theorem restOf_eq_nil_iff (b : Bytes) : restOf b = [] ↔ ∃ ps, b = wire ps := by
  refine ⟨?_, ?_⟩
  · intro h
    refine ⟨packetsOf b, ?_⟩
    have := wire_packetsOf b
    rw [h, List.append_nil] at this
    exact this.symm
  · rintro ⟨ps, rfl⟩
    exact (packetsOf_wire_nil ps).2

/-! ### Renumbering -/

/-- The packets numbered from `s` on. -/
def numbered (s : UInt8) (ps : List WirePacket) : List WirePacket :=
  ps.mapIdx fun i p => p.withSeq (s + UInt8.ofNat i)

theorem numbered_nil (s : UInt8) : numbered s [] = [] := rfl

/-- The number of the next packet, counted from the second. -/
theorem add_ofNat_succ (s : UInt8) (i : Nat) : s + UInt8.ofNat (i + 1) = s + 1 + UInt8.ofNat i := by
  rw [Nat.add_comm, UInt8.ofNat_add, UInt8.add_assoc]
  rfl

theorem numbered_cons (s : UInt8) (p : WirePacket) (ps : List WirePacket) :
    numbered s (p :: ps) = p.withSeq s :: numbered (s + 1) ps := by
  rw [numbered, numbered, List.mapIdx_cons]
  simp only [add_ofNat_succ]
  congr 2
  exact UInt8.add_zero s

theorem numbered_numbered (s t : UInt8) (ps : List WirePacket) :
    numbered t (numbered s ps) = numbered t ps := by
  simp [numbered, Function.comp_def]

theorem numbered_bodies (s : UInt8) (ps : List WirePacket) :
    (numbered s ps).map WirePacket.body = ps.map WirePacket.body := by
  induction ps generalizing s with
  | nil => rfl
  | cons p ps ih =>
    rw [numbered_cons, List.map_cons, List.map_cons, ih]
    rfl

/-- Overwriting the fourth byte of a packet gives it another sequence id. -/
theorem set_seq (pre : Bytes) (p : WirePacket) (rest : Bytes) (s : UInt8) :
    (pre ++ (p.bytes ++ rest)).set (pre.length + 3) s = pre ++ ((p.withSeq s).bytes ++ rest) := by
  have hlen : (leBytes 3 p.body.length).length = 3 := length_leBytes 3 _
  simp only [WirePacket.bytes, WirePacket.withSeq, List.append_assoc, List.cons_append]
  rw [List.set_append_right _ _ (by omega), Nat.add_sub_cancel_left,
    List.set_append_right _ _ (by omega), hlen]
  rfl

/-- The loop at a packet boundary: every whole packet from there is numbered, and the loop fails at
    what is left. Induction on the rounds. -/
theorem renumberLoop_eq (fuel : Nat) : ∀ (pre b : Bytes) (s : UInt8), b.length < kHeaderLen * fuel →
    renumberLoop fuel (pre ++ b) pre.length s =
      (decide (restOf b = []), pre ++ (wire (numbered s (packetsOf b)) ++ restOf b)) := by
  induction fuel with
  | zero =>
    intro pre b s h
    exact absurd h (Nat.not_lt_zero _)
  | succ fuel ih =>
    intro pre b s h
    have hk : kHeaderLen = 4 := rfl
    have hlen : (pre ++ b).length = pre.length + b.length := List.length_append
    have hat : leAt (pre ++ b) pre.length 3 = leAt b 0 3 := MessageReader.leAt_shift pre b 0 3
    rw [renumberLoop]
    dsimp only
    rw [hat]
    rcases ht : takePacket b with _ | ⟨p, rest⟩
    · -- no packet: the end of the stream, or bytes that are none
      obtain ⟨hp, hr⟩ := packetsOf_none ht
      rw [hp, hr, numbered_nil]
      rcases b with _ | ⟨x, b⟩
      · rw [if_neg (by rw [hlen, List.length_nil]; omega), List.append_nil]
        simp [wire]
      · rw [takePacket] at ht
        split_ifs at ht with h1 h2
        · rw [if_pos (by rw [hlen, List.length_cons]; omega), if_pos (by rw [hlen]; omega)]
          simp [wire]
        · rw [if_pos (by rw [hlen, List.length_cons]; omega), if_neg (by rw [hlen]; omega),
            if_pos (by rw [hlen]; omega)]
          simp [wire]
    · obtain rfl := takePacket_eq_some_iff.mp ht
      have hplen : leAt (p.bytes ++ rest) 0 3 = p.body.length := (packetAt_of_drop p.fits rfl).plen
      have hpl : (p.bytes ++ rest).length = kHeaderLen + p.body.length + rest.length := by
        rw [List.length_append, p.length_bytes]
      rw [hk] at h
      obtain ⟨hp, hr⟩ := packetsOf_cons p rest
      have hpre : (pre ++ (p.withSeq s).bytes).length = pre.length + (kHeaderLen + p.body.length) := by
        rw [List.length_append, WirePacket.length_bytes, WirePacket.withSeq_body]
      rw [if_pos (by omega), if_neg (by omega), hplen, if_neg (by omega), set_seq, ← List.append_assoc,
        ← hpre, ih _ _ _ (by rw [hk]; omega), hp, hr, numbered_cons, wire_cons]
      simp only [List.append_assoc]

/-- `renumber` numbers the packets of a stream, and fails if there is anything else in it. -/
theorem renumber_eq (b : Bytes) (s : UInt8) :
    renumber b s = (decide (restOf b = []), wire (numbered s (packetsOf b)) ++ restOf b) := by
  have hk : kHeaderLen = 4 := rfl
  exact renumberLoop_eq (b.length / kHeaderLen + 1) [] b s (by rw [hk]; omega)

/-! ### Messages -/

/-- The message a chain of packets carries. -/
def messageOf (c : List WirePacket) : Message where
  payload := c.flatMap WirePacket.body
  first_seq := (c.map WirePacket.seq).headD 0
  last_seq := (c.map WirePacket.seq).getLastD 0
  wire_size := (wire c).length

theorem messageOf_cons (p : WirePacket) {c : List WirePacket} (hc : c ≠ []) :
    messageOf (p :: c) =
      { payload := p.body ++ (messageOf c).payload, first_seq := p.seq,
        last_seq := (messageOf c).last_seq, wire_size := p.bytes.length + (messageOf c).wire_size } := by
  obtain ⟨q, c, rfl⟩ := List.exists_cons_of_ne_nil hc
  simp only [messageOf, List.flatMap_cons, wire_cons, List.length_append, List.map_cons, Message.mk.injEq,
    true_and, and_true]
  exact ⟨rfl, by simp⟩

theorem nextLoop_none {b : Bytes} {pos : Nat} (h : takePacket (b.drop pos) = none) (start : Nat) :
    ∀ (fuel : Nat) (acc : Bytes) (first : Option UInt8),
      MessageReader.nextLoop b start fuel pos acc first = none := by
  rintro (_ | fuel) acc first
  · rfl
  · have hat : leAt (b.drop pos) 0 3 = leAt b pos 3 := by rw [leAt, leAt, List.drop_zero]
    rw [takePacket] at h
    rw [MessageReader.nextLoop]
    dsimp only
    split_ifs at h with h1 h2
    · rw [List.length_drop] at h1
      rw [if_pos h1]
    · rw [List.length_drop] at h1 h2
      rw [hat] at h2
      rw [if_neg h1, if_pos h2]

/-- The loop of `next` goes over the packets of the first chain. Induction on the packets there are. -/
theorem nextLoop_wire {b tail : Bytes} (start : Nat) (htail : takePacket tail = none)
    (ps : List WirePacket) : ∀ {pos fuel : Nat} (acc : Bytes) (first : Option UInt8),
    b.drop pos = wire ps ++ tail → ps.length < fuel →
    MessageReader.nextLoop b start fuel pos acc first =
      (cut WirePacket.full ps).head?.map fun c =>
        ({ payload := acc ++ (messageOf c).payload, first_seq := first.getD (messageOf c).first_seq,
           last_seq := (messageOf c).last_seq, wire_size := pos + (messageOf c).wire_size - start },
          pos + (messageOf c).wire_size) := by
  induction ps with
  | nil =>
    intro pos fuel acc first h _
    exact nextLoop_none (by rw [h]; exact htail) start fuel acc first
  | cons p ps ih =>
    rintro pos (_ | fuel) acc first h hf
    · exact absurd hf (Nat.not_lt_zero _)
    · have hat : PacketAt b pos p.seq p.body (wire ps ++ tail) := by
        refine packetAt_of_drop p.fits ?_
        rw [h, wire_cons, List.append_assoc]
        rfl
      have hlen := p.length_bytes
      rw [nextLoop_packet hat, cut]
      rcases hfull : p.full with _ | _
      · have hshort : p.body.length ≠ kMaxPayload := by simpa [WirePacket.full] using hfull
        rw [if_neg hshort]
        simp [messageOf, wire, hlen]
      · have hmax : p.body.length = kMaxPayload := by simpa [WirePacket.full] using hfull
        rw [if_pos hmax, ih (acc ++ p.body) _ hat.tail (by rw [List.length_cons] at hf; omega)]
        rcases hc : cut WirePacket.full ps with _ | ⟨c, cs⟩
        · rfl
        · have hne : c ≠ [] := by
            rintro rfl
            exact (cut_cons hc).1
          simp only [if_true, List.head?_cons, Option.map_some, messageOf_cons p hne, hlen,
            List.append_assoc, Nat.add_assoc, Option.getD_some]

/-- The first message of a stream is its first chain of packets. -/
theorem takeMessage_chain (b : Bytes) :
    takeMessage b = (cut WirePacket.full (packetsOf b)).head?.map fun c =>
      (messageOf c, b.drop (wire c).length) := by
  have hb := wire_packetsOf b
  have hfuel : (packetsOf b).length < b.length + 1 := by
    have hle : (packetsOf b).length ≤ (wire (packetsOf b)).length := by
      induction packetsOf b with
      | nil => exact Nat.zero_le _
      | cons p ps ih =>
        have := p.length_bytes
        have hk : kHeaderLen = 4 := rfl
        rw [wire_cons, List.length_append, List.length_cons]
        omega
    have := congrArg List.length hb
    rw [List.length_append] at this
    omega
  rw [takeMessage, nextLoop_wire 0 (takePacket_restOf b) (packetsOf b) [] none (by rw [hb]; rfl) hfuel,
    Option.map_map]
  congr 1
  funext c
  simp [messageOf]

/-- The messages the reader yields are the chains of the stream's packets. -/
theorem messagesOf_chains (b : Bytes) :
    MessageReader.messagesOf b = (cut WirePacket.full (packetsOf b)).map messageOf := by
  have htake := takeMessage_chain b
  rcases hc : cut WirePacket.full (packetsOf b) with _ | ⟨c, cs⟩
  · rw [hc] at htake
    rw [MessageReader.messagesOf_of_none htake]
    rfl
  · rw [hc, List.head?_cons, Option.map_some] at htake
    have hlt := Framing.take_length_lt (F := packets) htake
    -- the packets behind the first chain are those of the bytes behind the first message
    obtain ⟨-, rest, hrest, hcs⟩ := cut_cons hc
    have hdrop : b.drop (wire c).length = wire rest ++ restOf b := by
      conv_lhs => rw [← wire_packetsOf b, hrest, wire_append, List.append_assoc]
      exact List.drop_left
    have ih := messagesOf_chains (b.drop (wire c).length)
    rw [hdrop, (packetsOf_wire (takePacket_restOf b) rest).1, hcs, ← hdrop] at ih
    rw [MessageReader.messagesOf_of_take htake, ih, List.map_cons]
termination_by b.length
decreasing_by exact hlt

/-- Payloads are made of bodies, so other sequence ids do not show in them. -/
theorem payloads_of_bodies {b b' : Bytes}
    (h : (packetsOf b).map WirePacket.body = (packetsOf b').map WirePacket.body) :
    (MessageReader.messagesOf b).map Message.payload = (MessageReader.messagesOf b').map Message.payload := by
  have hbodies : ∀ ps : List WirePacket, ((cut WirePacket.full ps).map messageOf).map Message.payload =
      (cut (fun body : Bytes => decide (body.length = kMaxPayload)) (ps.map WirePacket.body)).map
        List.flatten := by
    intro ps
    rw [cut_map, List.map_map, List.map_map]
    rfl
  rw [messagesOf_chains, messagesOf_chains, hbodies, hbodies, h]

/-- `renumber` accepts exactly the concatenations of whole packets. The packets come out as they were
    but for their sequence ids, which count up from `s`; so the reader finds the same payloads in the
    stream, and a second renumbering undoes the first. -/
theorem renumber_correct (b : Bytes) (s : UInt8) :
    ((renumber b s).1 = true ↔ ∃ ps, b = wire ps) ∧
      (∀ ps, b = wire ps →
        (renumber b s).2 = wire (ps.mapIdx fun i p => p.withSeq (s + UInt8.ofNat i))) ∧
      (MessageReader.messagesOf (renumber b s).2).map Message.payload =
        (MessageReader.messagesOf b).map Message.payload ∧
      ∀ t, renumber (renumber b s).2 t = renumber b t := by
  have hout := packetsOf_wire (takePacket_restOf b) (numbered s (packetsOf b))
  refine ⟨?_, ?_, ?_, ?_⟩
  · rw [renumber_eq, decide_eq_true_iff, restOf_eq_nil_iff]
  · rintro ps rfl
    rw [renumber_eq, (packetsOf_wire_nil ps).1, (packetsOf_wire_nil ps).2, List.append_nil]
    rfl
  · rw [renumber_eq]
    refine payloads_of_bodies ?_
    rw [hout.1, numbered_bodies]
  · intro t
    rw [renumber_eq b s]
    dsimp only
    rw [renumber_eq, hout.1, hout.2, numbered_numbered, ← renumber_eq]

-- two packets, the second one empty, and one that breaks off behind them
example :
    let b := wire [⟨7, [1, 2], by decide⟩, ⟨9, [], by decide⟩]
    (renumber b 0xFF).2 = wire [⟨0xFF, [1, 2], by decide⟩, ⟨0, [], by decide⟩] ∧
      (renumber (b ++ [1, 0, 0, 0]) 0xFF).1 = false := by
  decide

end Barnacle.Mysql
