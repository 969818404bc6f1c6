import Barnacle.Mysql.Stream

/-! The parser on a list of packets. `parseResultSet` reads a response through a `MessageReader`, so
    the sequence ids, the 16 MiB pieces a payload came in and whatever follows the terminator make no
    difference to it: it is a function of the packets' payloads (`parseResultSet_eq`). -/

namespace Barnacle.Mysql
open Barnacle.Lib

/-- The payloads of the complete messages of a byte stream. -/
def payloads (b : Bytes) : List Bytes := (packets.split b).1.map fun mw => mw.1.payload

theorem payloads_of_take {b rest : Bytes} {m : Message} (h : takeMessage b = some (m, rest)) :
    payloads b = m.payload :: payloads rest := by
  obtain ⟨w, -, rfl⟩ := packets.takes h
  rw [payloads, Framing.split_some (F := packets) h]
  rfl

theorem payloads_of_none {b : Bytes} (h : takeMessage b = none) : payloads b = [] := by
  rw [payloads, Framing.split_none (F := packets) h]
  rfl

theorem payloads_length_le (b : Bytes) : (payloads b).length ≤ b.length := by
  rcases h : takeMessage b with _ | ⟨m, rest⟩
  · rw [payloads_of_none h]
    exact Nat.zero_le _
  · have hlt := Framing.take_length_lt (F := packets) h
    have ih := payloads_length_le rest
    rw [payloads_of_take h, List.length_cons]
    omega
termination_by b.length

/-- What `next` does, in terms of payloads. -/
theorem next_of_payloads (r : MessageReader) :
    (r.next = none ∧ payloads r.view = []) ∨
      ∃ m r', r.next = some (m, r') ∧ payloads r.view = m.payload :: payloads r'.view := by
  rcases h : takeMessage r.view with _ | ⟨m, rest⟩
  · exact .inl ⟨next_of_view_none h, payloads_of_none h⟩
  · obtain ⟨r', hn, rfl⟩ := next_of_view h
    exact .inr ⟨m, r', hn, payloads_of_take h⟩

theorem payloads_framed (s : UInt8) (ps : List Bytes) : payloads (framed s ps) = ps :=
  (split_framed ps s).1

/-! ### The parser's loops over payloads -/

def columnOf (p : Bytes) : Option Column := parseColumn ⟨p, 0, 0, 0⟩

def rowOf (ncols : Nat) (p : Bytes) : Option Row := parseRow ⟨p, 0, 0, 0⟩ ncols

def takeColumns : Nat → List Bytes → List Column → Option (List Column × List Bytes)
  | 0, ps, cols => some (cols, ps)
  | _ + 1, [], _ => none
  | n + 1, p :: ps, cols =>
    match columnOf p with
    | none => none
    | some c => takeColumns n ps (cols ++ [c])

def takeRows (caps : UInt32) (ncols : Nat) :
    List Bytes → List Row → Option (List Row × UInt16 × UInt16)
  | [], _ => none
  | p :: ps, rows =>
    match p[0]? with
    | none => none
    | some h =>
      if h = 0xFF then none
      else if h = 0xFE ∧ p.length < 9 then some (rows, terminatorStatus p caps)
      else
        match rowOf ncols p with
        | none => none
        | some r => takeRows caps ncols ps (rows ++ [r])

def takeBody (caps : UInt32) (ncols : Nat) (ps : List Bytes) : Option ResultSet :=
  match takeColumns ncols ps [] with
  | none => none
  | some (cols, ps) =>
    match (if hasCap caps CLIENT_DEPRECATE_EOF then some ps else ps.tail?) with
    | none => none
    | some ps =>
      match takeRows caps cols.length ps [] with
      | none => none
      | some (rows, status, warnings) => some { cols, rows, status, warnings }

/-- `parseResultSet`, on payloads. -/
def takeResultSet (caps : UInt32) : List Bytes → Option ResultSet
  | [] => none
  | p :: ps =>
    if p = [] then none
    else if classifyResponse p caps ≠ .ResultSet then none
    else
      match readLenEnc p 0 with
      | none => none
      | some (ncols, _) => if ncols = 0 then none else takeBody caps ncols ps

theorem parseColumns_eq (n : Nat) : ∀ (r : MessageReader) (cols : List Column),
    (parseColumns n r cols).map (fun x => (x.1, payloads x.2.view)) =
      takeColumns n (payloads r.view) cols := by
  induction n with
  | zero =>
    intro r cols
    rfl
  | succ n ih =>
    intro r cols
    rw [parseColumns]
    rcases next_of_payloads r with ⟨hn, hp⟩ | ⟨m, r', hn, hp⟩
    · rw [hn, hp]
      rfl
    · have hcol : columnOf m.payload = parseColumn m := rfl
      rw [hn, hp, takeColumns, hcol]
      dsimp only
      rcases parseColumn m with _ | c
      · rfl
      · exact ih r' (cols ++ [c])

theorem parseRows_eq (caps : UInt32) (ncols fuel : Nat) : ∀ (r : MessageReader) (rows : List Row),
    (payloads r.view).length < fuel →
    parseRows caps ncols fuel r rows = takeRows caps ncols (payloads r.view) rows := by
  induction fuel with
  | zero =>
    intro r rows h
    exact absurd h (Nat.not_lt_zero _)
  | succ fuel ih =>
    intro r rows h
    rw [parseRows]
    rcases next_of_payloads r with ⟨hn, hp⟩ | ⟨m, r', hn, hp⟩
    · rw [hn, hp]
      rfl
    · have hrow : rowOf ncols m.payload = parseRow m ncols := rfl
      rw [hp, List.length_cons] at h
      rw [hn, hp, takeRows, hrow]
      dsimp only
      rcases m.payload[0]? with _ | b
      · rfl
      · dsimp only
        split_ifs
        · rfl
        · rfl
        · rcases parseRow m ncols with _ | row
          · rfl
          · exact ih r' (rows ++ [row]) (by omega)

theorem parseBody_eq (caps : UInt32) (ncols : Nat) (r : MessageReader) :
    parseBody caps ncols r = takeBody caps ncols (payloads r.view) := by
  have hrows : ∀ (r : MessageReader) (n : Nat), parseRows caps n (r.buffered + 1) r [] =
      takeRows caps n (payloads r.view) [] := by
    intro r n
    refine parseRows_eq caps n _ r [] ?_
    have := payloads_length_le r.view
    rw [MessageReader.length_view] at this
    omega
  have hcols := parseColumns_eq ncols r []
  rw [parseBody, takeBody, ← hcols]
  rcases parseColumns ncols r [] with _ | ⟨cols, rd⟩
  · rfl
  · simp only [Option.map_some]
    by_cases hdep : hasCap caps CLIENT_DEPRECATE_EOF = true
    · simp only [if_pos hdep]
      generalize hx : parseRows caps cols.length (rd.buffered + 1) rd [] = x
      rw [hrows] at hx
      subst hx
      rfl
    · simp only [if_neg hdep]
      rcases next_of_payloads rd with ⟨hn, hp⟩ | ⟨m, rd', hn, hp⟩
      · rw [hn, hp]
        rfl
      · rw [hn, hp]
        simp only [Option.map_some, List.tail?_cons]
        generalize hx : parseRows caps cols.length (rd'.buffered + 1) rd' [] = x
        rw [hrows] at hx
        subst hx
        rfl

/-- The parser sees the payloads of the packets and nothing else. -/
theorem parseResultSet_eq (b : Bytes) (caps : UInt32) :
    parseResultSet b caps = takeResultSet caps (payloads b) := by
  have hview : (({} : MessageReader).append b).view = b := by
    rw [MessageReader.view_append]
    rfl
  rw [parseResultSet]
  rcases next_of_payloads (({} : MessageReader).append b) with ⟨hn, hp⟩ | ⟨m, rd, hn, hp⟩
  · rw [hview] at hp
    rw [hn, hp]
    rfl
  · rw [hview] at hp
    rw [hn, hp, takeResultSet]
    dsimp only
    split_ifs
    · rfl
    · rfl
    · rcases readLenEnc m.payload 0 with _ | ⟨ncols, n⟩
      · rfl
      · dsimp only
        rw [parseBody_eq]

end Barnacle.Mysql
