import Barnacle.Tool.Config

/-! What a configuration file means, as a whole: `loadConfig_eq`.

    Every setting has the last value that is given to it in its part of the file, or its default; the
    part of the globals ends at the first header, and the part of a target at the next one. A target
    starts out with the port and the TTL of the globals. Whether a line is wrong depends on the line
    and on the target it stands in (`wrong`), and the first wrong line is the one that is reported,
    whatever comes after it.

    The lines are followed one by one: `line_meaning` is one line, `loadLines_meaning` all of them. -/

namespace Barnacle.Tool
open Barnacle.Lib Barnacle.Lib.Text

/-! ### The parts of a file -/

def Line.isHeader : Line → Bool
  | .header _ => true
  | _ => false

/-- The value a line gives to a key. -/
def Line.value? (key : List Char) : Line → Option (List Char)
  | .assign k val => if k = key then some val else none
  | _ => none

def lastValue (key : List Char) (ls : List Line) : Option (List Char) := (ls.filterMap (Line.value? key)).getLast?

def globalPart (ls : List Line) : List Line := ls.takeWhile (!·.isHeader)

/-- The headers, each with the lines up to the next one. -/
def sections : List Line → List (List Char × List Line)
  | [] => []
  | l :: ls =>
    match l with
    | .header inner => (inner, globalPart ls) :: sections ls
    | _ => sections ls

/-! ### Meaning -/

section
variable (u : Unicode)

def globals (ls : List Line) : Config where
  valkey_host := (lastValue GlobalKey.valkey_host.name ls).getD "valkey".toList
  valkey_port := ((lastValue GlobalKey.valkey_port.name ls).bind (integer u)).getD 6379
  statements := (lastValue GlobalKey.statements.name ls).getD []
  ttl := ((lastValue GlobalKey.ttl.name ls).bind (integer u)).getD 60
  pipes := ((lastValue GlobalKey.pipes.name ls).bind (integer u)).getD 0
  mysql_port := ((lastValue GlobalKey.mysql_port.name ls).bind (integer u)).getD 3306
  local_cache := ((lastValue GlobalKey.local_cache.name ls).bind parseBool).getD true

def targetName (inner : List Char) : List Char := strip (inner.drop targetWord.length)

def targetOf (g : Config) (inner : List Char) (ls : List Line) : Target where
  name := targetName inner
  bin := (lastValue TargetKey.bin.name ls).getD []
  cmdline := (lastValue TargetKey.cmdline.name ls).getD []
  container := (lastValue TargetKey.container.name ls).getD []
  mysql_port := ((lastValue TargetKey.mysql_port.name ls).bind (integer u)).getD g.mysql_port
  statements := (lastValue TargetKey.statements.name ls).getD []
  ttl := ((lastValue TargetKey.ttl.name ls).bind (integer u)).getD g.ttl

def meaning (ls : List Line) : Config :=
  { globals u (globalPart ls) with
    targets := (sections ls).map fun s => targetOf u (globals u (globalPart ls)) s.1 s.2 }

/-! ### What is wrong with a line -/

def GlobalKey.accepts (val : List Char) : GlobalKey → Bool
  | .valkey_host | .statements => true
  | .local_cache => (parseBool val).isSome
  | .valkey_port | .ttl | .pipes | .mysql_port => (integer u val).isSome

def TargetKey.accepts (val : List Char) : TargetKey → Bool
  | .bin | .cmdline | .container | .statements => true
  | .mysql_port | .ttl => (integer u val).isSome

/-- In the part of the globals (`none`) or of a target. -/
def wrong (cur : Option (List Char)) (lineno : Nat) : Line → Option ConfigError
  | .blank => none
  | .header inner => if targetWord.isPrefixOf inner then none else some (.unknownSection lineno inner)
  | .other => some (.expected lineno)
  | .assign key val =>
    match cur, GlobalKey.ofName key, TargetKey.ofName key with
    | none, none, _ => some (.unknownKey lineno key)
    | none, some k, _ => if k.accepts u val then none else some (notA k lineno val)
    | some _, _, some k => if k.accepts u val then none else some (.literal val)
    | some target, some _, none => some (.global lineno key target)
    | some _, none, none => some (.unknownKey lineno key)

/-- The target that a line behind `before` stands in. -/
def current (before : List Line) : Option (List Char) := (sections before).getLast?.map fun s => targetName s.1

/-- The first wrong line among those that follow `before`. -/
def firstWrong : List Line → List Line → Option ConfigError
  | _, [] => none
  | before, l :: ls => (wrong u (current before) (before.length + 1) l).or (firstWrong (before ++ [l]) ls)

end

/-! ### One more line -/

section
variable {u : Unicode}

theorem lastValue_concat (key : List Char) (ls : List Line) (l : Line) :
    lastValue key (ls ++ [l]) = (l.value? key).or (lastValue key ls) := by
  rw [lastValue, List.filterMap_append]
  cases h : l.value? key with
  | none => simp [lastValue, h]
  | some v => simp [h]

theorem sections_eq_nil_iff {ls : List Line} : sections ls = [] ↔ ∀ l ∈ ls, l.isHeader = false := by
  induction ls with
  | nil => simp [sections]
  | cons l ls ih => cases l <;> simp [sections, Line.isHeader, ih]

theorem globalPart_of_none {ls : List Line} (h : sections ls = []) : globalPart ls = ls := by
  rw [globalPart, List.takeWhile_eq_self_iff]
  simpa using sections_eq_nil_iff.mp h

/-- A header, or another line before the first one. -/
theorem globalPart_concat {ls : List Line} (l : Line) (h : sections ls = []) :
    globalPart (ls ++ [l]) = if l.isHeader then ls else ls ++ [l] := by
  rw [globalPart, List.takeWhile_append_of_pos (by simpa using sections_eq_nil_iff.mp h)]
  cases hl : l.isHeader <;> simp [hl]

theorem globalPart_concat_of_ne {ls : List Line} (l : Line) (h : sections ls ≠ []) :
    globalPart (ls ++ [l]) = globalPart ls := by
  induction ls with
  | nil => exact absurd rfl h
  | cons a ls ih =>
    cases a with
    | header inner => rfl
    | _ =>
      rw [List.cons_append, globalPart, List.takeWhile_cons_of_pos rfl, globalPart,
        List.takeWhile_cons_of_pos rfl]
      exact congrArg _ (ih h)

theorem sections_header (ls : List Line) (inner : List Char) :
    sections (ls ++ [.header inner]) = sections ls ++ [(inner, [])] := by
  induction ls with
  | nil => rfl
  | cons a ls ih =>
    cases a with
    | header i =>
      simp only [List.cons_append, sections, ih]
      congr 2
      by_cases h : sections ls = []
      · rw [globalPart_concat _ h, globalPart_of_none h]
        rfl
      · exact globalPart_concat_of_ne _ h
    | _ => exact ih

/-- A line that is no header goes to the last section. -/
theorem sections_concat {l : Line} (hl : l.isHeader = false) {ls : List Line} :
    sections (ls ++ [l]) = (sections ls).dropLast ++ (sections ls).getLast?.toList.map fun s => (s.1, s.2 ++ [l]) := by
  induction ls with
  | nil => cases l <;> first | rfl | cases hl
  | cons a ls ih =>
    cases a with
    | header inner =>
      simp only [List.cons_append, sections, ih]
      by_cases h : sections ls = []
      · rw [globalPart_concat _ h, globalPart_of_none h, h]
        simp [hl]
      · rw [globalPart_concat_of_ne _ h, List.dropLast_cons_of_ne_nil h, List.getLast?_cons_of_ne_nil h]
        rfl
    | _ => exact ih

/-! ### Names of settings -/

theorem GlobalKey.name_injective {j k : GlobalKey} (h : j.name = k.name) : j = k := by
  cases j <;> cases k <;> first | rfl | exact absurd h (by decide)

theorem TargetKey.name_injective {j k : TargetKey} (h : j.name = k.name) : j = k := by
  cases j <;> cases k <;> first | rfl | exact absurd h (by decide)

theorem GlobalKey.eq_name {key : List Char} {k : GlobalKey} (h : GlobalKey.ofName key = some k) : key = k.name := by
  have hk := List.find?_some h
  exact (of_decide_eq_true hk).symm

theorem TargetKey.eq_name {key : List Char} {k : TargetKey} (h : TargetKey.ofName key = some k) : key = k.name := by
  have hk := List.find?_some h
  exact (of_decide_eq_true hk).symm

@[simp] theorem value?_global (j k : GlobalKey) (val : List Char) :
    (Line.assign k.name val).value? j.name = if j = k then some val else none := by
  by_cases h : j = k
  · simp [Line.value?, h]
  · rw [Line.value?, if_neg fun e => h (GlobalKey.name_injective e).symm, if_neg h]

@[simp] theorem value?_target (j k : TargetKey) (val : List Char) :
    (Line.assign k.name val).value? j.name = if j = k then some val else none := by
  by_cases h : j = k
  · simp [Line.value?, h]
  · rw [Line.value?, if_neg fun e => h (TargetKey.name_injective e).symm, if_neg h]

/-- Setting is having one more line, and fails where the value is not accepted. -/
theorem set_globals (ls : List Line) (val : List Char) (k : GlobalKey) :
    (globals u ls).set u val k =
      if k.accepts u val then some (globals u (ls ++ [.assign k.name val])) else none := by
  cases k with
  | valkey_host | statements => simp [Config.set, GlobalKey.accepts, globals, lastValue_concat]
  | local_cache => cases h : parseBool val <;> simp [Config.set, GlobalKey.accepts, globals, lastValue_concat, h]
  | valkey_port | ttl | pipes | mysql_port =>
    cases h : integer u val <;> simp [Config.set, GlobalKey.accepts, globals, lastValue_concat, h]

theorem set_targetOf (g : Config) (inner : List Char) (ls : List Line) (val : List Char) (k : TargetKey) :
    (targetOf u g inner ls).set u val k =
      if k.accepts u val then some (targetOf u g inner (ls ++ [.assign k.name val])) else none := by
  cases k with
  | bin | cmdline | container | statements =>
    simp [Target.set, TargetKey.accepts, targetOf, lastValue_concat]
  | mysql_port | ttl => cases h : integer u val <;> simp [Target.set, TargetKey.accepts, targetOf, lastValue_concat, h]

/-! ### One line -/

theorem meaning_of_none {ls : List Line} (h : sections ls = []) : meaning u ls = globals u ls := by
  rw [meaning, globalPart_of_none h, h]
  rfl

theorem meaning_concat_of_none {ls : List Line} {l : Line} (h : sections ls = []) (hl : l.isHeader = false) :
    meaning u (ls ++ [l]) = globals u (ls ++ [l]) :=
  meaning_of_none (by rw [sections_concat hl, h]; rfl)

theorem meaning_header (ls : List Line) (inner : List Char) :
    meaning u (ls ++ [.header inner]) = { meaning u ls with
      targets := (meaning u ls).targets ++ [targetOf u (globals u (globalPart ls)) inner []] } := by
  have hg : globalPart (ls ++ [.header inner]) = globalPart ls := by
    by_cases h : sections ls = []
    · rw [globalPart_concat _ h, globalPart_of_none h]
      rfl
    · exact globalPart_concat_of_ne _ h
  simp [meaning, hg, sections_header]

/-- A line of the last target. -/
theorem meaning_concat {ls : List Line} {l : Line} {before : List (List Char × List Line)}
    {s : List Char × List Line} (h : sections ls = before ++ [s]) (hl : l.isHeader = false) :
    meaning u (ls ++ [l]) = { meaning u ls with
      targets := (meaning u ls).targets.dropLast ++ [targetOf u (globals u (globalPart ls)) s.1 (s.2 ++ [l])] } := by
  rw [meaning, meaning, globalPart_concat_of_ne l (by simp [h]), sections_concat hl, h]
  simp

theorem getLast?_targets {ls : List Line} {before : List (List Char × List Line)} {s : List Char × List Line}
    (h : sections ls = before ++ [s]) :
    (meaning u ls).targets.getLast? = some (targetOf u (globals u (globalPart ls)) s.1 s.2) := by
  simp [meaning, h]

/-- A blank line means nothing. -/
theorem meaning_blank (ls : List Line) : meaning u (ls ++ [.blank]) = meaning u ls := by
  rcases List.eq_nil_or_concat (sections ls) with h | ⟨before, s, h⟩
  · rw [meaning_concat_of_none h rfl, meaning_of_none h]
    simp [globals, lastValue_concat, Line.value?]
  · rw [List.concat_eq_append] at h
    have ht : targetOf u (globals u (globalPart ls)) s.1 (s.2 ++ [.blank]) =
        targetOf u (globals u (globalPart ls)) s.1 s.2 := by
      simp [targetOf, lastValue_concat, Line.value?]
    rw [meaning_concat h rfl, ht, List.dropLast_append_getLast?]
    exact getLast?_targets h

/-- One line more, unless it is wrong. -/
theorem line_meaning (ls : List Line) (l : Line) : (meaning u ls).line u (ls.length + 1) l =
    match wrong u (current ls) (ls.length + 1) l with
    | some e => .error e
    | none => .ok (meaning u (ls ++ [l])) := by
  cases l with
  | blank => simp only [Config.line, wrong, meaning_blank]
  | other => rfl
  | header inner =>
    simp only [Config.line, wrong]
    split_ifs
    · rw [meaning_header]
      rfl
    · rfl
  | assign key val =>
    rcases List.eq_nil_or_concat (sections ls) with h | ⟨before, s, h⟩
    · have hc : current ls = none := by simp [current, h]
      have ht : (meaning u ls).targets.getLast? = none := by simp [meaning, h]
      simp only [Config.line, wrong, ht, hc]
      cases hk : GlobalKey.ofName key with
      | none => rfl
      | some k =>
        obtain rfl := GlobalKey.eq_name hk
        simp only [meaning_of_none h, set_globals]
        split_ifs
        · rw [meaning_concat_of_none h rfl]
        · rfl
    · rw [List.concat_eq_append] at h
      have hc : current ls = some (targetName s.1) := by simp [current, h]
      simp only [Config.line, wrong, getLast?_targets h, hc]
      cases hk : TargetKey.ofName key with
      | none => cases GlobalKey.ofName key <;> rfl
      | some k =>
        obtain rfl := TargetKey.eq_name hk
        simp only [set_targetOf]
        split_ifs
        · rw [meaning_concat h rfl]
        · rfl

/-! ### The whole file -/

theorem loadLines_meaning (rest : List Line) : ∀ before : List Line,
    loadLines u (meaning u before) (before.length + 1) rest =
      match firstWrong u before rest with
      | some e => .error e
      | none => .ok (meaning u (before ++ rest)) := by
  induction rest with
  | nil =>
    intro before
    simp [loadLines, firstWrong]
  | cons l rest ih =>
    intro before
    have h := ih (before ++ [l])
    rw [List.length_append, List.length_singleton, List.append_assoc, List.singleton_append] at h
    rw [loadLines, line_meaning, firstWrong]
    cases wrong u (current before) (before.length + 1) l with
    | some e => rfl
    | none => exact h

/-- From the first line on. -/
theorem loadLines_start (ls : List Line) : loadLines u {} 1 ls =
    match firstWrong u [] ls with
    | some e => .error e
    | none => .ok (meaning u ls) :=
  loadLines_meaning ls []

/-- A file is accepted exactly if no line is wrong and there are targets, each with something to match,
    and then every setting has the last value given to it in its own part. Otherwise the first wrong
    line is reported, or the first target without anything to match. -/
theorem loadConfig_eq (u : Unicode) (text : List Char) :
    loadConfig u text =
      match firstWrong u [] ((fileLines text).map readLine) with
      | some e => .error e
      | none => (meaning u ((fileLines text).map readLine)).checked := by
  rw [loadConfig, loadLines_start]
  cases firstWrong u [] ((fileLines text).map readLine) <;> rfl

/-! ### The line that is reported -/

/-- A setting of a target that is a number. -/
def TargetKey.isNumber : TargetKey → Bool
  | .mysql_port | .ttl => true
  | _ => false

/-- An error at a line names the line, but for a number of a target that is none. -/
theorem wrong_lineno {cur : Option (List Char)} {n : Nat} {l : Line} {e : ConfigError}
    (h : wrong u cur n l = some e) : e.lineno = some n ∨
      ∃ k val, k.isNumber = true ∧ l = .assign (TargetKey.name k) val ∧ e = .literal val := by
  cases l with
  | blank => cases h
  | other =>
    cases h
    exact .inl rfl
  | header inner =>
    rw [wrong] at h
    split_ifs at h
    cases h
    exact .inl rfl
  | assign key val =>
    simp only [wrong] at h
    split at h
    · cases h
      exact .inl rfl
    · split_ifs at h
      cases h
      unfold notA
      split_ifs <;> exact .inl rfl
    · rename_i k hk
      split_ifs at h with ha
      cases h
      refine .inr ⟨k, val, ?_, by rw [TargetKey.eq_name hk], rfl⟩
      cases k <;> first | rfl | exact absurd rfl ha
    · cases h
      exact .inl rfl
    · cases h
      exact .inl rfl

theorem exists_of_firstWrong {rest : List Line} {e : ConfigError} : ∀ {before : List Line},
    firstWrong u before rest = some e → ∃ mid l after, rest = mid ++ l :: after ∧
      firstWrong u before mid = none ∧
        wrong u (current (before ++ mid)) ((before ++ mid).length + 1) l = some e := by
  induction rest with
  | nil =>
    intro before h
    cases h
  | cons l rest ih =>
    intro before h
    rw [firstWrong] at h
    cases hw : wrong u (current before) (before.length + 1) l with
    | some e' =>
      rw [hw] at h
      cases h
      exact ⟨[], l, rest, rfl, rfl, by rwa [List.append_nil]⟩
    | none =>
      rw [hw, Option.none_or] at h
      obtain ⟨mid, l', after, rfl, hmid, hl'⟩ := ih h
      refine ⟨l :: mid, l', after, rfl, ?_, ?_⟩
      · rw [firstWrong, hw, hmid]
        rfl
      · rwa [List.append_assoc] at hl'

/-- The exception of a file that is refused: it is about the first wrong line, and names it unless that
    is a number of a target that is none; or no line is wrong, and it names none. -/
theorem loadConfig_error_line (u : Unicode) (text : List Char) (e : ConfigError)
    (h : loadConfig u text = .error e) :
    (∃ before l after, (fileLines text).map readLine = before ++ l :: after ∧ firstWrong u [] before = none ∧
      wrong u (current before) (before.length + 1) l = some e ∧
        (e.lineno = some (before.length + 1) ∨
          ∃ k val, k.isNumber = true ∧ l = .assign (TargetKey.name k) val ∧ e = .literal val)) ∨
      (firstWrong u [] ((fileLines text).map readLine) = none ∧ e.lineno = none) := by
  rw [loadConfig, loadLines_start] at h
  cases hw : firstWrong u [] ((fileLines text).map readLine) with
  | some e' =>
    rw [hw] at h
    cases h
    obtain ⟨before, l, after, hls, hb, hl⟩ := exists_of_firstWrong hw
    exact .inl ⟨before, l, after, hls, hb, hl, wrong_lineno hl⟩
  | none =>
    rw [hw] at h
    refine .inr ⟨rfl, ?_⟩
    simp only [Config.checked] at h
    split at h
    · cases h
      rfl
    · split_ifs at h
      cases h
      rfl

end

/-- A TTL that is no number, in the second line of a file. -/
theorem ttl_of_soon :
    (∃ before l after, (fileLines "# cache\nttl = soon\n[target app]\n".toList).map readLine = before ++ l :: after ∧
      firstWrong ⟨fun _ => false, fun _ => none⟩ [] before = none ∧
      wrong ⟨fun _ => false, fun _ => none⟩ (current before) (before.length + 1) l =
          some (.notNumber 2 "soon".toList) ∧
        ((ConfigError.notNumber 2 "soon".toList).lineno = some (before.length + 1) ∨
          ∃ k val, k.isNumber = true ∧ l = .assign (TargetKey.name k) val ∧
            .notNumber 2 "soon".toList = ConfigError.literal val)) ∨
      (firstWrong ⟨fun _ => false, fun _ => none⟩ []
          ((fileLines "# cache\nttl = soon\n[target app]\n".toList).map readLine) = none ∧
        (ConfigError.notNumber 2 "soon".toList).lineno = none) :=
  loadConfig_error_line ⟨fun _ => false, fun _ => none⟩ "# cache\nttl = soon\n[target app]\n".toList
    (.notNumber 2 "soon".toList) (by decide)

end Barnacle.Tool
