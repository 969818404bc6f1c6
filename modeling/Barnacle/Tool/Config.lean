import Barnacle.Lib.Double

/-! The configuration file of the command-line tool (`load_config` in `barnacle`): `key = value` lines,
    those before the first `[target …]` header for everything, those after a header for its target.

    The file is read line by line, and the first line that is wrong ends it with an exception that
    names the line. The targets are looked at once more when the last line has been read. A text is a
    list of characters: the file has been decoded. -/

namespace Barnacle.Tool
open Barnacle.Lib Barnacle.Lib.Text

/-! ### Values -/

/-- How many digits `int` reads. -/
def maxStrDigits : Nat := 4300

/-- `int(text)`, of a text without white space around it. -/
def integer (u : Unicode) (t : List Char) : Option Int :=
  let t := t.map u.ascii
  let ds := if t.head? = some '-' ∨ t.head? = some '+' then t.tail else t
  (dropUnderscores false ds).bind fun ds =>
    if ds ≠ [] ∧ ds.all Char.isDigit ∧ ds.length ≤ maxStrDigits then
      some (if t.head? = some '-' then -(digitsValue ds : Int) else digitsValue ds)
    else none

/-- `str(n)`. -/
def intText (n : Int) : List Char := (if n < 0 then ['-'] else []) ++ Nat.toDigits 10 n.natAbs

/-- The words are ASCII, and no other character becomes one of their letters in lower case. -/
def parseBool (val : List Char) : Option Bool :=
  let low := (strip val).map Char.toLower
  if low ∈ ["on", "yes", "true", "1", "enabled"].map String.toList then some true
  else if low ∈ ["off", "no", "false", "0", "disabled"].map String.toList then some false
  else none

/-! ### Settings -/

structure Target where
  name : List Char
  bin : List Char := []
  cmdline : List Char := []
  container : List Char := []
  mysql_port : Int := 3306
  statements : List Char := []
  ttl : Int := 60
  deriving DecidableEq, Repr

def Target.matchesNothing (t : Target) : Bool := t.bin = [] && t.cmdline = [] && t.container = []

structure Config where
  targets : List Target := []
  valkey_host : List Char := "valkey".toList
  valkey_port : Int := 6379
  statements : List Char := []
  ttl : Int := 60
  pipes : Int := 0
  mysql_port : Int := 3306
  local_cache : Bool := true
  deriving DecidableEq, Repr

/-- The one list the daemon is run against: the global one, or that of the first target with one. -/
def Config.stmtList (cfg : Config) : List Char :=
  if cfg.statements ≠ [] then cfg.statements
  else ((cfg.targets.map Target.statements).find? (· ≠ [])).getD []

inductive GlobalKey where
  | valkey_host | valkey_port | statements | ttl | pipes | mysql_port | local_cache
  deriving DecidableEq, Repr

namespace GlobalKey

def all : List GlobalKey := [valkey_host, valkey_port, statements, ttl, pipes, mysql_port, local_cache]

def name : GlobalKey → List Char
  | valkey_host => "valkey_host".toList
  | valkey_port => "valkey_port".toList
  | statements => "statements".toList
  | ttl => "ttl".toList
  | pipes => "pipes".toList
  | mysql_port => "mysql_port".toList
  | local_cache => "local_cache".toList

/-- `GLOBAL_KEYS.get(key)`. -/
def ofName (key : List Char) : Option GlobalKey := all.find? (·.name = key)

end GlobalKey

/-- `setattr(cfg, key, conv(val))`. -/
def Config.set (u : Unicode) (cfg : Config) (val : List Char) : GlobalKey → Option Config
  | .valkey_host => some { cfg with valkey_host := val }
  | .valkey_port => (integer u val).map fun n => { cfg with valkey_port := n }
  | .statements => some { cfg with statements := val }
  | .ttl => (integer u val).map fun n => { cfg with ttl := n }
  | .pipes => (integer u val).map fun n => { cfg with pipes := n }
  | .mysql_port => (integer u val).map fun n => { cfg with mysql_port := n }
  | .local_cache => (parseBool val).map fun b => { cfg with local_cache := b }

inductive TargetKey where
  | bin | cmdline | container | statements | mysql_port | ttl
  deriving DecidableEq, Repr

namespace TargetKey

def all : List TargetKey := [bin, cmdline, container, statements, mysql_port, ttl]

def name : TargetKey → List Char
  | bin => "bin".toList
  | cmdline => "cmdline".toList
  | container => "container".toList
  | statements => "statements".toList
  | mysql_port => "mysql_port".toList
  | ttl => "ttl".toList

def ofName (key : List Char) : Option TargetKey := all.find? (·.name = key)

end TargetKey

def Target.set (u : Unicode) (t : Target) (val : List Char) : TargetKey → Option Target
  | .bin => some { t with bin := val }
  | .cmdline => some { t with cmdline := val }
  | .container => some { t with container := val }
  | .statements => some { t with statements := val }
  | .mysql_port => (integer u val).map fun n => { t with mysql_port := n }
  | .ttl => (integer u val).map fun n => { t with ttl := n }

/-! ### Lines -/

/-- The lines of a file opened as text: all three line ends are taken for the same. -/
def fileLines : List Char → List (List Char)
  | [] => []
  | '\r' :: '\n' :: s => [] :: fileLines s
  | c :: s =>
    if c = '\n' ∨ c = '\r' then [] :: fileLines s
    else (c :: (fileLines s).headD []) :: (fileLines s).tail

inductive Line where
  | blank
  | header (inner : List Char)
  | assign (key val : List Char)
  | other
  deriving DecidableEq, Repr

/-- What a line is, without its comment and the white space around it. -/
def readLine (raw : List Char) : Line :=
  let line := strip (raw.takeWhile (· ≠ '#'))
  if line = [] then .blank
  else if line.head? = some '[' ∧ line.getLast? = some ']' then .header (strip line.tail.dropLast)
  else if '=' ∈ line then
    .assign (strip (line.takeWhile (· ≠ '='))) (strip (line.dropWhile (· ≠ '=')).tail)
  else .other

inductive ConfigError where
  | unknownSection (lineno : Nat) (inner : List Char)
  | expected (lineno : Nat)
  | unknownKey (lineno : Nat) (key : List Char)
  | notNumber (lineno : Nat) (val : List Char)
  | notBool (lineno : Nat) (val : List Char)
  | global (lineno : Nat) (key target : List Char)
  /-- what `int` raises for a setting of a target, which nothing catches -/
  | literal (val : List Char)
  | noMatchers (target : List Char)
  | noTargets
  deriving DecidableEq, Repr

/-- The line an error names. -/
def ConfigError.lineno : ConfigError → Option Nat
  | .unknownSection n _ | .expected n | .unknownKey n _ | .notNumber n _ | .notBool n _ | .global n _ _ => some n
  | .literal _ | .noMatchers _ | .noTargets => none

/-- The text of the exception. `repr` is what `%r` makes of a string, and `invalid` what `int` says. -/
def ConfigError.message (repr invalid : List Char → List Char) (path : List Char) (e : ConfigError) : List Char :=
  let place := fun n => path ++ ':' :: Nat.toDigits 10 n ++ ": ".toList
  match e with
  | .unknownSection n inner => place n ++ "unknown section ".toList ++ repr inner
  | .expected n => place n ++ "expected key = value".toList
  | .unknownKey n key => place n ++ "unknown key ".toList ++ repr key
  | .notNumber n val => place n ++ repr val ++ " is not a number".toList
  | .notBool n val => place n ++ repr val ++ " is not on or off".toList
  | .global n key target => place n ++ repr key ++ (" is a global setting and has to appear BEFORE " ++
      "the first [target] section; here it is read as a setting of target ").toList ++ repr target
  | .literal val => invalid val
  | .noMatchers target => "target ".toList ++ repr target ++ " has no matchers".toList
  | .noTargets => path ++ ": no targets defined".toList

/-- The text of an error that names a line begins with the path and the number of that line. -/
theorem ConfigError.message_of_lineno {repr invalid : List Char → List Char} {path : List Char} {e : ConfigError}
    {n : Nat} (h : e.lineno = some n) :
    (path ++ ':' :: Nat.toDigits 10 n ++ ": ".toList) <+: e.message repr invalid path := by
  cases e with
  | literal | noMatchers | noTargets => cases h
  | expected m =>
    cases h
    exact List.prefix_append ..
  | unknownSection m | unknownKey m | notNumber m | notBool m =>
    cases h
    exact (List.prefix_append ..).trans (List.prefix_append ..)
  | global m =>
    cases h
    exact ((List.prefix_append ..).trans (List.prefix_append ..)).trans (List.prefix_append ..)

/-! ### Loading -/

/-- What stands in a header before the name. -/
def targetWord : List Char := "target ".toList

def notA (k : GlobalKey) (lineno : Nat) (val : List Char) : ConfigError :=
  if k = .local_cache then .notBool lineno val else .notNumber lineno val

/-- One line. The current target is the last one, if there is one yet. -/
def Config.line (u : Unicode) (cfg : Config) (lineno : Nat) : Line → Except ConfigError Config
  | .blank => .ok cfg
  | .header inner =>
    if targetWord.isPrefixOf inner then
      .ok { cfg with targets := cfg.targets ++
        [{ name := strip (inner.drop targetWord.length), mysql_port := cfg.mysql_port, ttl := cfg.ttl }] }
    else .error (.unknownSection lineno inner)
  | .other => .error (.expected lineno)
  | .assign key val =>
    match cfg.targets.getLast? with
    | none =>
      match GlobalKey.ofName key with
      | none => .error (.unknownKey lineno key)
      | some k =>
        match cfg.set u val k with
        | none => .error (notA k lineno val)
        | some cfg => .ok cfg
    | some cur =>
      match TargetKey.ofName key with
      | some k =>
        match cur.set u val k with
        | none => .error (.literal val)
        | some cur => .ok { cfg with targets := cfg.targets.dropLast ++ [cur] }
      | none =>
        if (GlobalKey.ofName key).isSome then .error (.global lineno key cur.name)
        else .error (.unknownKey lineno key)

def loadLines (u : Unicode) : Config → Nat → List Line → Except ConfigError Config
  | cfg, _, [] => .ok cfg
  | cfg, lineno, l :: ls =>
    match cfg.line u lineno l with
    | .error e => .error e
    | .ok cfg => loadLines u cfg (lineno + 1) ls

/-- What is asked of the targets in the end. -/
def Config.checked (cfg : Config) : Except ConfigError Config :=
  match cfg.targets.find? Target.matchesNothing with
  | some t => .error (.noMatchers t.name)
  | none => if cfg.targets = [] then .error .noTargets else .ok cfg

def loadConfig (u : Unicode) (text : List Char) : Except ConfigError Config :=
  match loadLines u {} 1 ((fileLines text).map readLine) with
  | .error e => .error e
  | .ok cfg => cfg.checked

end Barnacle.Tool
