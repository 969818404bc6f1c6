import Barnacle.Lib.Double

/-! The attachment record of the command-line tool (`barnacle`): who was injected, and when.

    One line for each attached process, with its pid, its name and the time. The file is written whole
    and read up to a limit, and a line is taken apart at its white space. What the tool asks of the
    machine is a `Host`: whether a signal can be sent, and two files under `/proc`. A result of `none`
    is an exception that the function does not catch. -/

namespace Barnacle.Tool
open Barnacle.Lib Barnacle.Lib.Text

/-! ### Processes -/

/-- What comes of `kill(pid, 0)`. -/
inductive Kill where | sent | eperm | failed
  deriving DecidableEq, Repr

/-- The contents of a file that cannot be opened or read are empty. -/
structure Host where
  kill : Nat → Kill
  stat : Nat → Bytes
  comm : Nat → Bytes

def readFile (contents : Bytes) (limit : Nat) : Bytes := contents.take limit

/-- The name of a process, from the contents of its `comm`. -/
def readComm (contents : Bytes) : List Char := strip (decode (readFile contents 4096))

/-- There, and not a zombie: the state is the word behind the last closing parenthesis. -/
def alive (host : Host) (pid : Nat) : Option Bool :=
  -- a pid that is no `int` is refused with an exception that is not an `OSError`
  if pid ≥ 2 ^ 31 then none
  else if host.kill pid = .failed then some false
  else
    let stat := decode (readFile (host.stat pid) 4096)
    if ')' ∈ stat then some ((words (stat.rtakeWhile (· ≠ ')'))).head?.any (· ≠ ['Z']))
    else some false

/-! ### The record -/

structure Entry where
  pid : Nat
  comm : List Char
  when : Double
  deriving DecidableEq

def readLimit : Nat := 1 <<< 20

/-- `"%d %s %.0f"`. -/
def Entry.line (e : Entry) : List Char := Nat.toDigits 10 e.pid ++ ' ' :: (e.comm ++ ' ' :: e.when.text)

def record (entries : List Entry) : List Char := entries.flatMap fun e => e.line ++ ['\n']

/-- The new contents of the file. -/
def writeAttached (entries : List Entry) : Bytes := encode (record entries)

section
variable (u : Unicode) (host : Host)

/-- One line: nothing if it does not start with the pid of a process that is still there. A missing
    name is looked up, and a missing or unreadable time is zero. -/
def readEntry (line : List Char) : Option (Option Entry) :=
  match words line with
  | [] => some none
  | first :: rest =>
    if u.isdigit first then
      (u.int first).bind fun pid => (alive host pid).map fun there =>
        if there then
          some ⟨pid, rest.head?.getD (readComm (host.comm pid)), (rest[1]?.bind u.float).getD .zero⟩
        else none
    else some none

def readLines : List (List Char) → Option (List Entry)
  | [] => some []
  | line :: rest => (readEntry u host line).bind fun e => (readLines rest).map (e.toList ++ ·)

/-- The recorded attachments whose process still exists, from the contents of the file. -/
def readAttached (contents : Bytes) : Option (List Entry) :=
  readLines u host (lines (decode (readFile contents readLimit)))

/-- The daemon's start: as it reports it, or else now less its uptime. -/
def started (now : Double) (st : List (List Char × List Char)) : Option Double :=
  match st.lookup "started_at".toList with
  | some t => u.float t
  | none => (((st.lookup "uptime".toList).map u.float).getD (some .zero)).map now.sub

/-- The attachments made more than two seconds before the daemon was started. There are none to
    report without the daemon's status. -/
def staleAttachments (now : Double) (st : Option (List (List Char × List Char))) (entries : List Entry) : List Entry :=
  match st.filter (· ≠ []) with
  | none => []
  | some st =>
    match started u now st with
    | none => []
    | some s => entries.filter fun e => e.when.lt (s.sub (nearest 2))

end

end Barnacle.Tool
