import Barnacle.Lib.Double
import Barnacle.Valkey.Exchange

/-! The daemon's command line (`main` in `src/daemon/main.cpp`). An argument that is no option, or an
    option that lacks its value, ends the program with the usage text; a value is taken as it stands,
    even if it looks like an option. Numbers are read with `atoi` and then cut to the width of the
    option. -/

namespace Barnacle.Daemon
open Barnacle.Lib Barnacle.Lib.Text

def BNCL_MAX_STMTS : UInt32 := 1024
def BNCL_MAX_PIPES : UInt32 := 4096
def BNCL_CTL_SOCK : Bytes := encode "/run/barnacle/daemon.sock".toList

structure Options where
  stmt_list : Bytes := []
  valkey_host : Bytes := encode "valkey".toList
  valkey_port : UInt16 := 6379
  mysql_port : UInt16 := 3306
  pipes : UInt32 := 64
  max_stmts : UInt32 := BNCL_MAX_STMTS
  max_pipes : UInt32 := BNCL_MAX_PIPES
  ttl : Int32 := 60
  error_ttl : Int32 := 30
  ctl_path : Bytes := BNCL_CTL_SOCK
  local_on : Bool := true
  verbose : Bool := false
  deriving DecidableEq

/-- `atoi` is `strtol`, and what does not fit an `int` is cut. -/
def atoi (s : Bytes) : Int32 := Int32.ofInt (Valkey.strtol s)

/-- What an argument is: an option that takes a value, one that does not, or neither. -/
inductive Arg where
  | value (set : Bytes → Options)
  | flag (o : Options)
  | unknown

namespace Options

def option (c : Char) : Bytes := encode ['-', c]

def arg (o : Options) (a : Bytes) : Arg :=
  if a = option 'l' then .value fun v => { o with stmt_list := v }
  else if a = option 'H' then .value fun v => { o with valkey_host := v }
  else if a = option 'P' then .value fun v => { o with valkey_port := (atoi v).toUInt32.toUInt16 }
  else if a = option 'm' then .value fun v => { o with mysql_port := (atoi v).toUInt32.toUInt16 }
  else if a = option 'n' then .value fun v => { o with pipes := (atoi v).toUInt32 }
  else if a = option 'S' then .value fun v => { o with max_stmts := (atoi v).toUInt32 }
  else if a = option 'C' then .value fun v => { o with max_pipes := (atoi v).toUInt32 }
  else if a = option 't' then .value fun v => { o with ttl := atoi v }
  else if a = option 'e' then .value fun v => { o with error_ttl := atoi v }
  else if a = option 's' then .value fun v => { o with ctl_path := v }
  else if a = option 'R' then .flag { o with local_on := false }
  else if a = option 'v' then .flag { o with verbose := true }
  else .unknown

/-- `none` is the usage text and exit code 1. -/
def parse : Options → List Bytes → Option Options
  | o, [] => some o
  | o, a :: rest =>
    match o.arg a, rest with
    | .value _, [] => none
    | .value set, v :: rest => (set v).parse rest
    | .flag o, rest => o.parse rest
    | .unknown, _ => none

/-- The options `main` makes of its arguments, the name of the program first. -/
def ofArgv (argv : List Bytes) : Option Options :=
  (parse {} argv.tail).map fun o => if o.pipes > o.max_pipes then { o with pipes := o.max_pipes } else o

end Options

/-! ### Numbers on the command line -/

theorem decimalLoop_eq (fuel : Nat) : ∀ n, n < fuel → Valkey.decimalLoop fuel n = encode (Nat.toDigits 10 n) := by
  induction fuel with
  | zero =>
    intro n h
    exact absurd h (Nat.not_lt_zero _)
  | succ fuel ih =>
    intro n h
    have hd : ∀ k < 10, [Valkey.digit k] = encode [Nat.digitChar k] := by decide
    rw [Valkey.decimalLoop]
    split_ifs with hlt
    · rw [Nat.toDigits_of_lt_base hlt, hd n hlt]
    · have hmod : Valkey.digit n = Valkey.digit (n % 10) := by simp [Valkey.digit]
      rw [ih (n / 10) (by omega), hmod, hd (n % 10) (by omega),
        Nat.toDigits_of_base_le (by decide) (not_lt.mp hlt)]
      simp [encode]

/-- A number looks the same from C and from Python. -/
theorem encode_toDigits (n : Nat) : encode (Nat.toDigits 10 n) = Valkey.decimal n :=
  (decimalLoop_eq (n + 1) n (Nat.lt_succ_self n)).symm

end Barnacle.Daemon
