import Barnacle.Daemon.Options
import Barnacle.Tool.Loading

/-! `start-server` from the configuration to the daemon (`daemon_argv` in `barnacle`, `main` in
    `src/daemon/main.cpp`): two programs in two languages, with the command line between them.

    Texts arrive as they are. A number is written in full and read with `atoi` into an option of 16 or
    32 bits, so it arrives exactly if it fits that option; the number of pipes is also cut to the
    number the maps are made for, and zero stands for the daemon's own default. -/

namespace Barnacle.Tool
open Barnacle.Lib Barnacle.Lib.Text
open Barnacle.Daemon (Options atoi)
open Barnacle.Daemon.Options (option parse ofArgv)

/-- `os.path.join` of two parts. -/
def joinPath (dir name : List Char) : List Char :=
  if dir = [] ∨ dir.getLast? = some '/' then dir ++ name else dir ++ '/' :: name

def ctlSock (runDir : List Char) : List Char := joinPath runDir "daemon.sock".toList

/-- `daemon` is where `find_tool` found the program. -/
def daemonArgv (daemon runDir : List Char) (cfg : Config) (verbose : Bool) : List (List Char) :=
  [daemon] ++ (if cfg.stmtList ≠ [] then [['-', 'l'], cfg.stmtList] else []) ++
    [['-', 'H'], cfg.valkey_host, ['-', 'P'], intText cfg.valkey_port] ++
    [['-', 'm'], intText cfg.mysql_port, ['-', 't'], intText cfg.ttl] ++
    [['-', 's'], ctlSock runDir] ++
    (if cfg.pipes ≠ 0 then [['-', 'n'], intText cfg.pipes] else []) ++
    (if cfg.local_cache then [] else [['-', 'R']]) ++
    (if verbose then [['-', 'v']] else [])

/-- The arguments a program is started with: text with a zero in it is refused. -/
def popen (argv : List (List Char)) : Option (List Bytes) :=
  if argv.any (·.contains '\x00') then none else some (argv.map encode)

/-! ### Numbers -/

theorem encode_intText (n : Int) : encode (intText n) = Valkey.signed n := by
  have h : encode (['-'] ++ Nat.toDigits 10 n.natAbs) = 45 :: Valkey.decimal n.natAbs := by
    rw [← Daemon.encode_toDigits]
    rfl
  rw [intText, Valkey.signed]
  split_ifs
  · exact h
  · exact Daemon.encode_toDigits _

/-- What `strtol` makes of a number that need not fit. -/
theorem strtol_intText (n : Int) :
    Valkey.strtol (encode (intText n)) = max Valkey.LONG_MIN (min Valkey.LONG_MAX n) := by
  rw [encode_intText, Valkey.signed]
  split_ifs with hneg
  · rw [Valkey.strtol, List.dropWhile_cons_of_neg (by decide)]
    simp only [if_true, Valkey.digitsVal_decimal, Valkey.LONG_MIN, Valkey.LONG_MAX]
    omega
  · obtain ⟨b, rest, hb⟩ := List.exists_cons_of_ne_nil (Valkey.decimal_ne_nil n.natAbs)
    have hdig := Valkey.of_isDigit (Valkey.isDigit_decimal n.natAbs b (by rw [hb]; simp))
    have hval := Valkey.digitsVal_decimal n.natAbs
    rw [hb] at hval ⊢
    rw [Valkey.strtol, List.dropWhile_cons_of_neg (by simp [hdig.1])]
    simp only [hdig.2.1, hdig.2.2.1, if_false, hval, Valkey.LONG_MIN, Valkey.LONG_MAX]
    omega

section
variable (n : Int)

/-- An `int` is the number exactly if the number fits. -/
theorem toInt_atoi : (atoi (encode (intText n))).toInt = n ↔ -2 ^ 31 ≤ n ∧ n < 2 ^ 31 := by
  rw [atoi, strtol_intText, Int32.toInt_ofInt]
  simp only [Valkey.LONG_MIN, Valkey.LONG_MAX, Int32.size, Int.bmod_def]
  omega

theorem toNat_ofInt (m : Int) : ((Int32.ofInt m).toUInt32.toNat : Int) = m % 2 ^ 32 := by
  change ((BitVec.ofInt 32 m).toNat : Int) = m % 2 ^ 32
  rw [BitVec.toNat_ofInt]
  omega

theorem toNat_atoi : ((atoi (encode (intText n))).toUInt32.toNat : Int) = n ↔ 0 ≤ n ∧ n < 2 ^ 32 := by
  rw [atoi, strtol_intText, toNat_ofInt]
  simp only [Valkey.LONG_MIN, Valkey.LONG_MAX]
  omega

theorem toNat_atoi16 : ((atoi (encode (intText n))).toUInt32.toUInt16.toNat : Int) = n ↔ 0 ≤ n ∧ n < 2 ^ 16 := by
  have h := toNat_ofInt (max Valkey.LONG_MIN (min Valkey.LONG_MAX n))
  rw [atoi, strtol_intText, UInt32.toNat_toUInt16]
  simp only [Valkey.LONG_MIN, Valkey.LONG_MAX] at h ⊢
  omega

end

/-! ### The command line -/

section
variable (o : Options) (rest : List Bytes)

theorem parse_stmts (list : List Char) :
    parse o ((if list ≠ [] then [['-', 'l'], list] else []).map encode ++ rest) =
      parse (if list ≠ [] then { o with stmt_list := encode list } else o) rest := by
  split_ifs <;> rfl

theorem parse_settings (host port mysql ttl ctl : List Char) :
    parse o ([['-', 'H'], host, ['-', 'P'], port, ['-', 'm'], mysql, ['-', 't'], ttl, ['-', 's'], ctl].map encode ++
      rest) = parse { o with
        valkey_host := encode host
        valkey_port := (atoi (encode port)).toUInt32.toUInt16
        mysql_port := (atoi (encode mysql)).toUInt32.toUInt16
        ttl := atoi (encode ttl)
        ctl_path := encode ctl } rest := rfl

theorem parse_pipes (n : Int) :
    parse o ((if n ≠ 0 then [['-', 'n'], intText n] else []).map encode ++ rest) =
      parse (if n ≠ 0 then { o with pipes := (atoi (encode (intText n))).toUInt32 } else o) rest := by
  split_ifs <;> rfl

theorem parse_local (on : Bool) : parse o ((if on then [] else [['-', 'R']]).map encode ++ rest) =
    parse (if on then o else { o with local_on := false }) rest := by
  cases on <;> rfl

theorem parse_verbose (v : Bool) : parse o ((if v then [['-', 'v']] else []).map encode) =
    some (if v then { o with verbose := true } else o) := by
  cases v <;> rfl

end

/-- The options read off a command line, with the number of pipes not yet cut. -/
def launched (runDir : List Char) (cfg : Config) (verbose : Bool) : Options where
  stmt_list := encode cfg.stmtList
  valkey_host := encode cfg.valkey_host
  valkey_port := (atoi (encode (intText cfg.valkey_port))).toUInt32.toUInt16
  mysql_port := (atoi (encode (intText cfg.mysql_port))).toUInt32.toUInt16
  pipes := if cfg.pipes ≠ 0 then (atoi (encode (intText cfg.pipes))).toUInt32 else 64
  ttl := atoi (encode (intText cfg.ttl))
  ctl_path := encode (ctlSock runDir)
  local_on := cfg.local_cache
  verbose := verbose

theorem parse_daemonArgv (daemon runDir : List Char) (cfg : Config) (verbose : Bool) :
    parse {} ((daemonArgv daemon runDir cfg verbose).map encode).tail = some (launched runDir cfg verbose) := by
  have htail : ((daemonArgv daemon runDir cfg verbose).map encode).tail =
      (if cfg.stmtList ≠ [] then [['-', 'l'], cfg.stmtList] else []).map encode ++
        ([['-', 'H'], cfg.valkey_host, ['-', 'P'], intText cfg.valkey_port, ['-', 'm'], intText cfg.mysql_port,
          ['-', 't'], intText cfg.ttl, ['-', 's'], ctlSock runDir].map encode ++
        ((if cfg.pipes ≠ 0 then [['-', 'n'], intText cfg.pipes] else []).map encode ++
        ((if cfg.local_cache then [] else [['-', 'R']]).map encode ++
        (if verbose then [['-', 'v']] else []).map encode))) := by
    simp [daemonArgv]
  rw [htail, parse_stmts, parse_settings, parse_pipes, parse_local, parse_verbose]
  unfold launched
  congr 1
  cases hv : verbose <;> cases hl : cfg.local_cache <;> by_cases hp : cfg.pipes ≠ 0 <;>
    by_cases hs : cfg.stmtList ≠ [] <;> simp_all

/-- The options a command line was written for. -/
structure Runs (runDir : List Char) (cfg : Config) (verbose : Bool) (o : Options) : Prop where
  stmt_list : o.stmt_list = encode cfg.stmtList
  valkey_host : o.valkey_host = encode cfg.valkey_host
  ctl_path : o.ctl_path = encode (ctlSock runDir)
  local_on : o.local_on = cfg.local_cache
  verbose : o.verbose = verbose
  max_stmts : o.max_stmts = Daemon.BNCL_MAX_STMTS
  max_pipes : o.max_pipes = Daemon.BNCL_MAX_PIPES
  error_ttl : o.error_ttl = 30
  valkey_port : (o.valkey_port.toNat : Int) = cfg.valkey_port ↔ 0 ≤ cfg.valkey_port ∧ cfg.valkey_port < 2 ^ 16
  mysql_port : (o.mysql_port.toNat : Int) = cfg.mysql_port ↔ 0 ≤ cfg.mysql_port ∧ cfg.mysql_port < 2 ^ 16
  ttl : o.ttl.toInt = cfg.ttl ↔ -2 ^ 31 ≤ cfg.ttl ∧ cfg.ttl < 2 ^ 31
  pipes : cfg.pipes ≠ 0 → ((o.pipes.toNat : Int) = cfg.pipes ↔ 0 ≤ cfg.pipes ∧ cfg.pipes ≤ 4096)
  default_pipes : cfg.pipes = 0 → o.pipes = 64

/-- The daemon runs with what the configuration says: texts and switches always, a number exactly if it
    fits its option. -/
theorem ofArgv_daemonArgv (daemon runDir : List Char) (cfg : Config) (verbose : Bool) (argv : List Bytes)
    (h : popen (daemonArgv daemon runDir cfg verbose) = some argv) :
    ∃ o, ofArgv argv = some o ∧ Runs runDir cfg verbose o := by
  have hargv : argv = (daemonArgv daemon runDir cfg verbose).map encode := by
    rw [popen] at h
    split_ifs at h
    exact (Option.some.inj h).symm
  have hparse := parse_daemonArgv daemon runDir cfg verbose
  have hn := toNat_atoi cfg.pipes
  rw [hargv, ofArgv, hparse, Option.map_some]
  refine ⟨_, rfl, ?_⟩
  -- whether the number of pipes is cut
  split_ifs with hcut
  all_goals
    refine ⟨rfl, rfl, rfl, rfl, rfl, rfl, rfl, rfl, toNat_atoi16 _, toNat_atoi16 _, toInt_atoi _, ?_, ?_⟩
  · intro hp
    have hlt : 4096 < ((atoi (encode (intText cfg.pipes))).toUInt32).toNat := by
      simpa [launched, hp, Daemon.BNCL_MAX_PIPES, UInt32.lt_iff_toNat_lt] using hcut
    have hmax : (launched runDir cfg verbose).max_pipes.toNat = 4096 := rfl
    rw [hmax]
    omega
  · intro hp
    simp [launched, hp, Daemon.BNCL_MAX_PIPES] at hcut
  · intro hp
    have hle : ((atoi (encode (intText cfg.pipes))).toUInt32).toNat ≤ 4096 := by
      simpa [launched, hp, Daemon.BNCL_MAX_PIPES, UInt32.lt_iff_toNat_lt] using hcut
    simp only [launched, if_pos hp]
    omega
  · intro hp
    simp [launched, hp]

/-- A daemon with its cache on the same host, and with a pool of twenty thousand pipes asked for. -/
def ownHost : Config :=
  { valkey_host := "127.0.0.1".toList, statements := "config/cache list".toList, pipes := 20000, local_cache := false }

theorem ownHost_runs : popen (daemonArgv "bncl-daemon".toList "/run/barnacle".toList ownHost true) =
      some ((daemonArgv "bncl-daemon".toList "/run/barnacle".toList ownHost true).map encode) ∧
    ∃ o, ofArgv ((daemonArgv "bncl-daemon".toList "/run/barnacle".toList ownHost true).map encode) = some o ∧
      Runs "/run/barnacle".toList ownHost true o :=
  ⟨by decide, ofArgv_daemonArgv "bncl-daemon".toList "/run/barnacle".toList ownHost true _ (by decide)⟩

end Barnacle.Tool
