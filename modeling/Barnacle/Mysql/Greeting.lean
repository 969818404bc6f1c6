import Mathlib.Data.List.TakeWhile
import Barnacle.Mysql.Handshake

/-! Greetings as they are built, and what `parseServerHandshake` and `parseClientHandshake`
    (`src/common/mysql/protocol.cpp`) read in them.

    A failed `readNulString` leaves the cursor at the end of the packet, so the fallback for a plugin name
    without its NUL has nothing left to take. And a client's database is read where one would be, whether
    or not the packet names one. -/

namespace Barnacle.Mysql
open Barnacle.Lib

/-! ### Strings -/

/-- The NUL-terminated string at the front; empty if there is none. -/
def firstString (u : Bytes) : Bytes := if 0 ∈ u then u.takeWhile (· ≠ 0) else []

/-- What is behind the first NUL. -/
def behindNul (u : Bytes) : Bytes := (u.dropWhile (· ≠ 0)).tail

theorem ne_nul {s : Bytes} (h : 0 ∉ s) : ∀ b ∈ s, decide (b ≠ 0) = true :=
  fun _ hb => decide_eq_true (ne_of_mem_of_not_mem hb h)

theorem takeWhile_nul {s : Bytes} (h : 0 ∉ s) (rest : Bytes) : (s ++ 0 :: rest).takeWhile (· ≠ 0) = s := by
  rw [List.takeWhile_append_of_pos (ne_nul h), List.takeWhile_cons_of_neg (by simp), List.append_nil]

theorem firstString_nul {s : Bytes} (h : 0 ∉ s) (rest : Bytes) : firstString (s ++ 0 :: rest) = s := by
  rw [firstString, if_pos (by simp), takeWhile_nul h]

theorem behindNul_nul {s : Bytes} (h : 0 ∉ s) (rest : Bytes) : behindNul (s ++ 0 :: rest) = rest := by
  rw [behindNul, List.dropWhile_append_of_pos (ne_nul h), List.dropWhile_cons_of_neg (by simp), List.tail_cons]

variable {d rest : Bytes} {pos : Nat}

theorem readNulString_nul {s : Bytes} (h : d.drop pos = s ++ 0 :: rest) (hs : 0 ∉ s) :
    readNulString d pos = (some s, pos + s.length + 1) ∧ d.drop (pos + s.length + 1) = rest := by
  have hlen := congrArg List.length h
  rw [List.length_drop, List.length_append, List.length_cons] at hlen
  constructor
  · rw [readNulString, h, takeWhile_nul hs, if_neg (by omega)]
  · have hnul := drop_of_drop_append h
    have : d.drop (pos + s.length) = [0] ++ rest := hnul
    exact drop_of_drop_append this

/-- Where there is no terminator the cursor is left at the end. -/
theorem readNulString_unterminated (h : 0 ∉ d.drop pos) :
    readNulString d pos = (none, pos + (d.drop pos).length) := by
  rw [readNulString, List.takeWhile_eq_self_iff.mpr (ne_nul h), if_pos]
  rw [List.length_drop]
  omega

/-! ### The server -/

/-- A HandshakeV10. The second part of the scramble and the plugin's name are there when the capabilities
    say so; the name may be without its NUL. -/
structure Greeting where
  server_version : Bytes
  connection_id : UInt32
  part1 : Bytes
  filler : UInt8
  capabilities : UInt32
  charset : UInt8
  status_flags : UInt16
  auth_data_len : UInt8
  reserved : Bytes
  part2 : Bytes
  plugin : Bytes
  terminated : Bool
  version_free : 0 ∉ server_version
  part1_length : part1.length = 8
  reserved_length : reserved.length = 10
  part2_length : part2.length =
    if hasCap capabilities CLIENT_SECURE_CONNECTION then max 13 (auth_data_len.toNat - 8) else 0
  plugin_free : 0 ∉ plugin
  plugin_cap : plugin ≠ [] → hasCap capabilities CLIENT_PLUGIN_AUTH = true

namespace Greeting

def pluginField (g : Greeting) : Bytes :=
  if hasCap g.capabilities CLIENT_PLUGIN_AUTH then g.plugin ++ if g.terminated then [0] else [] else []

/-- What follows the low capabilities. -/
def tail (g : Greeting) : Bytes :=
  [g.charset] ++ (leBytes 2 g.status_flags.toNat ++ (leBytes 2 (g.capabilities.toNat / 2 ^ 16) ++
    ([g.auth_data_len] ++ (g.reserved ++ (g.part2 ++ g.pluginField)))))

def bytes (g : Greeting) : Bytes :=
  [10] ++ (g.server_version ++ 0 :: (leBytes 4 g.connection_id.toNat ++ (g.part1 ++ ([g.filler] ++
    (leBytes 2 (g.capabilities.toNat % 2 ^ 16) ++ g.tail)))))

/-- What is to be read in it. -/
def fields (g : Greeting) : ServerHandshake where
  protocol_version := 10
  server_version := g.server_version
  connection_id := g.connection_id
  scramble := g.part1 ++ g.part2.dropLast
  capabilities := g.capabilities
  charset := g.charset
  status_flags := g.status_flags
  auth_plugin := g.plugin

end Greeting

/-- The halves of the capabilities, joined. -/
theorem caps_join (c : UInt32) :
    UInt32.ofNat (c.toNat % 2 ^ 16) ||| UInt32.ofNat (c.toNat / 2 ^ 16) <<< 16 = c := by
  have hlt := c.toNat_lt
  have hlo : c.toNat % 2 ^ 16 < 2 ^ 16 := Nat.mod_lt _ (by decide)
  have hlo' : c.toNat % 2 ^ 16 % 2 ^ 32 = c.toNat % 2 ^ 16 := Nat.mod_eq_of_lt (by omega)
  have hhi' : c.toNat / 2 ^ 16 % 2 ^ 32 = c.toNat / 2 ^ 16 := Nat.mod_eq_of_lt (by omega)
  have hshift : (c.toNat / 2 ^ 16) <<< 16 = c.toNat / 2 ^ 16 * 2 ^ 16 := Nat.shiftLeft_eq _ _
  have hfit : (c.toNat / 2 ^ 16) <<< 16 % 2 ^ 32 = (c.toNat / 2 ^ 16) <<< 16 := by
    rw [hshift]
    exact Nat.mod_eq_of_lt (by omega)
  have h16 : (16 : UInt32).toNat % 32 = 16 := rfl
  rw [← UInt32.toNat_inj, UInt32.toNat_or, UInt32.toNat_shiftLeft, UInt32.toNat_ofNat', UInt32.toNat_ofNat', hlo',
    hhi', h16, hfit, Nat.or_comm, ← Nat.shiftLeft_add_eq_or_of_lt hlo, hshift]
  omega

theorem part2Length_eq (a : UInt8) : part2Length a = max 13 (a.toNat - 8) := by
  have h8 : (8 : UInt8).toNat = 8 := rfl
  simp only [part2Length, gt_iff_lt, UInt8.lt_iff_toNat_lt, h8]
  split_ifs <;> omega

/-- The second part of the scramble, without its last byte. -/
theorem authPart2_of_drop {part2 : Bytes} {caps : UInt32} {a : UInt8} (h : d.drop pos = part2 ++ rest)
    (hlen : part2.length = if hasCap caps CLIENT_SECURE_CONNECTION then max 13 (a.toNat - 8) else 0) :
    authPart2 d pos caps a = some (part2.dropLast, pos + part2.length) := by
  rw [authPart2]
  split_ifs at hlen ⊢ with hcap
  · have hne : part2 ≠ [] := by
      rintro rfl
      rw [List.length_nil] at hlen
      omega
    have hle := le_length_of_drop_append h hne
    have htake : (d.drop pos).take (part2.length - 1) = part2.dropLast := by
      rw [h, List.take_append_of_le_length (by omega), List.dropLast_eq_take]
    simp only [part2Length_eq, ← hlen]
    rw [if_neg (by omega), htake]
  · obtain rfl := List.eq_nil_of_length_eq_zero hlen
    rfl

/-- The name of the plugin is read when it is terminated, and only then. -/
theorem authPlugin_of_drop {g : Greeting} (h : d.drop pos = g.pluginField) :
    authPlugin d pos g.capabilities = if g.terminated then g.plugin else [] := by
  rw [Greeting.pluginField] at h
  rw [authPlugin]
  split_ifs at h ⊢ with hcap ht ht
  · rw [(readNulString_nul h g.plugin_free).1]
  · rw [readNulString_unterminated (by rw [h, List.append_nil]; exact g.plugin_free)]
    refine if_neg ?_
    rw [List.length_drop]
    omega
  · by_contra hne
    exact hcap (g.plugin_cap (Ne.symm hne))
  · rfl

/-- A number of `w` bytes under the cursor. -/
theorem drop_number {w n : Nat} (h : d.drop pos = leBytes w n ++ rest) (hw : w ≠ 0) (hn : n < 256 ^ w) :
    leAt d pos w = n ∧ pos + w ≤ d.length ∧ d.drop (pos + w) = rest := by
  have hne : leBytes w n ≠ [] := by
    intro e
    exact hw (by rw [← length_leBytes w n, e]; rfl)
  have hle := le_length_of_drop_append h hne
  have hd := drop_of_drop_append h
  rw [length_leBytes] at hle hd
  exact ⟨leAt_of_drop h hn, hle, hd⟩

/-- One byte under the cursor. -/
theorem drop_byte {b : UInt8} (h : d.drop pos = [b] ++ rest) :
    d.getD pos 0 = b ∧ pos + 1 ≤ d.length ∧ d.drop (pos + 1) = rest :=
  ⟨getD_of_drop h, le_length_of_drop_append h (by simp), drop_of_drop_append h⟩

theorem serverTail_of_drop (g : Greeting) {out : ServerHandshake} (h : d.drop pos = g.tail)
    (hcaps : out.capabilities = UInt32.ofNat (g.capabilities.toNat % 2 ^ 16)) :
    serverTail d pos out = some { out with
      charset := g.charset, status_flags := g.status_flags, capabilities := g.capabilities
      scramble := out.scramble ++ g.part2.dropLast, auth_plugin := if g.terminated then g.plugin else [] } := by
  have hc := g.capabilities.toNat_lt
  rw [Greeting.tail] at h
  -- field by field, `h` is what the cursor has still in front of it
  obtain ⟨e1, l1, h⟩ := drop_byte h
  obtain ⟨e2, l2, h⟩ := drop_number h (by decide) g.status_flags.toNat_lt
  obtain ⟨e3, l3, h⟩ := drop_number h (by decide) (by omega)
  obtain ⟨e4, l4, h⟩ := drop_byte h
  have hres : g.reserved ≠ [] := fun e => by simpa [e] using g.reserved_length
  have l5 := le_length_of_drop_append h hres
  have h := drop_of_drop_append h
  rw [g.reserved_length] at l5 h
  have hp2 := authPart2_of_drop h g.part2_length
  have hplugin := authPlugin_of_drop (drop_of_drop_append h)
  rw [serverTail.eq_def]
  rw [if_neg (by omega), if_neg (by omega), if_neg (by omega), if_neg (by omega)]
  simp only [e1, e2, e3, e4, hcaps, caps_join, UInt16.ofNat_toNat]
  rw [if_neg (by omega), hp2]
  simp only [hplugin]

/-- All that is read in a greeting. -/
theorem parseServerHandshake_bytes (g : Greeting) : parseServerHandshake g.bytes =
    some { g.fields with auth_plugin := if g.terminated then g.plugin else [] } := by
  have hlo : g.capabilities.toNat % 2 ^ 16 < 256 ^ 2 := Nat.mod_lt _ (by decide)
  have hversion : g.bytes.drop 1 = g.server_version ++ 0 :: _ := rfl
  obtain ⟨hread, h⟩ := readNulString_nul hversion g.version_free
  obtain ⟨e1, l1, h⟩ := drop_number h (by decide) g.connection_id.toNat_lt
  have e2 := take_of_drop_append h
  have h := drop_of_drop_append h
  rw [g.part1_length] at e2 h
  obtain ⟨-, l3, h⟩ := drop_byte h
  obtain ⟨e4, l4, h⟩ := drop_number h (by decide) hlo
  have hmore := congrArg List.length h
  rw [List.length_drop, Greeting.tail, List.length_append, List.length_singleton] at hmore
  have hfirst : g.bytes[0]? = some 10 := rfl
  rw [parseServerHandshake.eq_def, hfirst]
  simp only [ne_eq, not_true_eq_false, if_false, hread]
  rw [serverBody.eq_def, if_neg (by omega), if_neg (by omega), if_neg (by omega)]
  simp only [e1, e2, e4, UInt32.ofNat_toNat]
  rw [if_neg (by omega), serverTail_of_drop g h rfl]
  rfl

/-- A greeting is read as it was built exactly when its plugin's name, if it has one, is terminated. -/
theorem greeting_read_iff (g : Greeting) :
    parseServerHandshake g.bytes = some g.fields ↔
      ¬(hasCap g.capabilities CLIENT_PLUGIN_AUTH = true ∧ g.terminated = false ∧ g.plugin ≠ []) := by
  rw [parseServerHandshake_bytes, Option.some_inj, ServerHandshake.mk.injEq]
  simp only [Greeting.fields, true_and, not_and, not_not]
  constructor
  · intro h _ ht
    rw [ht] at h
    exact h.symm
  · intro h
    split_ifs with ht
    · rfl
    · by_cases hcap : hasCap g.capabilities CLIENT_PLUGIN_AUTH = true
      · exact (h hcap (by simpa using ht)).symm
      · by_contra hne
        exact hcap (g.plugin_cap (Ne.symm hne))

/-- The last two bytes are the plugin's name without its NUL, and the name read is empty. -/
theorem plugin_name_lost :
    ∃ g : Greeting, g.bytes = [10, 56, 0, 1, 0, 0, 0, 1, 2, 3, 4, 5, 6, 7, 8, 0, 0, 128, 33, 2, 0, 8, 0, 21, 0, 0, 0, 0, 0,
        0, 0, 0, 0, 0, 11, 12, 13, 14, 15, 16, 17, 18, 19, 20, 21, 22, 0, 109, 121] ∧
      g.fields.auth_plugin = [109, 121] ∧
      (parseServerHandshake g.bytes).map ServerHandshake.auth_plugin = some [] ∧
      parseServerHandshake g.bytes ≠ some g.fields := by
  refine ⟨{ server_version := [56], connection_id := 1, part1 := [1, 2, 3, 4, 5, 6, 7, 8], filler := 0
            capabilities := 0x88000, charset := 33, status_flags := 2, auth_data_len := 21
            reserved := [0, 0, 0, 0, 0, 0, 0, 0, 0, 0]
            part2 := [11, 12, 13, 14, 15, 16, 17, 18, 19, 20, 21, 22, 0], plugin := [109, 121], terminated := false
            version_free := by decide, part1_length := rfl, reserved_length := rfl, part2_length := by decide
            plugin_free := by decide, plugin_cap := by decide }, ?_⟩
  decide

/-! ### The client -/

def CLIENT_CONNECT_WITH_DB : UInt32 := 0x00000008
def CLIENT_CONNECT_ATTRS : UInt32 := 0x00100000
def CLIENT_PLUGIN_AUTH_LENENC : UInt32 := 0x00200000

/-- What an SSLRequest and a HandshakeResponse41 have in common. -/
structure Opening where
  capabilities : UInt32
  max_packet_size : UInt32
  charset : UInt8
  reserved : Bytes
  reserved_length : reserved.length = 23

/-- The auth response comes with its length in front, and not with a NUL behind it. -/
def counted (caps : UInt32) : Bool :=
  hasCap caps CLIENT_PLUGIN_AUTH_LENENC || hasCap caps CLIENT_SECURE_CONNECTION

/-- The rest of a HandshakeResponse41. The length of an auth response of up to 250 bytes is one byte
    however it is encoded. -/
structure Login (caps : UInt32) where
  username : Bytes
  auth : Bytes
  database : Option Bytes
  plugin : Option Bytes
  attrs : Bytes
  username_free : 0 ∉ username
  auth_length : auth.length ≤ 250
  auth_free : counted caps = false → 0 ∉ auth
  database_free : ∀ db, database = some db → 0 ∉ db
  database_cap : database ≠ none → hasCap caps CLIENT_CONNECT_WITH_DB = true
  plugin_free : ∀ name, plugin = some name → 0 ∉ name
  plugin_cap : plugin ≠ none → hasCap caps CLIENT_PLUGIN_AUTH = true
  attrs_cap : attrs ≠ [] → hasCap caps CLIENT_CONNECT_ATTRS = true

/-- A client's reply; without a login it is an SSLRequest. -/
structure ClientReply where
  opening : Opening
  login : Option (Login opening.capabilities)

def Opening.bytes (o : Opening) : Bytes :=
  leBytes 4 o.capabilities.toNat ++ (leBytes 4 o.max_packet_size.toNat ++ ([o.charset] ++ o.reserved))

/-- A field that is there or is not. -/
def nulField (s : Option Bytes) : Bytes := s.elim [] (· ++ [0])

namespace Login
variable {caps : UInt32}

def authField (l : Login caps) : Bytes :=
  if counted caps then [UInt8.ofNat l.auth.length] ++ l.auth else l.auth ++ [0]

/-- What follows the auth response. -/
def tail (l : Login caps) : Bytes := nulField l.database ++ (nulField l.plugin ++ l.attrs)

def bytes (l : Login caps) : Bytes := l.username ++ 0 :: (l.authField ++ l.tail)

end Login

namespace ClientReply

def bytes (r : ClientReply) : Bytes := r.opening.bytes ++ r.login.elim [] Login.bytes

def username (r : ClientReply) : Bytes := r.login.elim [] Login.username

/-- The schema the packet names. -/
def schema (r : ClientReply) : Bytes := r.login.elim [] fun l => l.database.getD []

end ClientReply

theorem clientDatabase_eq (d : Bytes) (pos : Nat) : clientDatabase d pos = firstString (d.drop pos) := by
  rw [clientDatabase]
  by_cases hnul : 0 ∈ d.drop pos
  · obtain ⟨s, rest, h, hs⟩ := List.eq_append_cons_of_mem hnul
    have hlt : pos < d.length := by
      by_contra hge
      rw [List.drop_eq_nil_of_le (by omega)] at hnul
      cases hnul
    rw [if_pos hlt, (readNulString_nul h hs).1, h, firstString_nul hs]
    rfl
  · rw [readNulString_unterminated hnul, firstString, if_neg hnul]
    simp

namespace Login
variable {caps : UInt32} (l : Login caps)

/-- What the parser finds behind the auth response. -/
def behind : Bytes := if hasCap caps CLIENT_SECURE_CONNECTION then l.tail else behindNul (l.authField ++ l.tail)

/-- The parser steps over the auth response as it was built. -/
def stepped : Bool :=
  hasCap caps CLIENT_SECURE_CONNECTION || !hasCap caps CLIENT_PLUGIN_AUTH_LENENC || l.auth = []

/-- The database read is whatever string is found behind the auth response. -/
theorem skipAuth_database (h : d.drop pos = l.authField ++ l.tail) :
    (skipAuth d pos caps).elim [] (clientDatabase d) = firstString l.behind := by
  rw [skipAuth, behind]
  by_cases hsec : hasCap caps CLIENT_SECURE_CONNECTION = true
  · have hfield : l.authField = [UInt8.ofNat l.auth.length] ++ l.auth := if_pos (by simp [counted, hsec])
    have hn : (UInt8.ofNat l.auth.length).toNat = l.auth.length := by
      have hle := l.auth_length
      rw [UInt8.toNat_ofNat']
      omega
    rw [hfield, List.append_assoc] at h
    obtain ⟨hb, hlt, h⟩ := drop_byte h
    rw [if_pos hsec, if_neg (by omega), if_pos hsec, hb, hn]
    simp only [Option.elim_some]
    rw [clientDatabase_eq, drop_of_drop_append h]
  · rw [if_neg hsec, if_neg hsec, ← h]
    by_cases hnul : 0 ∈ d.drop pos
    · obtain ⟨s, rest, hd, hs⟩ := List.eq_append_cons_of_mem hnul
      obtain ⟨hread, hrest⟩ := readNulString_nul hd hs
      rw [hread]
      simp only [Option.elim_some]
      rw [clientDatabase_eq, hrest, hd, behindNul_nul hs]
    · rw [readNulString_unterminated hnul, behindNul, List.dropWhile_eq_nil_iff.mpr (ne_nul hnul)]
      rfl

theorem behind_stepped (h : l.stepped = true) : l.behind = l.tail := by
  rw [behind]
  split_ifs with hsec
  · rfl
  · simp only [stepped, hsec, Bool.false_or, Bool.or_eq_true, Bool.not_eq_true', decide_eq_true_eq] at h
    rw [authField, counted]
    rcases h with hlen | hauth
    · -- the response ends with a NUL of its own
      have hfree := l.auth_free (by simp [counted, hlen, hsec])
      simp only [hlen, hsec, Bool.or_false, Bool.false_eq_true, if_false]
      rw [List.append_assoc]
      exact behindNul_nul hfree l.tail
    · split_ifs
      · -- a length of zero is taken for that NUL
        rw [hauth]
        rfl
      · rw [hauth]
        rfl

theorem behind_not_stepped (h : l.stepped = false) : l.behind = behindNul (l.auth ++ l.tail) := by
  simp only [stepped, Bool.or_eq_false_iff, Bool.not_eq_false', decide_eq_false_iff_not] at h
  obtain ⟨⟨hsec, hlen⟩, hauth⟩ := h
  have hfield : l.authField = [UInt8.ofNat l.auth.length] ++ l.auth := if_pos (by simp [counted, hlen])
  have hne : decide (UInt8.ofNat l.auth.length ≠ 0) = true := by
    have hle := l.auth_length
    have hpos := List.length_pos_of_ne_nil hauth
    rw [decide_eq_true_eq, ne_eq, ← UInt8.toNat_inj, UInt8.toNat_ofNat']
    intro e
    have : (0 : UInt8).toNat = 0 := rfl
    omega
  rw [behind, hsec, hfield]
  simp only [Bool.false_eq_true, if_false]
  rw [behindNul, List.append_assoc, List.singleton_append, List.dropWhile_cons_of_pos (by exact hne)]
  rfl

/-- The packet names a schema; or it has an empty plugin name in its place, or no plugin name and no string
    at the front of the attributes. And where the parser loses its way in the auth response, the string it
    comes to happens to be the schema's name. -/
def Plain : Prop :=
  if l.stepped then
    l.database ≠ none ∨ l.plugin = some [] ∨ (l.plugin = none ∧ firstString l.attrs = [])
  else firstString (behindNul (l.auth ++ l.tail)) = l.database.getD []

theorem firstString_nulField {name : Bytes} (h : 0 ∉ name) (rest : Bytes) :
    firstString (nulField (some name) ++ rest) = name := by
  have hfield : nulField (some name) ++ rest = name ++ 0 :: rest := by simp [nulField]
  rw [hfield, firstString_nul h]

theorem plain_iff : firstString l.behind = l.database.getD [] ↔ l.Plain := by
  rw [Plain]
  split_ifs with hs
  · rw [l.behind_stepped hs, tail]
    rcases hdb : l.database with _ | db
    · rcases hplugin : l.plugin with _ | name
      · simp [nulField]
      · have hnone : nulField none ++ (nulField (some name) ++ l.attrs) = nulField (some name) ++ l.attrs := rfl
        rw [hnone, firstString_nulField (l.plugin_free name hplugin)]
        simp
    · rw [firstString_nulField (l.database_free db hdb)]
      simp
  · rw [l.behind_not_stepped (by simpa using hs)]

end Login

theorem Opening.length_bytes (o : Opening) : o.bytes.length = 32 := by
  simp [Opening.bytes, o.reserved_length]

/-- A client's reply is taken, and all of it but the schema is read as it was built. -/
theorem client_reply_read_iff (r : ClientReply) :
    ∃ out, parseClientHandshake r.bytes = some out ∧ out.ssl_request = decide (r.bytes.length = 32) ∧
      out.ssl_request = r.login.isNone ∧ out.capabilities = r.opening.capabilities ∧
      out.max_packet_size = r.opening.max_packet_size ∧ out.charset = r.opening.charset ∧ out.username = r.username ∧
      (out.database = r.schema ↔ ∀ l, r.login = some l → l.Plain) := by
  have hlen := r.opening.length_bytes
  have h : r.bytes.drop 0 = leBytes 4 r.opening.capabilities.toNat ++ (leBytes 4 r.opening.max_packet_size.toNat ++
      ([r.opening.charset] ++ (r.opening.reserved ++ r.login.elim [] Login.bytes))) := by
    simp [ClientReply.bytes, Opening.bytes]
  obtain ⟨e1, -, h⟩ := drop_number h (by decide) r.opening.capabilities.toNat_lt
  obtain ⟨e2, -, h⟩ := drop_number h (by decide) r.opening.max_packet_size.toNat_lt
  obtain ⟨e3, -, -⟩ := drop_byte h
  have hdrop : r.bytes.drop 32 = r.login.elim [] Login.bytes := by
    rw [ClientReply.bytes, ← hlen, List.drop_left]
  simp only [Nat.zero_add] at e2 e3
  rw [parseClientHandshake.eq_def]
  simp only [e1, e2, e3, UInt32.ofNat_toNat]
  rcases hlogin : r.login with _ | l
  · have hbytes : r.bytes.length = 32 := by
      rw [ClientReply.bytes, hlogin, List.length_append, hlen]
      rfl
    rw [if_neg (by omega), if_pos (by omega)]
    refine ⟨_, rfl, ?_⟩
    simp [hbytes, ClientReply.username, ClientReply.schema, hlogin]
  · have hbytes : 32 < r.bytes.length := by
      rw [ClientReply.bytes, hlogin, List.length_append, hlen, Option.elim_some, Login.bytes, List.length_append,
        List.length_cons]
      omega
    rw [hlogin, Option.elim_some, Login.bytes] at hdrop
    obtain ⟨hread, hrest⟩ := readNulString_nul hdrop l.username_free
    have hiff := l.plain_iff
    rw [← l.skipAuth_database hrest] at hiff
    have hssl : false = decide (r.bytes.length = 32) := (decide_eq_false (by omega)).symm
    have huser : l.username = r.username := by rw [ClientReply.username, hlogin, Option.elim_some]
    have hschema : r.schema = l.database.getD [] := by rw [ClientReply.schema, hlogin, Option.elim_some]
    have hplain : (∀ l', some l = some l' → l'.Plain) ↔ l.Plain := by simp
    rw [if_neg (by omega), if_neg (by omega), hread]
    simp only
    rw [hschema, hplain, ← hiff]
    rcases skipAuth r.bytes (32 + l.username.length + 1) r.opening.capabilities with _ | pos
    · exact ⟨_, rfl, hssl, rfl, rfl, rfl, rfl, huser, Iff.rfl⟩
    · exact ⟨_, rfl, hssl, rfl, rfl, rfl, rfl, huser, Iff.rfl⟩

/-- A reply that names no schema: what is read for one is the name of the plugin. -/
theorem plugin_read_as_schema :
    ∃ r : ClientReply, r.bytes = [0, 130, 8, 0, 0, 0, 0, 1, 33] ++ List.replicate 23 0 ++ [97, 0, 0, 112, 0] ∧
      hasCap r.opening.capabilities CLIENT_CONNECT_WITH_DB = false ∧ r.schema = [] ∧
      (parseClientHandshake r.bytes).map ClientHandshake.database = some [112] := by
  refine ⟨⟨{ capabilities := 0x88200, max_packet_size := 0x1000000, charset := 33, reserved := List.replicate 23 0
             reserved_length := rfl },
           some { username := [97], auth := [], database := none, plugin := some [112], attrs := []
                  username_free := by decide, auth_length := by decide, auth_free := by decide
                  database_free := nofun, database_cap := fun h => absurd rfl h
                  plugin_free := ?_, plugin_cap := fun _ => by decide, attrs_cap := fun h => absurd rfl h }⟩, ?_⟩
  · rintro name ⟨⟩
    decide
  · decide

end Barnacle.Mysql
