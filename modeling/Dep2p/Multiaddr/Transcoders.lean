import Dep2p.Multiaddr.Views
import Dep2p.Multiformats.Multibase
import Dep2p.Multiformats.Multihash
import Dep2p.Multiformats.StdBase32
import Mathlib.Data.List.DropRight

/- How the registered protocols print and check their values (`transcoders.go`,
   `protocols.go`), and the views of a valid address.

   Addresses of IP, base58, base64, the escaping of queries and the case of letters come from
   the standard library and from other packages. They are given by `Outside`, with what is
   assumed of the case of letters. The parsers of text are a parameter: no view of a valid
   address asks them.

   A panic inside a transcoder is the error `panicked`.

   Correspondence (Go ↔ Lean):
     `xBtS`, `xValidate`, `xVal`               ↔ the same names
     `TranscoderX`                             ↔ `Coding`, `transcoder`
     `protoX`, `init`, `protocolsBy…`          ↔ `rows`, `registered`

   What is proved:
     `prints` — what a validator accepts is printed.
     `valid_views` — on a valid address no view panics, and they agree on its components. -/
namespace Dep2p.Multiaddr

abbrev IP := List UInt8

/-- `net.IP.To4`: the four bytes of an address, also where it is mapped to version 6. -/
def to4 (ip : IP) : Option IP :=
  if ip.length = 4 then some ip
  else if ip.length = 16 ∧ ip.take 12 = [0, 0, 0, 0, 0, 0, 0, 0, 0, 0, 0xff, 0xff] then
    some (ip.drop 12)
  else none

namespace Wire

open Lib Lib.Positional Base32

/-- The errors, each with what its text quotes. -/
inductive ValueErr where
  | lengthNotOne
  | lengthZero
  | zoneSlash (s : Bytes)
  | nonZeroPort
  | portLessThanOne
  | invalidLen (got expected : Nat)
  | invalidPortZero
  | notGarlic64 (b : Bytes)
  | notGarlic32 (b : Bytes)
  | invalidMultihash (err : Multihash.Err)
  | invalidCode (code : Nat)
  | invalidDigestLength (length : Nat)
  | multihash (err : Multihash.Err)
  | pathTooShort (length : Nat)
  | pathBegin
  | pathEnd
  | emptyDns
  | dnsSlash (s : Bytes)
  | multibase (err : Multibase.Err)
  | emptyPath
  | uint64Bits (bits : Nat)
  | notEightBytes
  /-- The texts of the onion3 parser. -/
  | noPort (s : Bytes)
  | notOnion3 (s : Bytes) (length : Nat)
  | failedBase32 (s : Bytes) (err : Base32.Encoding.CorruptInput)
  | failedPort (s : Bytes)
  deriving DecidableEq, Repr

abbrev Val (α : Type) := Except (Fault ValueErr) α

/-- Bytes of ASCII. -/
def Ascii (s : Bytes) : Prop := ∀ c ∈ s, c < 0x80

/-- What the transcoders take from other packages. -/
structure Outside where
  multibase : Multibase.External
  /-- `garlicBase64Encoding.EncodeToString` -/
  garlic64 : Bytes → Bytes
  /-- `net.IP.String` -/
  ipString : IP → Bytes
  /-- `url.QueryEscape` -/
  queryEscape : Bytes → Bytes
  /-- `strings.ToUpper` and `strings.ToLower` -/
  toUpper : Bytes → Bytes
  toLower : Bytes → Bytes
  /-- How many bytes `[]byte(s)` has behind its end; they are zero. -/
  spare : Nat → Nat
  toUpper_ascii : ∀ s, Ascii s → toUpper s = s.map asciiToUpper
  toLower_ascii : ∀ s, Ascii s → toLower s = s.map asciiToLower
  /-- A character outside of ASCII takes more bytes than one inside. -/
  toLower_short : ∀ s, ¬ Ascii s → Ascii (toLower s) → (toLower s).length < s.length

variable (o : Outside)

variable (n : Nat) (b : Bytes)

/-- `binary.BigEndian.Uint16` and `Uint64` -/
def uint : Nat := value 256 (b.map UInt8.toNat)

/-- `strconv.FormatUint` in base 10 -/
def formatUint : Bytes := (Nat.toDigits 10 n).map fun c => UInt8.ofNat c.toNat

/-! ## IP and ports -/

def ipcidrValidate : Val Unit :=
  if b.length ≠ 1 then .error (.err .lengthNotOne) else .ok ()

def ipcidrBtS : Val Bytes :=
  match ipcidrValidate b with
  | .error err => .error err
  | .ok () => .ok (formatUint (uint (b.take 1)))

def ip4BtS : Val Bytes := .ok (o.ipString b)

/-- `"::ffff:"` goes before an address of version 4. -/
def ip6BtS : Val Bytes :=
  match to4 b with
  | some ip4 => .ok ("::ffff:".toUTF8.toList ++ o.ipString ip4)
  | none => .ok (o.ipString b)

def ip6zoneBtS : Val Bytes :=
  if b.length = 0 then .error (.err .lengthZero) else .ok b

def ip6zoneVal : Val Unit :=
  if b.length = 0 then .error (.err .lengthZero)
  else if 47 ∈ b then .error (.err (.zoneSlash b))
  else .ok ()

/-- `Uint16` panics on less than two bytes. -/
def portBtS : Val Bytes :=
  if b.length < 2 then .error .panicked else .ok (formatUint (uint (b.take 2)))

/-! ## Onion and garlic -/

/-- `base32.StdEncoding` -/
def stdEncoding : Base32.Encoding := newEncoding "ABCDEFGHIJKLMNOPQRSTUVWXYZ234567".toUTF8.toList

/-- The text of a host of `n` bytes with its port behind, and the error for a port of zero. -/
def onionText (err : ValueErr) (b : Bytes) : Val Bytes :=
  if b.length < n + 2 then .error .panicked
  else
    let addr := o.toLower (stdEncoding.encode (b.take n))
    let port := uint ((b.drop n).take 2)
    if port = 0 then .error (.err err) else .ok (addr ++ 58 :: formatUint port)

def onionCheck : Val Unit :=
  if b.length ≠ n + 2 then .error (.err (.invalidLen b.length (n + 2)))
  else if uint ((b.drop n).take 2) = 0 then .error (.err .invalidPortZero)
  else .ok ()

def onionBtS : Val Bytes := onionText o 10 .nonZeroPort b

def onionValidate : Val Unit := onionCheck 10 b

def onion3BtS : Val Bytes := onionText o 35 .portLessThanOne b

def onion3Validate : Val Unit := onionCheck 35 b

def garlic64Validate : Val Unit :=
  if b.length < 386 then .error (.err (.notGarlic64 b)) else .ok ()

def garlic64BtS : Val Bytes :=
  match garlic64Validate b with
  | .error err => .error err
  | .ok () => .ok (o.garlic64 b)

/-- `garlicBase32Encoding` -/
def garlic32Encoding : Base32.Encoding :=
  newEncoding "abcdefghijklmnopqrstuvwxyz234567".toUTF8.toList

def garlic32Validate : Val Unit :=
  if b.length < 35 ∧ b.length ≠ 32 then .error (.err (.notGarlic32 b)) else .ok ()

def garlic32BtS : Val Bytes :=
  match garlic32Validate b with
  | .error err => .error err
  | .ok () => .ok ((garlic32Encoding.encode b).rdropWhile (· = 61))

/-! ## Peers, paths and names -/

/-- `mh.IDENTITY` is 0. -/
def p2pVal : Val Unit :=
  match Multihash.decode b with
  | .error err => .error (err.map .invalidMultihash)
  | .ok h =>
    if h.code ≠ Multihash.sha2_256 ∧ h.code ≠ 0 then .error (.err (.invalidCode h.code))
    else if h.code = Multihash.sha2_256 ∧ h.length ≠ 32 then
      .error (.err (.invalidDigestLength h.length))
    else .ok ()

def p2pBtS : Val Bytes :=
  match Multihash.cast b with
  | .error err => .error (err.map .multihash)
  | .ok m => .ok (o.multibase.base58BTC.encode m)

def unixBtS : Val Bytes := .ok b

def unixValidate : Val Unit :=
  if b.length < 2 then .error (.err (.pathTooShort b.length))
  else if b.head? ≠ some 47 then .error (.err .pathBegin)
  else if b.getLast? = some 47 then .error (.err .pathEnd)
  else .ok ()

def dnsVal : Val Unit :=
  if b.length = 0 then .error (.err .emptyDns)
  else if 47 ∈ b then .error (.err (.dnsSlash b))
  else .ok ()

def dnsBtS : Val Bytes := .ok b

/-! ## Certificates, HTTP paths, memory -/

def validateCertHash : Val Unit :=
  match Multihash.decode b with
  | .error err => .error (err.map .multihash)
  | .ok _ => .ok ()

def certHashBtS : Val Bytes :=
  match Multibase.encode o.multibase .base64url b with
  | .error err => .error (.err (.multibase err))
  | .ok s => .ok s

def httpPathBtS : Val Bytes :=
  if b.length = 0 then .error (.err .emptyPath) else .ok (o.queryEscape b)

def validateHTTPPath : Val Unit :=
  if b.length = 0 then .error (.err .emptyPath) else .ok ()

def memoryBtS : Val Bytes :=
  if b.length ≠ 8 then .error (.err (.uint64Bits (b.length * 8))) else .ok (formatUint (uint b))

def memoryValidate : Val Unit :=
  if b.length ≠ 8 then .error (.err .notEightBytes) else .ok ()

/-! ## The transcoders -/

inductive Coding where
  | ip4 | ip6 | ip6zone | ipcidr | port | onion | onion3 | garlic64 | garlic32 | p2p | unix | dns
  | certHash | httpPath | memory
  deriving DecidableEq, Repr

/-- Without a validator everything is valid. -/
def validateValue : Coding → Bytes → Val Unit
  | .ip4, _ | .ip6, _ | .port, _ => .ok ()
  | .ip6zone, b => ip6zoneVal b
  | .ipcidr, b => ipcidrValidate b
  | .onion, b => onionValidate b
  | .onion3, b => onion3Validate b
  | .garlic64, b => garlic64Validate b
  | .garlic32, b => garlic32Validate b
  | .p2p, b => p2pVal b
  | .unix, b => unixValidate b
  | .dns, b => dnsVal b
  | .certHash, b => validateCertHash b
  | .httpPath, b => validateHTTPPath b
  | .memory, b => memoryValidate b

def valueString : Coding → Bytes → Val Bytes
  | .ip4, b => ip4BtS o b
  | .ip6, b => ip6BtS o b
  | .ip6zone, b => ip6zoneBtS b
  | .ipcidr, b => ipcidrBtS b
  | .port, b => portBtS b
  | .onion, b => onionBtS o b
  | .onion3, b => onion3BtS o b
  | .garlic64, b => garlic64BtS o b
  | .garlic32, b => garlic32BtS b
  | .p2p, b => p2pBtS o b
  | .unix, b => unixBtS b
  | .dns, b => dnsBtS b
  | .certHash, b => certHashBtS o b
  | .httpPath, b => httpPathBtS o b
  | .memory, b => memoryBtS b

/-- The parsers of the values. -/
abbrev Parsers := Coding → Bytes → Val Bytes

variable (parsers : Parsers)

def transcoder (k : Coding) : Transcoder (Fault ValueErr) :=
  ⟨parsers k, valueString o k, validateValue k⟩

theorem onionText_ok {n : Nat} (err : ValueErr) {b : Bytes} (h : onionCheck n b = .ok ()) :
    ∃ s, onionText o n err b = .ok s := by
  unfold onionCheck at h
  unfold onionText
  split at h
  · cases h
  rename_i hlen
  split at h
  · cases h
  · rename_i hport
    rw [if_neg (by omega), if_neg hport]
    exact ⟨_, rfl⟩

/-- What a validator accepts is printed. Ports have no validator, but two bytes. -/
theorem prints {k : Coding} {b : Bytes} (h : validateValue k b = .ok ())
    (hport : k = .port → b.length = 2) : ∃ s, valueString o k b = .ok s := by
  have hsome : ∀ (c : Prop) [Decidable c] (err : Fault ValueErr) (s : Bytes), ¬ c →
      ∃ s', (if c then .error err else .ok s : Val Bytes) = .ok s' :=
    fun c _ err s hc => ⟨s, if_neg hc⟩
  cases k <;> simp only [validateValue, valueString] at h ⊢
  case ip4 | unix | dns => exact ⟨_, rfl⟩
  case ip6 =>
    unfold ip6BtS
    split <;> exact ⟨_, rfl⟩
  case port => exact hsome _ _ _ (by rw [hport rfl]; decide)
  case onion | onion3 => exact onionText_ok o _ h
  case ipcidr => exact ⟨_, by rw [ipcidrBtS, h]⟩
  case garlic64 => exact ⟨_, by rw [garlic64BtS, h]⟩
  case garlic32 => exact ⟨_, by rw [garlic32BtS, h]⟩
  case certHash => exact ⟨_, rfl⟩
  case memory =>
    unfold memoryValidate at h
    split at h
    · cases h
    · rename_i hlen; exact hsome _ _ _ hlen
  case httpPath =>
    unfold validateHTTPPath at h
    split at h
    · cases h
    · rename_i hlen; exact hsome _ _ _ hlen
  case ip6zone =>
    unfold ip6zoneVal at h
    split at h
    · cases h
    · rename_i hlen; exact hsome _ _ _ hlen
  case p2p =>
    unfold p2pVal at h
    split at h
    · cases h
    rename_i hash hdecode
    unfold p2pBtS Multihash.cast
    rw [hdecode]
    exact ⟨_, rfl⟩

/-! ## The table -/

/-- A registered protocol; without an argument, it has neither a size nor a transcoder. -/
structure Row where
  name : String
  code : Nat
  argument : Option (Coding × Int)
  path : Bool
  deriving DecidableEq, Repr

def Row.protocol (r : Row) : Protocol (Fault ValueErr) :=
  { name := r.name.toUTF8.toList, code := r.code, vcode := Varint.putUvarint r.code,
    size := (r.argument.map Prod.snd).getD 0, path := r.path,
    transcoder := r.argument.map fun a => transcoder o parsers a.1 }

def bare (name : String) (code : Nat) : Row := ⟨name, code, none, false⟩

def takes (name : String) (code : Nat) (k : Coding) (size : Int) : Row :=
  ⟨name, code, some (k, size), false⟩

/-- What `init` registers; the size -1 is `LengthPrefixedVarSize`. -/
def rows : List Row :=
  [takes "ip4" 4 .ip4 32, takes "tcp" 6 .port 16, takes "dns" 53 .dns (-1),
    takes "dns4" 54 .dns (-1), takes "dns6" 55 .dns (-1), takes "dnsaddr" 56 .dns (-1),
    takes "udp" 273 .port 16, takes "dccp" 33 .port 16, takes "ip6" 41 .ip6 128,
    takes "ip6zone" 42 .ip6zone (-1), takes "ipcidr" 43 .ipcidr 8, takes "sctp" 132 .port 16,
    bare "p2p-circuit" 290, takes "onion" 444 .onion 96, takes "onion3" 445 .onion3 296,
    takes "garlic64" 446 .garlic64 (-1), takes "garlic32" 447 .garlic32 (-1), bare "utp" 302,
    bare "udt" 301, bare "quic" 460, bare "quic-v1" 461, bare "webtransport" 465,
    takes "certhash" 466 .certHash (-1), bare "http" 480, takes "http-path" 481 .httpPath (-1),
    bare "https" 443, takes "p2p" 421 .p2p (-1), ⟨"unix", 400, some (.unix, -1), true⟩,
    bare "p2p-webrtc-direct" 276, bare "tls" 448, takes "sni" 449 .dns (-1), bare "noise" 454,
    bare "ws" 477, bare "wss" 478, bare "plaintextv2" 7367777, bare "webrtc-direct" 280,
    bare "webrtc" 281, takes "memory" 777 .memory 64]

/-- The maps as `init` leaves them. `AddProtocol` refuses a name or a code that it has, a path
of a fixed size, and an argument without a transcoder; `ipfs` is set to `p2p` on its own. -/
def registered : Protocols (Fault ValueErr) where
  byName n :=
    let name := if n = "ipfs".toUTF8.toList then "p2p".toUTF8.toList else n
    (rows.find? fun r => r.name.toUTF8.toList = name).map (Row.protocol o parsers)
  byCode c := (rows.find? fun r => r.code = c).map (Row.protocol o parsers)

example : (rows.map Row.name).Nodup ∧ (rows.map Row.code).Nodup ∧
    (∀ r ∈ rows, r.path → (r.argument.map Prod.snd) = some (-1)) := by decide

/-- Every argument has a size, and a port has two bytes. -/
theorem rows_argument : ∀ r ∈ rows, ∀ a ∈ r.argument, a.2 ≠ 0 ∧ (a.1 = .port → a.2 = 16) := by
  decide

theorem exists_row (i : Item (registered o parsers)) :
    ∃ r ∈ rows, i.protocol = r.protocol o parsers := by
  have hknown := i.known
  unfold Item.protocol
  unfold Protocols.protocolWithCode registered at hknown ⊢
  dsimp only at hknown ⊢
  cases hfind : rows.find? fun r => r.code = i.code with
  | none =>
    rw [hfind] at hknown
    exact absurd rfl hknown
  | some r => exact ⟨r, List.mem_of_find?_eq_some hfind, rfl⟩

/-- The value of a valid item is printed. -/
theorem value_of_valid {i : Item (registered o parsers)} (h : i.Valid) :
    ∃ value, i.component.value = .ok value := by
  obtain ⟨r, hr, hprotocol⟩ := exists_row o parsers i
  have hsized := i.sized.2.1
  unfold Item.Valid at h
  unfold Component.value
  rw [i.component_protocol, i.component_rawValue]
  change 0 < i.protocol.size → i.value.length = i.protocol.size.toNat / 8 at hsized
  rw [hprotocol] at h hsized ⊢
  cases harg : r.argument with
  | none => exact ⟨[], by simp [Row.protocol, harg]⟩
  | some a =>
    obtain ⟨hne, hport⟩ := rows_argument r hr a harg
    have hsize : (r.protocol o parsers).size = a.2 := by simp [Row.protocol, harg]
    have htrans : (r.protocol o parsers).transcoder = some (transcoder o parsers a.1) := by
      simp [Row.protocol, harg]
    rw [hsize] at h hsized
    obtain ⟨t, ht, hvalid⟩ := h hne
    rw [htrans] at ht ⊢
    cases ht
    obtain ⟨s, hs⟩ := prints o hvalid fun hk => by
      rw [hport hk] at hsized
      exact hsized (by decide)
    exact ⟨s, by dsimp only [transcoder]; rw [hs]⟩

/-- On an address that `NewMultiaddrBytes` accepts no view panics, and all of them are views
of one list of components. -/
theorem valid_views (m : Binary (registered o parsers)) :
    ∃ cs, cs ≠ [] ∧ Views (registered o parsers) m.bytes cs := by
  obtain ⟨is, his, hbytes, hchain⟩ := validateBytes_iff.mp m.valid
  rw [hbytes]
  refine ⟨components is, mt List.map_eq_nil_iff.mp his, ?_⟩
  exact views_concat his fun i hi => value_of_valid o parsers (hchain.valid i hi)

/-- Other packages that know the case of ASCII only. -/
def asciiOnly : Outside where
  multibase := Multibase.plain
  garlic64 b := b
  ipString b := b
  queryEscape b := b
  toUpper s := s.map asciiToUpper
  toLower s := s.map asciiToLower
  spare _ := 0
  toUpper_ascii _ _ := rfl
  toLower_ascii _ _ := rfl
  toLower_short s hs hlow := by
    refine absurd (fun c hc => ?_) hs
    exact forall_byte (P := fun c => asciiToLower c < 0x80 → c < 0x80) (by decide +kernel) c
      (hlow _ (List.mem_map_of_mem hc))

/-- The parsers that accept every text as it is. -/
def verbatim : Parsers := fun _ s => .ok s

/-- The views of `/tcp/80/unix/a`, where a path ends the address. -/
theorem valid_views_path : ∃ cs, cs.length = 2 ∧
    Views (registered asciiOnly verbatim) [6, 0, 80, 0x90, 3, 2, 47, 97] cs := by
  obtain ⟨cs, -, hviews⟩ :=
    valid_views asciiOnly verbatim ⟨[6, 0, 80, 0x90, 3, 2, 47, 97], by decide +kernel⟩
  have hsplit : (split (registered asciiOnly verbatim)
      (some (.multiaddr [6, 0, 80, 0x90, 3, 2, 47, 97]))).map List.length = .ok 2 := by decide +kernel
  rw [hviews.split] at hsplit
  exact ⟨cs, by simpa [Except.map] using hsplit, hviews⟩

end Wire

end Dep2p.Multiaddr
