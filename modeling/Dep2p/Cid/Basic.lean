import Dep2p.Multiformats.Multibase
import Dep2p.Multiformats.Multihash

/- Content identifiers (`cid.go`, `varint.go` of the same package).

   A CID of version 1 is the number 1, a codec and a multihash. A CID of version 0 is a
   bare multihash of sha2-256, which is told from the others by its length and its first
   two bytes. A CID is kept as its bytes, and what it says is read from them again.

   Correspondence (Go ↔ Lean):
     `tryNewCidV0`, `NewCidV0`, `NewCidV1`              ↔ the same names
     `uvarint`                                          ↔ `uvarint`
     `Version`, `Type`, `Hash`, `Bytes`, `Prefix`       ↔ `version`, `type`, `hash`, `bytes`,
                                                          `getPrefix`
     `Prefix.Bytes`, `PrefixFromBytes`                  ↔ `Prefix.bytes`, `prefixFromBytes`
     `CidFromBytes`, `Cast`, `Decode`                   ↔ `cidFromBytes`, `cast`, `decode` -/
namespace Dep2p

open Lib Varint Multihash

structure Cid where
  str : Multihash.Bytes
  deriving DecidableEq, Repr

variable (buf data mhash : Bytes)

namespace Cid

inductive Err where
  | errInvalidCid (err : Err)
  | cidTooShort
  | invalidHash (code length : Nat)
  | trailingBytes
  | notEnoughBytes
  | expectedVersion1 (got : Nat)
  | refusingToAllocate (size : Nat)
  | varint (err : UvarintErr)
  | multihash (err : Multihash.Err)
  | multibase (err : Multibase.Err)
  | read (err : ReadErr)
  deriving DecidableEq, Repr

/-- An error that says that a CID is invalid. -/
def invalid (err : Err) : Fault Err := .err (.errInvalidCid err)

def dagProtobuf : Nat := 0x70

/-! ## Construction -/

def tryNewCidV0 : Except (Fault Err) Cid := do
  let dec ← Fault.wrap (fun err => .errInvalidCid (.multihash err)) (Multihash.decode mhash)
  if dec.code ≠ sha2_256 ∨ dec.length ≠ 32 then
    .error (invalid (.invalidHash dec.code dec.length))
  else .ok ⟨mhash⟩

/-- `NewCidV0`, which panics where `tryNewCidV0` fails. -/
def newCidV0 : Except (Fault Err) Cid :=
  match tryNewCidV0 mhash with
  | .ok c => .ok c
  | .error _ => .error .panicked

def newCidV1 (codecType : Nat) (mhash : Bytes) : Cid := ⟨1 :: (putUvarint codecType ++ mhash)⟩

/-! ## Access -/

/-- The loop of `uvarint`. It takes numbers of 64 bits, one more than `FromUvarint`, and
an overlong varint only fails at its end. -/
def uvarintLoop (x s i : Nat) : Bytes → Nat × Nat × Option VarintErr
  | [] => (0, 0, some .errUnderflow)
  | b :: buf =>
    if b < 0x80 then
      if i > 9 ∨ i = 9 ∧ b > 1 then (0, 0, some .errOverflow)
      else if b = 0 ∧ i > 0 then (0, 0, some .errNotMinimal)
      else ((x ||| b.toNat <<< s) % 2 ^ 64, i + 1, none)
    else uvarintLoop ((x ||| (b &&& 0x7f).toNat <<< s) % 2 ^ 64) (s + 7) (i + 1) buf

/-- A number and how many bytes it takes, both zero with an error. -/
def uvarint : Nat × Nat × Option VarintErr := uvarintLoop 0 0 0 buf

structure Prefix where
  version : Nat
  codec : Nat
  mhType : Nat
  mhLength : Int
  deriving DecidableEq, Repr

section Access

variable (c : Cid)

def version : Nat := if c.str.length = 34 ∧ c.str[0]? = some 18 ∧ c.str[1]? = some 32 then 0 else 1

def bytes : Bytes := c.str

def type : Nat :=
  if c.version = 0 then dagProtobuf
  else
    let (_, n, _) := uvarint c.str
    let (codec, _, _) := uvarint (c.str.drop n)
    codec

/-- How many bytes a varint takes where its error is ignored. -/
def skipUvarint : Nat :=
  match fromUvarint buf with
  | .ok (_, n) => n
  | .error _ => 0

def hash : Bytes :=
  if c.version = 0 then c.bytes
  else
    let n1 := skipUvarint c.bytes
    let n2 := skipUvarint (c.bytes.drop n1)
    c.bytes.drop (n1 + n2)

/-- `Prefix`; the length is converted to a signed number of 64 bits. -/
def getPrefix : Prefix :=
  if c.version = 0 then
    { mhType := sha2_256, mhLength := 32, version := 0, codec := dagProtobuf }
  else
    let (version, n, _) := uvarint c.str
    let offset := n
    let (codec, n, _) := uvarint (c.str.drop offset)
    let offset := offset + n
    let (mhtype, n, _) := uvarint (c.str.drop offset)
    let offset := offset + n
    let (mhlen, _, _) := uvarint (c.str.drop offset)
    { mhType := mhtype, mhLength := Int.bmod mhlen (2 ^ 64), version, codec }

end Access

/-! ## The parts without the digest -/

def Prefix.bytes (p : Prefix) : Bytes :=
  putUvarint p.version ++ (putUvarint p.codec ++
    (putUvarint p.mhType ++ putUvarint (p.mhLength % 2 ^ 64).toNat))

/-- A `bytes.Reader`. -/
def bytesReader : ByteReader Bytes
  | [] => (.error .eof, [])
  | b :: buf => (.ok b, buf)

/-- A varint from a `bytes.Reader`, or an error that says that the CID is invalid. -/
def readField (r : Bytes) : Except (Fault Err) (Nat × Bytes) :=
  match readUvarint bytesReader r with
  | (.ok v, r) => .ok (v, r)
  | (.error err, _) => .error (invalid (.varint err))

def prefixFromBytes : Except (Fault Err) Prefix := do
  let (vers, r) ← readField buf
  let (codec, r) ← readField r
  let (mhtype, r) ← readField r
  let (mhlen, _) ← readField r
  return { version := vers, codec, mhType := mhtype,
           mhLength := Int.bmod mhlen (2 ^ 64) }

/-! ## Parsing -/

/-- `varint.FromUvarint`, with its error inside the one of a CID. -/
def fromField : Except (Fault Err) (Nat × Nat) :=
  match fromUvarint data with
  | .ok p => .ok p
  | .error err => .error (invalid (.varint (.varint err)))

/-- The length of the CID in front of `data`, and the CID. -/
def cidFromBytes : Except (Fault Err) (Nat × Cid) :=
  if data.length > 2 ∧ data[0]? = some 18 ∧ data[1]? = some 32 then
    if data.length < 34 then .error (invalid .notEnoughBytes)
    else do
      let front ← sliceTo data 34
      let h ← Fault.wrap (fun err => .errInvalidCid (.multihash err)) (Multihash.cast front)
      return (34, ⟨h⟩)
  else do
    let (vers, n) ← fromField data
    if vers ≠ 1 then .error (invalid (.expectedVersion1 vers))
    else do
      let rest ← sliceFrom data n
      let (_, cn) ← fromField rest
      let rest ← sliceFrom data (n + cn)
      let (mhnr, _) ← Fault.wrap (fun err => .errInvalidCid (.multihash err)) (mhFromBytes rest)
      let l := n + cn + mhnr
      let str ← sliceTo data l
      return (l, ⟨str⟩)

def cast : Except (Fault Err) Cid := do
  let (nr, c) ← Fault.wrap .errInvalidCid (cidFromBytes data)
  if nr ≠ data.length then .error (invalid .trailingBytes) else .ok c

/-- `mh.FromB58String` -/
def fromB58String (ext : Multibase.External) (s : Bytes) : Except (Fault Multihash.Err) Bytes :=
  match ext.base58BTC.decode s with
  | none => .error (.err .errInvalidMultihash)
  | some b => Multihash.cast b

/-- `Decode` of a text. A text of 46 characters that starts with `Qm` is a bare multihash. -/
def decode (ext : Multibase.External) (v : Bytes) : Except (Fault Err) Cid :=
  if v.length < 2 then .error (invalid .cidTooShort)
  else if v.length = 46 ∧ v.take 2 = "Qm".toUTF8.toList then do
    let hash ← Fault.wrap (fun err => .errInvalidCid (.multihash err)) (fromB58String ext v)
    tryNewCidV0 hash
  else
    match Multibase.decode ext v with
    | .error .panic => .error .panicked
    | .error err => .error (invalid (.multibase err))
    | .ok (_, data) => cast data

end Cid

end Dep2p
