import Dep2p.Lib.Fault
import Dep2p.Multiformats.Varint
import Dep2p.Multiaddr.Basic

/- The binary form of multiaddresses (`codec.go`, `protocol.go`, `varint.go`).

   A component is the code of its protocol and, if the protocol takes an argument, the
   value: of a fixed number of bits, or behind its length. What values a protocol takes is
   up to its transcoder.

   Correspondence (Go ↔ Lean):
     `Protocol`, `ProtocolWithCode`        ↔ `Protocol`, `Protocols.protocolWithCode`
     `ReadVarintCode`, `sizeForAddr`       ↔ `readVarintCode`, `sizeForAddr`
     `validateBytes`, body of its loop     ↔ `validateBytes`, `validateComponent`
     `multiaddr`, `NewMultiaddrBytes`      ↔ `Binary`, `newMultiaddrBytes` -/
namespace Dep2p.Multiaddr

open Lib Varint

abbrev Bytes := List UInt8

/-- Conversions of a protocol's argument; `ε` are their errors. -/
structure Transcoder (ε : Type) where
  stringToBytes : Bytes → Except ε Bytes
  bytesToString : Bytes → Except ε Bytes
  validateBytes : Bytes → Except ε Unit

structure Protocol (ε : Type) where
  name : Bytes := []
  code : Nat := 0
  vcode : Bytes := []
  /-- In bits; negative for a value behind its length. -/
  size : Int := 0
  path : Bool := false
  transcoder : Option (Transcoder ε) := none

/-- The protocols by name and by code. -/
structure Protocols (ε : Type) where
  byName : Bytes → Option (Protocol ε)
  byCode : Nat → Option (Protocol ε)

inductive CodecErr (ε : Type) where
  | emptyMultiaddr
  | varint (err : VarintErr)
  | noProtocol (code : Nat)
  | invalidSize (length : Nat)
  | invalidPathSize (size length : Nat)
  | value (err : ε)
  deriving DecidableEq, Repr

variable {ε : Type}

variable (ps : Protocols ε) (b : Bytes)

namespace Protocols

/-- The map's zero value has code 0. -/
def protocolWithCode (c : Nat) : Protocol ε := (ps.byCode c).getD {}

def protocolWithName (s : Bytes) : Protocol ε := (ps.byName s).getD {}

end Protocols

def maxInt32 : Nat := 2 ^ 31 - 1

/-- A code, and the number of its bytes. -/
def readVarintCode : Except VarintErr (Nat × Nat) := do
  let (code, n) ← fromUvarint b
  if code > maxInt32 then .error .errOverflow else .ok (code, n)

/-- How many bytes to skip before a value, and the size of the value in bytes. -/
def sizeForAddr (p : Protocol ε) (b : Bytes) : Except VarintErr (Nat × Nat) :=
  if p.size > 0 then .ok (0, p.size.toNat / 8)
  else if p.size = 0 then .ok (0, 0)
  else do
    let (size, n) ← readVarintCode b
    .ok (n, size)

/-- The body of the loop of `validateBytes`: what is left after the first component. -/
def validateComponent : Except (Fault (CodecErr ε)) Bytes :=
  match readVarintCode b with
  | .error err => .error (.err (.varint err))
  | .ok (code, n) =>
    let b := b.drop n
    let p := ps.protocolWithCode code
    if p.code = 0 then .error (.err (.noProtocol code))
    else if p.size = 0 then .ok b
    else
      match sizeForAddr p b with
      | .error err => .error (.err (.varint err))
      | .ok (n, size) =>
        let b := b.drop n
        if b.length < size then .error (.err (.invalidSize b.length))
        else if p.path ∧ b.length ≠ size then .error (.err (.invalidPathSize size b.length))
        else
          match p.transcoder with
          | none => .error .panicked
          | some t =>
            match t.validateBytes (b.take size) with
            | .error err => .error (.err (.value err))
            | .ok () => .ok (b.drop size)

theorem readVarintCode_ok {b : Bytes} {c n : Nat} (h : readVarintCode b = .ok (c, n)) :
    ∃ ys, b = putUvarint c ++ ys ∧ n = (putUvarint c).length ∧ c ≤ maxInt32 := by
  obtain ⟨⟨c', n'⟩, hread, h⟩ := bind_eq_ok.mp h
  dsimp only at h
  split at h
  · cases h
  rename_i hle
  cases h
  obtain ⟨ys, hb, hn, -⟩ := fromUvarint_ok hread
  exact ⟨ys, hb, hn, not_lt.mp hle⟩

theorem validateComponent_lt {ps : Protocols ε} {b rest : Bytes}
    (h : validateComponent ps b = .ok rest) : rest.length < b.length := by
  unfold validateComponent at h
  split at h
  · cases h
  rename_i code n hcode
  obtain ⟨ys, rfl, rfl, -⟩ := readVarintCode_ok hcode
  have hpos := List.length_pos_iff.mpr (putUvarint_ne_nil code)
  rw [List.drop_left] at h
  rw [List.length_append]
  dsimp only at h
  split at h
  · cases h
  split at h
  · cases h
    omega
  · split at h
    · cases h
    split at h
    · cases h
    split at h
    · cases h
    split at h
    · cases h
    split at h
    · cases h
    · cases h
      simp only [List.length_drop]
      omega

/-- The loop of `validateBytes`. -/
def validateComponents (ps : Protocols ε) (b : Bytes) : Except (Fault (CodecErr ε)) Unit :=
  if b.isEmpty then .ok ()
  else
    match h : validateComponent ps b with
    | .error err => .error err
    | .ok rest =>
      have : rest.length < b.length := validateComponent_lt h
      validateComponents ps rest
termination_by b.length

@[simp] theorem validateComponents_nil : validateComponents ps [] = .ok () := by
  rw [validateComponents]
  rfl

theorem validateComponents_step {ps : Protocols ε} {b rest : Bytes}
    (h : validateComponent ps b = .ok rest) :
    validateComponents ps b = validateComponents ps rest := by
  have hb : b.isEmpty ≠ true := by
    cases b with
    | nil => exact absurd (validateComponent_lt h) (Nat.not_lt_zero _)
    | cons x xs => exact Bool.false_ne_true
  rw [validateComponents, if_neg hb]
  split
  · rename_i err herr
    rw [h] at herr
    cases herr
  · rename_i rest' hrest
    rw [h] at hrest
    cases hrest
    rfl

def validateBytes : Except (Fault (CodecErr ε)) Unit :=
  if b.isEmpty then .error (.err .emptyMultiaddr) else validateComponents ps b

/-- A multiaddress in the form of its bytes, which are valid. -/
structure Binary (ps : Protocols ε) where
  bytes : Bytes
  valid : validateBytes ps bytes = .ok ()

/-- Bytes that are not valid give an error, and so does a panic. -/
def newMultiaddrBytes : Except (Fault (CodecErr ε)) (Binary ps) :=
  match h : validateBytes ps b with
  | .error err => .error err
  | .ok () => .ok ⟨b, h⟩

theorem newMultiaddrBytes_bytes {ps : Protocols ε} (a : Binary ps) :
    newMultiaddrBytes ps a.bytes = .ok a := by
  unfold newMultiaddrBytes
  split
  · rename_i err h
    rw [a.valid] at h
    cases h
  · rfl

end Dep2p.Multiaddr
