import Dep2p.Multiformats.Varint
import Dep2p.Lib.Reach

/- Messages with a length in front (`msgio.go`, `varint.go`, `num.go`).

   A writer puts the length of a message before it, as four bytes or as a varint. A reader
   keeps the length it has read until the message is taken: `next` is -1 or the length that
   was announced. The underlying reader is a `Source`, the underlying writer takes all it is
   given, and the buffer pool only decides where a message is stored.

   The two readers differ after a message that ends too early: `Reader` remembers how much
   of it is missing, `VarintReader` forgets the message and still reports its full length.

   Correspondence (Go ↔ Lean):
     `writer.WriteMsg`, `varintWriter.WriteMsg`  ↔ `writeMsg`, `varintWriteMsg`
     `ReadLen`                                   ↔ `readLen`
     `reader.NextMsgLen`, `Read`, `ReadMsg`      ↔ `Reader.nextMsgLen`, `read`, `readMsg`
     the same of `varintReader`                  ↔ `VarintReader.nextMsgLen`, `read`, `readMsg` -/
namespace Dep2p.Msgio

open Lib Varint

abbrev Msg := List UInt8

inductive Err where
  | read (err : ReadErr)
  | varint (err : VarintErr)
  | errShortBuffer
  | errMsgTooLarge
  deriving DecidableEq, Repr

/-! ## Writing -/

/-- `NBO.PutUint32` of `uint32(n)`. -/
def putUint32 (n : Nat) : List UInt8 :=
  let ul := n % 2 ^ 32
  [UInt8.ofNat (ul / 2 ^ 24), UInt8.ofNat (ul / 2 ^ 16), UInt8.ofNat (ul / 2 ^ 8), UInt8.ofNat ul]

/-- `NBO.Uint32` -/
def uint32 (buf : List UInt8) : Nat := buf.foldl (fun n b => n * 256 + b.toNat) 0

def writeMsg (msg : Msg) : List UInt8 := putUint32 msg.length ++ msg

def varintWriteMsg (msg : Msg) : List UInt8 := putUvarint msg.length ++ msg

/-! ## Reading -/

def readLen (r : Source UInt8) : Except Err Int × Source UInt8 :=
  match r.readFull 4 with
  | (buf, none, r) => (.ok (uint32 buf), r)
  | (_, some err, r) => (.error (.read err), r)

/-- `varint.ReadUvarint`, as the length of a message. The code calls the one of go-varint, of
which `multiformats/varint` is a copy; the copy is what is read here. -/
def readVarintLen (r : Source UInt8) : Except Err Int × Source UInt8 :=
  match readUvarint simpleReadByte r with
  | (.ok length, r) => (.ok length, r)
  | (.error (.varint err), r) => (.error (.varint err), r)
  | (.error (.read err), r) => (.error (.read err), r)

/-- What a read returns: a length, the bytes that were read, and an error. -/
structure ReadResult where
  n : Int
  data : List UInt8
  err : Option Err
  deriving DecidableEq, Repr

/-- The state of both readers. -/
structure Reader where
  R : Source UInt8
  /-- The length of the next message, -1 where it was not read yet. -/
  next : Int := -1
  max : Int64
  deriving DecidableEq, Repr

variable (s : Reader)

/-- The length of the next message, with the way a length is read. -/
def nextMsgLenWith (readLen : Source UInt8 → Except Err Int × Source UInt8) (s : Reader) :
    Except Err Int × Reader :=
  if s.next = -1 then
    match readLen s.R with
    | (.error err, r) => (.error err, { s with R := r })
    | (.ok n, r) => (.ok n, { s with R := r, next := n })
  else (.ok s.next, s)

namespace Reader

def nextMsgLen : Except Err Int × Reader := nextMsgLenWith readLen s

/-- Fill a buffer of `length` bytes and remember what is missing. -/
def fill (length : Int) : ReadResult × Reader :=
  match s.R.readFull length.toNat with
  | (buf, err, r) =>
    (⟨buf.length, buf, err.map .read⟩,
      { s with R := r, next := if (buf.length : Int) < length then length - buf.length else -1 })

/-- A read into a buffer of `bufLen` bytes. -/
def read (bufLen : Nat) : ReadResult × Reader :=
  match s.nextMsgLen with
  | (.error err, s) => (⟨0, [], some err⟩, s)
  | (.ok length, s) =>
    if length > bufLen then (⟨0, [], some .errShortBuffer⟩, s) else s.fill length

def readMsg : ReadResult × Reader :=
  match s.nextMsgLen with
  | (.error err, s) => (⟨0, [], some err⟩, s)
  | (.ok length, s) =>
    if length = 0 then (⟨0, [], none⟩, { s with next := -1 })
    else if length > s.max.toInt ∨ length < 0 then (⟨0, [], some .errMsgTooLarge⟩, s)
    else s.fill length

end Reader

namespace VarintReader

def nextMsgLen : Except Err Int × Reader := nextMsgLenWith readVarintLen s

/-- Fill a buffer of `length` bytes; the message counts as taken in any case. -/
def fill (length : Int) : ReadResult × Reader :=
  match s.R.readFull length.toNat with
  | (buf, err, r) => (⟨length, buf, err.map .read⟩, { s with R := r, next := -1 })

def read (bufLen : Nat) : ReadResult × Reader :=
  match nextMsgLen s with
  | (.error err, s) => (⟨0, [], some err⟩, s)
  | (.ok length, s) =>
    if length > bufLen then (⟨0, [], some .errShortBuffer⟩, s) else fill s length

def readMsg : ReadResult × Reader :=
  match nextMsgLen s with
  | (.error err, s) => (⟨0, [], some err⟩, s)
  | (.ok length, s) =>
    if length = 0 then (⟨0, [], none⟩, { s with next := -1 })
    else if length > s.max.toInt then (⟨0, [], some .errMsgTooLarge⟩, s)
    else fill s length

end VarintReader

/-! ## Calls -/

inductive Call where
  | nextMsgLen
  | read (bufLen : Nat)
  | readMsg
  deriving DecidableEq, Repr

inductive Answer where
  | len (res : Except Err Int)
  | msg (res : ReadResult)
  deriving DecidableEq

def Reader.step : Call → Answer × Reader
  | .nextMsgLen => (.len s.nextMsgLen.1, s.nextMsgLen.2)
  | .read bufLen => (.msg (s.read bufLen).1, (s.read bufLen).2)
  | .readMsg => (.msg s.readMsg.1, s.readMsg.2)

def VarintReader.step : Call → Answer × Reader
  | .nextMsgLen => (.len (VarintReader.nextMsgLen s).1, (VarintReader.nextMsgLen s).2)
  | .read bufLen => (.msg (VarintReader.read s bufLen).1, (VarintReader.read s bufLen).2)
  | .readMsg => (.msg (VarintReader.readMsg s).1, (VarintReader.readMsg s).2)

end Dep2p.Msgio
