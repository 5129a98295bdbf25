import Dep2p.Lib.Channel
import Dep2p.Multiformats.Varint

/- Multistream negotiation: `SelectOneOf` at one end, `Negotiate` at the other.

   Both are machines that read and write bytes. A token is a varint length, the text
   and a newline. What the two ends write after they have returned is a parameter of
   each machine (`after`), so that the bytes behind the negotiation can be told from
   those of it. -/
namespace Dep2p.Multistream

open Lib Varint

/-- The bytes of a protocol name. -/
abbrev Proto := List UInt8

/-- `/multistream/1.0.0` -/
def protocolID : Proto := [47, 109, 117, 108, 116, 105, 115, 116, 114, 101, 97, 109, 47, 49, 46, 48, 46, 48]

def na : Proto := [110, 97]

def newline : UInt8 := 10

def delimWrite (mes : Proto) : List UInt8 := putUvarint (mes.length + 1) ++ (mes ++ [newline])

/-! ## Reading a token -/

inductive TokenErr where
  | varint (err : VarintErr)
  | errTooLarge
  | noTrailingNewline
  deriving DecidableEq, Repr

/-- Where `lpReadBuf` is: in the length, or with `n` bytes to go. -/
inductive TokenReader where
  | length (x s : Nat)
  | body (n : Nat) (buf : List UInt8)
  deriving DecidableEq, Repr

namespace TokenReader

def start : TokenReader := .length 0 0

/-- `lpReadBuf` with all its bytes. -/
def finish (buf : List UInt8) : Except TokenErr Proto :=
  if buf.getLast? = some newline then .ok buf.dropLast else .error .noTrailingNewline

def feed (b : UInt8) : TokenReader → TokenReader ⊕ Except TokenErr Proto
  | .length x s =>
    match readByte x s b with
    | .fail err => .inr (.error (.varint err))
    | .more x s => .inl (.length x s)
    | .value n =>
      if n > 1024 then .inr (.error .errTooLarge)
      else if n = 0 then .inr (finish [])
      else .inl (.body n [])
  | .body n buf => if n ≤ 1 then .inr (finish (buf ++ [b])) else .inl (.body (n - 1) (buf ++ [b]))

end TokenReader

/-- Read a token and go on with it. -/
def readNextToken {S : Type} (e : TokenReader → S) (k : Except TokenErr Proto → S) (t : TokenReader) :
    Act UInt8 S :=
  .read fun b => Sum.elim e k (t.feed b)

/-! ## The server -/

structure Handler (H : Type) where
  matchFunc : Proto → Bool
  handle : H

def findHandler {H : Type} (handlers : List (Handler H)) (proto : Proto) : Option H :=
  (handlers.find? fun h => h.matchFunc proto).map (·.handle)

inductive NegotiateErr where
  | token (err : TokenErr)
  | errIncorrectVersion
  deriving DecidableEq, Repr

inductive Server (H : Type) where
  | sendHeader | flushHeader
  | header (t : TokenReader)
  | loop (t : TokenReader)
  | sendNa | flushNa
  | sendTok (tok : Proto) (h : H) | flushTok (tok : Proto) (h : H)
  | returned (res : Except NegotiateErr (Proto × H))
  | done (res : Except NegotiateErr (Proto × H))

/-- What follows the first line of the client. -/
def gotHeader {H : Type} : Except TokenErr Proto → Server H
  | .error err => .returned (.error (.token err))
  | .ok line => if line = protocolID then .loop .start else .returned (.error .errIncorrectVersion)

/-- What follows a proposal. -/
def gotProposal {H : Type} (handlers : List (Handler H)) : Except TokenErr Proto → Server H
  | .error err => .returned (.error (.token err))
  | .ok tok =>
    match findHandler handlers tok with
    | none => .sendNa
    | some h => .sendTok tok h

def negotiate {H : Type} (handlers : List (Handler H)) (after : List UInt8) :
    Server H → Act UInt8 (Server H)
  | .sendHeader => .write (delimWrite protocolID) .flushHeader
  | .flushHeader => .flush (.header .start)
  | .header t => readNextToken .header gotHeader t
  | .loop t => readNextToken .loop (gotProposal handlers) t
  | .sendNa => .write (delimWrite na) .flushNa
  | .flushNa => .flush (.loop .start)
  | .sendTok tok h => .write (delimWrite tok) (.flushTok tok h)
  | .flushTok tok h => .flush (.returned (.ok (tok, h)))
  | .returned res => .write after (.done res)
  | .done _ => .halt

/-! ## The client -/

inductive SelectErr where
  | errNoProtocols
  | errNotSupported (protos : List Proto)
  | errUnrecognizedResponse (actual expected : Proto)
  | protocolIDMismatch
  | token (err : TokenErr)
  deriving DecidableEq, Repr

def readMultistreamHeader : Except TokenErr Proto → Option SelectErr
  | .error err => some (.token err)
  | .ok tok => if tok = protocolID then none else some .protocolIDMismatch

def readProto (proto : Proto) : Except TokenErr Proto → Option SelectErr
  | .error err => some (.token err)
  | .ok tok =>
    if tok = proto then none
    else if tok = na then some (.errNotSupported [proto])
    else some (.errUnrecognizedResponse tok proto)

/-- `join` waits for the goroutine that writes. -/
inductive Client where
  | start
  | header (t : TokenReader)
  | firstReply (err1 : Option SelectErr) (t : TokenReader)
  | join (err1 err2 : Option SelectErr)
  | send (p : Proto) (ps : List Proto)
  | flush (p : Proto) (ps : List Proto)
  | reply (p : Proto) (ps : List Proto) (t : TokenReader)
  | returned (res : Except SelectErr Proto)
  | done (res : Except SelectErr Proto)

variable (protos : List Proto)

/-- The loop of `selectProtosOrFail`; at its end `SelectOneOf` names all its protocols. -/
def selectProtos : List Proto → Client
  | [] => .returned (.error (.errNotSupported protos))
  | p :: ps => .send p ps

/-- What the answer to a proposal leads to: the protocol, the next proposal, or an error. -/
def selected (p : Proto) (ps : List Proto) : Option SelectErr → Client
  | none => .returned (.ok p)
  | some (.errNotSupported _) => selectProtos protos ps
  | some err => .returned (.error err)

/-- `SelectOneOf`. The first proposal goes out with the header, while the client reads. -/
def selectOneOf (after : List UInt8) : Client → Act UInt8 Client
  | .start =>
    match protos with
    | [] => .write [] (.returned (.error .errNoProtocols))
    | p :: _ => .write (delimWrite protocolID ++ delimWrite p) (.header .start)
  | .header t => readNextToken .header (fun r => .firstReply (readMultistreamHeader r) .start) t
  | .firstReply err1 t =>
    readNextToken (.firstReply err1) (fun r => .join err1 (readProto (protos.headD []) r)) t
  | .join err1 err2 =>
    .flush (match err1 with
      | some err => .returned (.error err)
      | none => selected protos (protos.headD []) protos.tail err2)
  | .send p ps => .write (delimWrite p) (.flush p ps)
  | .flush p ps => .flush (.reply p ps .start)
  | .reply p ps t => readNextToken (.reply p ps) (fun r => selected protos p ps (readProto p r)) t
  | .returned res => .write after (.done res)
  | .done _ => .halt

end Dep2p.Multistream
