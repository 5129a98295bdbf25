import Dep2p.Yamux.Buffer

/- A yamux stream (`stream.go`), its configuration (`mux.go`) and frames (`const.go`).

   The functions here are the parts of the stream's methods that run under one lock
   or touch one atomic variable; the methods that are made of several such parts
   are put together in `Endpoint`, where other goroutines run in between.

   Correspondence (Go ↔ Lean):
     `VerifyConfig`                            ↔ `Config.verify`
     `newStream`, `sendFlags`, `processFlags`  ↔ the same names
     the part of `sendWindowUpdate` after the first `GrowTo` ↔ `autoTune`
     the bound on the body of a data frame in `write`        ↔ `maxBody`
     the locked parts of `CloseWrite`, `CloseRead`, `Reset`, `forceClose`
                                               ↔ `lockCloseWrite`, `lockCloseRead`, `lockReset`, `forceClose`

   A header has 16 bits of flags of which the code looks at four. Deadlines and
   notification channels only decide when a blocked call wakes up; that is left to
   the schedule. -/
namespace Dep2p.Yamux

inductive StreamState where
  | streamInit | streamSYNSent | streamSYNReceived | streamEstablished | streamFinished
  deriving DecidableEq, Repr

inductive HalfStreamState where
  | halfOpen | halfClosed | halfReset
  deriving DecidableEq, Repr

structure Flags where
  syn : Bool := false
  ack : Bool := false
  fin : Bool := false
  rst : Bool := false
  deriving DecidableEq, Repr

/-- `flags != 0`, of the flags the code looks at. -/
def Flags.any (f : Flags) : Bool := f.syn || f.ack || f.fin || f.rst

/-- The frames of a stream: a data frame announces a length and is followed by
its body, a window update carries a number. -/
inductive Frame where
  | data (flags : Flags) (length : Nat) (body : List UInt8)
  | windowUpdate (flags : Flags) (length : Nat)
  deriving DecidableEq, Repr

def Frame.flags : Frame → Flags
  | .data flags _ _ => flags
  | .windowUpdate flags _ => flags

def initialStreamWindow : Nat := 256 * 1024

def headerSize : Nat := 12

/-- The fields of `Config` that decide what is sent and what is refused. -/
structure Config where
  acceptBacklog : Int
  pingBacklog : Int
  keepAliveInterval : Int
  measureRTTInterval : Int
  maxIncomingStreams : UInt32
  initialStreamWindowSize : UInt32
  maxStreamWindowSize : UInt32
  writeCoalesceDelay : Int
  maxMessageSize : UInt32
  deriving DecidableEq, Repr

namespace Config

/-- `VerifyConfig`; the error is its text. -/
def verify (c : Config) : Option String :=
  if c.acceptBacklog ≤ 0 then some "backlog must be positive"
  else if c.keepAliveInterval = 0 then some "keep-alive interval must be positive"
  else if c.measureRTTInterval = 0 then some "measure-rtt interval must be positive"
  else if c.initialStreamWindowSize.toNat < initialStreamWindow then
    some "InitialStreamWindowSize must be larger or equal 256 kB"
  else if c.maxStreamWindowSize < c.initialStreamWindowSize then
    some "MaxStreamWindowSize must be larger than the InitialStreamWindowSize"
  else if c.maxMessageSize.toNat < 1024 then some "MaxMessageSize must be greater than a kilobyte"
  else if c.writeCoalesceDelay < 0 then some "WriteCoalesceDelay must be >= 0"
  else if c.pingBacklog < 1 then some "PingBacklog must be > 0"
  else none

/-- `DefaultConfig`; durations are in nanoseconds. -/
def default : Config :=
  { acceptBacklog := 256, pingBacklog := 32, keepAliveInterval := 30000000000,
    measureRTTInterval := 30000000000, maxIncomingStreams := 1000,
    initialStreamWindowSize := 262144, maxStreamWindowSize := 16777216,
    writeCoalesceDelay := 100000, maxMessageSize := 65536 }

theorem verify_default : default.verify = none := by decide

end Config

structure Stream where
  sendWindow : Nat := initialStreamWindow
  /-- The number of the memory span. -/
  memorySpan : Nat := 0
  id : Nat
  recvWindow : Nat
  epochStart : Int
  state : StreamState
  writeState : HalfStreamState := .halfOpen
  readState : HalfStreamState := .halfOpen
  recvBuf : SegmentedBuffer
  deriving DecidableEq, Repr

/-- What `sendWindowUpdate` is told by the world: the time, the round trip time
(zero when it was not measured), and whether memory is granted. -/
structure Tuning where
  now : Int
  rtt : Int
  granted : Bool

/-- What `processFlags` asks the session to do. -/
structure FlagEffects where
  establish : Bool := false
  close : Bool := false
  deriving DecidableEq, Repr

variable (cfg : Config) (s : Stream) (flags : Flags)

namespace Stream

def newStream (id : Nat) (state : StreamState) (initialWindow : Nat) (span : Nat) (now : Int) :
    Stream :=
  { id, state, memorySpan := span, recvBuf := .new initialWindow,
    recvWindow := cfg.initialStreamWindowSize.toNat, epochStart := now }

/-! ## Sending -/

def sendFlags : Stream × Flags :=
  match s.state with
  | .streamInit => ({ s with state := .streamSYNSent }, { syn := true })
  | .streamSYNReceived => ({ s with state := .streamEstablished }, { ack := true })
  | _ => (s, {})

/-- `max` in `write`: the window, what a message may hold, and the length of the
slice as a `uint32`. -/
def maxBody (window : Nat) (b : List UInt8) : Nat :=
  min (min window (sub32 cfg.maxMessageSize.toNat headerSize)) (b.length % 4294967296)

/-- The window a stream doubles to. -/
def doubled : Nat :=
  if s.recvWindow > 4294967295 / 2 then min 4294967295 cfg.maxStreamWindowSize.toNat
  else min (s.recvWindow * 2) cfg.maxStreamWindowSize.toNat

/-- Whether the window is to be doubled: it was used up within four round trips,
and it is not at its maximum. -/
def wantsTuning (t : Tuning) : Bool :=
  !flags.any && decide (0 < t.rtt) && decide (t.now - s.epochStart < t.rtt * 4) &&
    decide (s.recvWindow < s.doubled cfg)

/-- `sendWindowUpdate` after the first `GrowTo`: the new stream, and what the
frame announces, which is the space gained last. -/
def autoTune (delta : Nat) (t : Tuning) : Stream × Nat :=
  if s.wantsTuning cfg flags t && t.granted then
    let (buf, _, delta) := s.recvBuf.growTo (s.doubled cfg) true
    ({ s with recvWindow := s.doubled cfg, recvBuf := buf, epochStart := t.now }, delta)
  else ({ s with epochStart := t.now }, delta)

/-! ## Flags that arrive -/

/-- `processFlags`, with what is to be done in the session. -/
def processFlags : Stream × FlagEffects :=
  let s := if flags.ack && s.state = .streamSYNSent then { s with state := .streamEstablished } else s
  let (s, closed) :=
    if flags.fin && s.readState = .halfOpen then
      if s.writeState ≠ .halfOpen then
        ({ s with readState := .halfClosed, state := .streamFinished }, true)
      else ({ s with readState := .halfClosed }, false)
    else (s, false)
  let s := if flags.rst then
      { s with
        readState := if s.readState = .halfOpen then .halfReset else s.readState
        writeState := if s.writeState = .halfOpen then .halfReset else s.writeState
        state := .streamFinished }
    else s
  (s, { establish := flags.ack, close := closed || flags.rst })

/-- `incrSendWindow` after the flags. -/
def incrSendWindow (length : Nat) : Stream :=
  { s with sendWindow := add32 s.sendWindow length }

/-! ## Closing -/

/-- What a locked part decides: whether to go on, and whether the stream is
fully closed. -/
inductive CloseResult where
  | goOn (cleanup : Bool)
  | done
  | reset
  deriving DecidableEq, Repr

def lockCloseWrite : Stream × CloseResult :=
  match s.writeState with
  | .halfClosed => (s, .done)
  | .halfReset => (s, .reset)
  | .halfOpen =>
    if s.readState ≠ .halfOpen then
      ({ s with writeState := .halfClosed, state := .streamFinished }, .goOn true)
    else ({ s with writeState := .halfClosed }, .goOn false)

def lockCloseRead : Stream × CloseResult :=
  match s.readState with
  | .halfOpen =>
    if s.writeState ≠ .halfOpen then
      ({ s with readState := .halfReset, state := .streamFinished }, .goOn true)
    else ({ s with readState := .halfReset }, .goOn false)
  | _ => (s, .done)

/-- Both directions that are open are reset. -/
def forceClose : Stream :=
  { s with
    readState := if s.readState = .halfOpen then .halfReset else s.readState
    writeState := if s.writeState = .halfOpen then .halfReset else s.writeState
    state := .streamFinished }

/-- The locked part of `Reset`; the flag says whether a reset is to be sent. -/
def lockReset : Stream × Option Bool :=
  match s.state with
  | .streamFinished => (s, none)
  | .streamInit => (s.forceClose, some false)
  | _ => (s.forceClose, some true)

end Stream

end Dep2p.Yamux
