import Dep2p.Lib.Reach
import Dep2p.Lib.Table
import Dep2p.Yamux.Stream
import Mathlib.Data.Finset.Card

/- A yamux session (`session.go`): opening, accepting and closing streams, and the
   frames of a peer that may send anything.

   `synCh` is a buffered channel that is used as a semaphore: `OpenStream` puts a
   token into it, and the token is taken out when the stream is acknowledged or
   closed. Only the number of tokens matters. `inflight` is the set of streams that
   were opened here and were not acknowledged.

   A call is one step. What the world decides is an argument of the call: which
   case of a `select` is taken, whether a memory span is created, memory granted
   and a frame handed over. The memory spans that were created and are not done are
   the set `spans`.

   Correspondence (Go ↔ Lean):
     `OpenStream`, `AcceptStream`, `Close`          ↔ `openStream`, `acceptStream`, `close`
     `handleStreamMessage`, `incomingStream`        ↔ the same names
     `closeStream`, `deleteStream`, `establishStream` ↔ the same names
     `Stream.sendWindowUpdate` as one step          ↔ `Stream.windowUpdate`
     `CloseWrite`, `CloseRead`, `Reset`             ↔ `closeWrite`, `closeRead`, `reset`

   A stream that left the map is finished, and its closing methods return at once,
   so they are only modelled on streams in the map. Pings change nothing here. -/
namespace Dep2p.Yamux

open Lib

/-- `sendWindowUpdate` as one step: the stream, and the frame when one is due. -/
def Stream.windowUpdate (cfg : Config) (s : Stream) (t : Tuning) : Stream × Option Frame :=
  let (s, flags) := s.sendFlags
  let (buf, needed, delta) := s.recvBuf.growTo s.recvWindow flags.any
  let s := { s with recvBuf := buf }
  if needed then
    let (s, delta) := s.autoTune cfg flags delta t
    (s, some (.windowUpdate flags delta))
  else (s, none)

structure Session where
  cfg : Config
  client : Bool
  remoteGoAway : Bool := false
  localGoAway : Bool := false
  nextStreamID : Nat
  numIncomingStreams : Nat := 0
  streams : Table Nat Stream := ⟨[]⟩
  inflight : Finset Nat := ∅
  /-- The number of tokens in the channel. -/
  synCh : Nat := 0
  /-- The streams to be accepted, each with its identifier and its memory span: an identifier
  may come back with another stream. -/
  acceptCh : List (Nat × Nat) := []
  shutdown : Bool := false
  /-- The streams that `OpenStream` or `AcceptStream` returned, by their memory spans. -/
  held : Finset Nat := ∅
  spans : Finset Nat := ∅
  /-- The number of the next memory span. -/
  nextSpan : Nat := 0

/-- The case `OpenStream` takes in its `select`. -/
inductive Acquire where
  | token | ctxDone | shutdownCh
  deriving DecidableEq, Repr

structure OpenEnv where
  acquire : Acquire
  spanOk : Bool
  memoryOk : Bool
  sendOk : Bool
  tuning : Tuning

inductive OpenErr where
  | shutdownErr | errRemoteGoAway | ctxErr | spanErr | memoryErr | errStreamsExhausted | sendErr
  deriving DecidableEq, Repr

/-- What the world decides when a frame arrives. -/
structure FrameEnv where
  spanOk : Bool
  memoryOk : Bool
  sendOk : Bool
  now : Int
  newCap : Nat

inductive Op where
  | openStream (env : OpenEnv)
  | acceptStream (t : Tuning) (sendOk : Bool)
  | closeWrite (id : Nat)
  | closeRead (id : Nat)
  | reset (id : Nat)
  | frame (id : Nat) (f : Frame) (env : FrameEnv)
  | goAway (code : Nat)
  | close

variable (s : Session) (id : Nat)

namespace Session

def newSession (cfg : Config) (client : Bool) : Session :=
  { cfg, client, nextStreamID := if client then 1 else 2 }

def newMemoryManager : Session :=
  { s with spans := insert s.nextSpan s.spans, nextSpan := s.nextSpan + 1 }

def spanDone (span : Nat) : Session := { s with spans := s.spans.erase span }

/-- Change a stream that is in the map. -/
def modifyStream (f : Stream → Stream) : Session :=
  match s.streams.get id with
  | none => s
  | some str => { s with streams := s.streams.set id (f str) }

/-! ## Closing and establishing -/

def deleteStream : Session :=
  match s.streams.get id with
  | none => s
  | some str =>
    let incoming := if s.client == (id % 2 == 0) then
        -- an underflow prevents the creation of any new streams
        if s.numIncomingStreams = 0 then 4294967295 else s.numIncomingStreams - 1
      else s.numIncomingStreams
    { s with
      numIncomingStreams := incoming
      streams := s.streams.erase id
      spans := s.spans.erase str.memorySpan }

/-- `<-s.synCh`, which does not block. -/
def takeSyn : Session := { s with synCh := s.synCh - 1 }

def closeStream : Session :=
  (if id ∈ s.inflight then { s.takeSyn with inflight := s.inflight.erase id } else s).deleteStream id

/-- The token is taken whether or not the stream is tracked. -/
def establishStream : Session :=
  { s.takeSyn with inflight := s.inflight.erase id }

def close (s : Session) : Session :=
  if s.shutdown then s
  else
    { s with
      shutdown := true
      streams := ⟨[]⟩
      spans := s.spans.filter fun span => !s.streams.entries.any fun p => p.2.memorySpan = span }

/-! ## Opening -/

/-- The channel has the capacity `AcceptBacklog`. -/
def synRoom : Bool := decide ((s.synCh : Int) < s.cfg.acceptBacklog)

/-- `OpenStream` after it put its token into the channel. -/
def openWithToken (env : OpenEnv) : Session × Except OpenErr Nat :=
  if !env.spanOk then (s, .error .spanErr)
  else
    let span := s.nextSpan
    let s := s.newMemoryManager
    if !env.memoryOk then (s, .error .memoryErr)
    else if s.nextStreamID ≥ 4294967294 then (s.spanDone span, .error .errStreamsExhausted)
    else
      let id := s.nextStreamID
      let stream := Stream.newStream s.cfg id .streamInit initialStreamWindow span env.tuning.now
      let (stream, frame) := stream.windowUpdate s.cfg env.tuning
      let s := { s with
        nextStreamID := id + 2
        streams := s.streams.set id stream
        inflight := insert id s.inflight }
      if frame.isSome && !env.sendOk then ((s.takeSyn).spanDone span, .error .sendErr)
      else ({ s with held := insert span s.held }, .ok id)

/-- `OpenStream`; `none` when it blocks. -/
def openStream (env : OpenEnv) : Option (Session × Except OpenErr Nat) :=
  if s.shutdown then some (s, .error .shutdownErr)
  else if s.remoteGoAway then some (s, .error .errRemoteGoAway)
  else match env.acquire with
    | .ctxDone => some (s, .error .ctxErr)
    | .shutdownCh => some (s, .error .shutdownErr)
    | .token =>
      if s.synRoom then some ({ s with synCh := s.synCh + 1 }.openWithToken env) else none

/-- One pass of the loop of `AcceptStream`. -/
def acceptStream (t : Tuning) (sendOk : Bool) : Session :=
  match s.acceptCh with
  | [] => s
  | (id, span) :: rest =>
    let s := { s with acceptCh := rest }
    match s.streams.get id with
    | none => s
    | some str =>
      -- the stream that waited has left the map, and this is a later one
      if str.memorySpan ≠ span then s
      else
        let (str, frame) := str.windowUpdate s.cfg t
        let s := { s with streams := s.streams.set id str }
        if frame.isSome && !sendOk then s else { s with held := insert span s.held }

/-! ## Frames -/

/-- `incomingStream`, with whether it returns an error. -/
def incomingStream (env : FrameEnv) : Session × Bool :=
  if s.client != (id % 2 == 0) then (s, true)
  else if s.localGoAway then (s, !env.sendOk)
  else if !env.spanOk then (s, true)
  else
    let span := s.nextSpan
    let s := s.newMemoryManager
    if !env.memoryOk then (s, true)
    else
      let stream := Stream.newStream s.cfg id .streamSYNReceived initialStreamWindow span env.now
      if (s.streams.get id).isSome then ({ s.spanDone span with localGoAway := true }, true)
      else if s.numIncomingStreams ≥ s.cfg.maxIncomingStreams.toNat then
        (s.spanDone span, !env.sendOk)
      else
        let s := { s with
          numIncomingStreams := s.numIncomingStreams + 1
          streams := s.streams.set id stream }
        if (s.acceptCh.length : Int) < s.cfg.acceptBacklog then
          ({ s with acceptCh := s.acceptCh ++ [(id, span)] }, false)
        else ((s.deleteStream id).spanDone span, !env.sendOk)

/-- A SYN creates the stream first. -/
def afterSyn (f : Frame) (env : FrameEnv) : Session × Bool :=
  if f.flags.syn then s.incomingStream id env else (s, false)

/-- `processFlags`, with what it does in the session. -/
def takeFlags (str : Stream) (flags : Flags) : Session :=
  let (str, effects) := str.processFlags flags
  let s := { s with streams := s.streams.set id str }
  let s := if effects.establish then s.establishStream id else s
  if effects.close then s.closeStream id else s

/-- The rest of a frame for a stream that has this buffer. -/
def takeFrame (buf : SegmentedBuffer) (env : FrameEnv) : Frame → Session × Bool
  | .windowUpdate _ length => (s.modifyStream id (·.incrSendWindow length), false)
  | .data _ length body =>
    if length = 0 then (s, false)
    else match buf.checkOverflow length with
      | some _ => ({ s with localGoAway := true }, true)
      | none =>
        let dst := body.take length
        (s.modifyStream id fun str => { str with recvBuf := str.recvBuf.store dst env.newCap },
          dst.length != length)

def handleStreamMessage (f : Frame) (env : FrameEnv) : Session × Bool :=
  match s.afterSyn id f env with
  | (s, true) => (s, true)
  | (s, false) =>
    match s.streams.get id with
    | none => (s, false)
    | some str => (s.takeFlags id str f.flags).takeFrame id str.recvBuf env f

/-- The receive loop: an error closes the session, which then reads no more. -/
def receive (handler : Session → Session × Bool) : Session :=
  if s.shutdown then s
  else match handler s with
    | (s, true) => s.close
    | (s, false) => s

def handleGoAway (code : Nat) : Session × Bool :=
  if code = 0 then ({ s with remoteGoAway := true }, false) else (s, true)

/-! ## Closing streams -/

/-- A closing method of a stream that was returned. -/
def onStream (f : Stream → Stream × Bool) : Session :=
  match s.streams.get id with
  | none => s
  | some str =>
    if str.memorySpan ∈ s.held then
      let (str, cleanup) := f str
      let s := { s with streams := s.streams.set id str }
      if cleanup then s.closeStream id else s
    else s

def closeWrite : Session :=
  s.onStream id fun str =>
    match str.lockCloseWrite with
    | (str, .goOn cleanup) => (str.sendFlags.1, cleanup)
    | (str, _) => (str, false)

def closeRead : Session :=
  s.onStream id fun str =>
    match str.lockCloseRead with
    | (str, .goOn cleanup) => (str, cleanup)
    | (str, _) => (str, false)

def reset : Session :=
  s.onStream id fun str =>
    match str.lockReset with
    | (str, none) => (str, false)
    | (str, some _) => (str, true)

/-! ## Steps -/

def step (s : Session) : Op → Session
  | .openStream env => ((s.openStream env).map (·.1)).getD s
  | .acceptStream t sendOk => s.acceptStream t sendOk
  | .closeWrite id => s.closeWrite id
  | .closeRead id => s.closeRead id
  | .reset id => s.reset id
  | .frame id f env => s.receive (·.handleStreamMessage id f env)
  | .goAway code => s.receive (·.handleGoAway code)
  | .close => s.close

/-! ## What `OpenStream` comes to -/

/-- `OpenStream` gets as far as putting its token into the channel. -/
def TakesToken (env : OpenEnv) : Prop :=
  s.shutdown = false ∧ s.remoteGoAway = false ∧ env.acquire = .token ∧ s.synRoom = true

instance (env : OpenEnv) : Decidable (s.TakesToken env) :=
  inferInstanceAs (Decidable (_ ∧ _ ∧ _ ∧ _))

variable {s} {env : OpenEnv}

theorem openStream_of_takesToken (h : s.TakesToken env) :
    s.openStream env = some ({ s with synCh := s.synCh + 1 }.openWithToken env) := by
  obtain ⟨hsd, hga, hacq, hroom⟩ := h
  unfold openStream
  rw [if_neg (by rw [hsd]; exact Bool.false_ne_true), if_neg (by rw [hga]; exact Bool.false_ne_true),
    hacq]
  exact if_pos hroom

/-- Before it has a token, `OpenStream` blocks or fails and changes nothing. -/
theorem openStream_of_not_takesToken (h : ¬ s.TakesToken env) :
    s.openStream env = none ∨ ∃ err, s.openStream env = some (s, .error err) := by
  unfold openStream
  split
  · exact .inr ⟨_, rfl⟩
  split
  · exact .inr ⟨_, rfl⟩
  split
  · exact .inr ⟨_, rfl⟩
  · exact .inr ⟨_, rfl⟩
  split
  · rename_i hsd hga _ hacq hroom
    exact absurd ⟨by simpa using hsd, by simpa using hga, hacq, hroom⟩ h
  · exact .inl rfl

theorem step_openStream : s.step (.openStream env) =
    if s.TakesToken env then ({ s with synCh := s.synCh + 1 }.openWithToken env).1 else s := by
  simp only [step]
  split
  · rename_i htake
    rw [openStream_of_takesToken htake]
    rfl
  · rename_i htake
    rcases openStream_of_not_takesToken htake with heq | ⟨err, heq⟩
    all_goals
      rw [heq]
      rfl

end Session

end Dep2p.Yamux
