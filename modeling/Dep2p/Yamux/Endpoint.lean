import Dep2p.Yamux.Stream

/- One end of a yamux stream, with the goroutines that work on it.

   Four goroutines share a stream: one that reads, one that writes and closes the
   write side, the receive loop of the session, and one that may reset the stream
   or close its read side. Each has a place in the method it is running, and one
   step takes it to the next place where another goroutine can run: a step is one
   locked section, one access to an atomic variable, or one `sendMsg`. Whether
   `sendMsg` hands the frame over or gives up at its deadline, whether memory is
   granted, the time and the round trip time are arguments of the step.

   `OpenStream` and `AcceptStream` send a window update before anybody else gets
   the stream; it is the first thing the reading goroutine does here, and the
   stream is usable (`started`) when it is through. The stream of the accepting
   side exists from the beginning and is `admitted` when the SYN arrives.

   The last fields are history: the bytes a writer handed over, the bytes a reader
   was given, whether it was given `io.EOF`, the number of bytes appended to the
   buffer, and the sum of the window updates handed to the session.

   Correspondence (Go ↔ Lean):
     `Read`, `sendWindowUpdate`    ↔ `readNext`, at the places of `Reader`
     `write`, `CloseWrite`         ↔ `writeNext`, at the places of `Writer`
     `handleStreamMessage`, `incrSendWindow`, `readData`, `Append`
                                   ↔ `deliver` and `recvNext`, at the places of `RecvLoop`
     `Reset`, `CloseRead`          ↔ `reset`, `closeRead`, `closeNext` -/
namespace Dep2p.Yamux

/-- Where the reading goroutine is. From `flags` on it is in `sendWindowUpdate`. -/
inductive Reader where
  | idle
  | start (size : Nat)
  | sawClosed (size : Nat)
  | sawData (size : Nat)
  | copy (size : Nat)
  | flags
  | grow (flags : Flags)
  | tune (flags : Flags) (delta : Nat)
  | send (flags : Flags) (delta : Nat)
  deriving DecidableEq, Repr

/-- Where the writing goroutine is: in `write` up to `sent`, else in `CloseWrite`. -/
inductive Writer where
  | idle
  | start (b : List UInt8)
  | window (b : List UInt8)
  | flags (b : List UInt8) (window : Nat)
  | send (b : List UInt8) (window : Nat) (flags : Flags)
  | sent (max : Nat)
  | closeFlags (cleanup : Bool)
  | closeSend (flags : Flags) (cleanup : Bool)
  | cleanup
  deriving DecidableEq, Repr

/-- Where the receive loop is with a frame of this stream. -/
inductive RecvLoop where
  | idle
  | credit (length : Nat)
  | check (length : Nat) (body : List UInt8)
  | fill (length : Nat) (body : List UInt8)
  | exceeded (err : WindowExceeded)
  | failed
  deriving DecidableEq, Repr

inductive Closer where
  | idle
  | sendReset
  | cleanup
  deriving DecidableEq, Repr

structure Endpoint where
  cfg : Config
  stream : Stream
  /-- Whether the session's map has the stream. -/
  registered : Bool
  admitted : Bool
  started : Bool := false
  reader : Reader := .flags
  writer : Writer := .idle
  recv : RecvLoop := .idle
  closer : Closer := .idle
  accepted : List UInt8 := []
  returned : List UInt8 := []
  eof : Bool := false
  appended : Nat := 0
  announced : Nat := 0

inductive Action where
  | read (size : Nat)
  | readNext (t : Tuning) (ok : Bool)
  | write (b : List UInt8)
  | closeWrite
  | writeNext (ok : Bool)
  | deliver (f : Frame) (admitted : Bool)
  | recvNext (newCap : Nat)
  | closeRead
  | reset
  | closeNext (ok : Bool)

variable (e : Endpoint) (ok : Bool)

namespace Endpoint

def opener (cfg : Config) (id : Nat) (now : Int) : Endpoint :=
  { cfg, stream := .newStream cfg id .streamInit initialStreamWindow 0 now,
    registered := true, admitted := true }

def acceptor (cfg : Config) (id : Nat) (now : Int) : Endpoint :=
  { cfg, stream := .newStream cfg id .streamSYNReceived initialStreamWindow 0 now,
    registered := false, admitted := false }

/-- Hand a window update to the session. -/
def announce (flags : Flags) (length : Nat) : Endpoint × List Frame :=
  ({ e with announced := e.announced + length }, [.windowUpdate flags length])

/-- `sendWindowUpdate` returns. -/
def updated : Endpoint :=
  { e with reader := .idle, started := e.started || ok }

/-! ## The reading goroutine -/

def readNext (t : Tuning) (ok : Bool) : Endpoint × List Frame :=
  match e.reader with
  | .idle => (e, [])
  | .start size =>
    match e.stream.readState with
    | .halfOpen => ({ e with reader := .sawData size }, [])
    | .halfClosed => ({ e with reader := .sawClosed size }, [])
    | .halfReset => ({ e with reader := .idle }, [])
  | .sawClosed size =>
    if e.stream.recvBuf.len = 0 then ({ e with reader := .idle, eof := true }, [])
    else ({ e with reader := .sawData size }, [])
  | .sawData size =>
    if e.stream.recvBuf.len = 0 then
      -- blocked: notified, or the deadline passes
      ({ e with reader := if ok then .start size else .idle }, [])
    else ({ e with reader := .copy size }, [])
  | .copy size =>
    let (buf, out) := e.stream.recvBuf.read size
    ({ e with
        stream := { e.stream with recvBuf := buf }
        returned := e.returned ++ out.getD []
        reader := .flags }, [])
  | .flags =>
    if e.admitted then
      let (s, flags) := e.stream.sendFlags
      ({ e with stream := s, reader := .grow flags }, [])
    else (e, [])
  | .grow flags =>
    let (buf, needed, delta) := e.stream.recvBuf.growTo e.stream.recvWindow flags.any
    let e := { e with stream := { e.stream with recvBuf := buf } }
    if needed then ({ e with reader := .tune flags delta }, []) else (e.updated true, [])
  | .tune flags delta =>
    let (s, delta) := e.stream.autoTune e.cfg flags delta t
    ({ e with stream := s, reader := .send flags delta }, [])
  | .send flags delta => if ok then (e.updated true).announce flags delta else (e.updated false, [])

/-! ## The writing goroutine -/

/-- `closeStream` of the session. -/
def unregister : Endpoint := { e with registered := false }

def writeNext : Endpoint × List Frame :=
  match e.writer with
  | .idle => (e, [])
  | .start b =>
    if e.stream.writeState = .halfOpen then ({ e with writer := .window b }, [])
    else ({ e with writer := .idle }, [])
  | .window b =>
    if e.stream.sendWindow = 0 then
      -- blocked: notified, or the deadline passes
      ({ e with writer := if ok then .start b else .idle }, [])
    else ({ e with writer := .flags b e.stream.sendWindow }, [])
  | .flags b window =>
    let (s, flags) := e.stream.sendFlags
    ({ e with stream := s, writer := .send b window flags }, [])
  | .send b window flags =>
    let max := Stream.maxBody e.cfg window b
    if ok then
      ({ e with writer := .sent max, accepted := e.accepted ++ b.take max },
        [.data flags max (b.take max)])
    else ({ e with writer := .idle }, [])
  | .sent max =>
    ({ e with
        stream := { e.stream with sendWindow := sub32 e.stream.sendWindow max }
        writer := .idle }, [])
  | .closeFlags cleanup =>
    let (s, flags) := e.stream.sendFlags
    ({ e with stream := s, writer := .closeSend { flags with fin := true } cleanup }, [])
  | .closeSend flags cleanup =>
    let e := { e with writer := if cleanup then .cleanup else .idle }
    if ok then e.announce flags 0 else (e, [])
  | .cleanup => ({ e.unregister with writer := .idle }, [])

def closeWrite : Endpoint :=
  match e.stream.lockCloseWrite with
  | (s, .goOn cleanup) => { e with stream := s, writer := .closeFlags cleanup }
  | (s, _) => { e with stream := s }

/-! ## The receive loop -/

/-- The flags of a frame, and what they do in the session. -/
def takeFlags (flags : Flags) : Endpoint :=
  let (s, effects) := e.stream.processFlags flags
  { e with stream := s, registered := e.registered && !effects.close }

/-- A frame whose stream is in the map. -/
def handle : Frame → Endpoint
  | .windowUpdate flags length => { e.takeFlags flags with recv := .credit length }
  | .data flags length body =>
    { e.takeFlags flags with recv := if length = 0 then .idle else .check length body }

/-- `handleStreamMessage`: a SYN creates the stream, or is refused with a reset;
what comes for a stream that is not in the map is dropped. -/
def deliver (f : Frame) (admitted : Bool) : Endpoint × List Frame :=
  if f.flags.syn then
    if e.registered then ({ e with recv := .failed }, [])
    -- an identifier that is used again is another stream
    else if e.admitted then (e, [])
    else if admitted then
      (({ e with registered := true, admitted := true } : Endpoint).handle f, [])
    else (e, [.windowUpdate { rst := true } 0])
  else if e.registered then (e.handle f, [])
  else (e, [])

def recvNext (newCap : Nat) : Endpoint :=
  match e.recv with
  | .credit length => { e with stream := e.stream.incrSendWindow length, recv := .idle }
  | .check length body =>
    match e.stream.recvBuf.checkOverflow length with
    | some err => { e with recv := .exceeded err }
    | none => { e with recv := .fill length body }
  | .fill length body =>
    let dst := body.take length
    { e with
      stream := { e.stream with recvBuf := e.stream.recvBuf.store dst newCap }
      appended := e.appended + dst.length
      recv := if dst.length = length then .idle else .failed }
  | _ => e

/-! ## Resetting and closing the read side -/

def closeRead : Endpoint :=
  match e.stream.lockCloseRead with
  | (s, .goOn true) => { e with stream := s, closer := .cleanup }
  | (s, _) => { e with stream := s }

def reset : Endpoint :=
  match e.stream.lockReset with
  | (s, none) => { e with stream := s }
  | (s, some true) => { e with stream := s, closer := .sendReset }
  | (s, some false) => { e with stream := s, closer := .cleanup }

def closeNext : Endpoint × List Frame :=
  match e.closer with
  | .idle => (e, [])
  | .sendReset =>
    let e := { e with closer := .cleanup }
    if ok then e.announce { rst := true } 0 else (e, [])
  | .cleanup => ({ e.unregister with closer := .idle }, [])

/-! ## Steps -/

/-- One step, with the frames it hands to the session. A goroutine starts a call
only when it has the stream and is not in one. -/
def act : Action → Endpoint × List Frame
  | .read size =>
    if e.started ∧ e.reader = .idle then ({ e with reader := .start size }, []) else (e, [])
  | .readNext t ok => e.readNext t ok
  | .write b =>
    if e.started ∧ e.writer = .idle then ({ e with writer := .start b }, []) else (e, [])
  | .closeWrite => if e.started ∧ e.writer = .idle then (e.closeWrite, []) else (e, [])
  | .writeNext ok => e.writeNext ok
  | .deliver f admitted => if e.recv = .idle then e.deliver f admitted else (e, [])
  | .recvNext newCap => (e.recvNext newCap, [])
  | .closeRead => if e.started ∧ e.closer = .idle then (e.closeRead, []) else (e, [])
  | .reset => if e.started ∧ e.closer = .idle then (e.reset, []) else (e, [])
  | .closeNext ok => e.closeNext ok

def step (e : Endpoint) (a : Action) : Endpoint := (e.act a).1

def run (as : List Action) : Endpoint := as.foldl step e

end Endpoint

/-! ## What states and places leave alone -/

/-- The buffer and the windows are left as they are. -/
structure Stream.SameWindows (s s' : Stream) : Prop where
  recvBuf : s'.recvBuf = s.recvBuf
  recvWindow : s'.recvWindow = s.recvWindow
  sendWindow : s'.sendWindow = s.sendWindow

namespace Stream

variable (s : Stream)

theorem sendFlags_same : s.SameWindows s.sendFlags.1 := by
  unfold sendFlags
  split <;> exact ⟨rfl, rfl, rfl⟩

theorem processFlags_same (flags : Flags) : s.SameWindows (s.processFlags flags).1 := by
  unfold processFlags
  constructor
  all_goals
    dsimp only
    repeat' split
    all_goals rfl

theorem lockCloseWrite_same : s.SameWindows s.lockCloseWrite.1 := by
  unfold lockCloseWrite
  repeat' split
  all_goals exact ⟨rfl, rfl, rfl⟩

theorem lockCloseRead_same : s.SameWindows s.lockCloseRead.1 := by
  unfold lockCloseRead
  repeat' split
  all_goals exact ⟨rfl, rfl, rfl⟩

theorem lockReset_same : s.SameWindows s.lockReset.1 := by
  unfold lockReset
  split <;> exact ⟨rfl, rfl, rfl⟩

end Stream

namespace Endpoint

/-- `e'` is `e` but for the states, the closing goroutine, and a receive loop that is
not about to append. -/
structure Still (e e' : Endpoint) : Prop where
  windows : e.stream.SameWindows e'.stream
  accepted : e'.accepted = e.accepted
  writer : e'.writer = e.writer
  reader : e'.reader = e.reader
  appended : e'.appended = e.appended
  announced : e'.announced = e.announced
  recv : ∀ length body, e'.recv = .fill length body → e.recv = .fill length body

theorem Still.refl : Still e e := ⟨⟨rfl, rfl, rfl⟩, rfl, rfl, rfl, rfl, rfl, fun _ _ h => h⟩

theorem still_closeNext : Still e (e.step (.closeNext ok)) := by
  simp only [step, act, closeNext]
  split
  · exact .refl e
  · split <;> exact ⟨⟨rfl, rfl, rfl⟩, rfl, rfl, rfl, rfl, rfl, fun _ _ h => h⟩
  · exact ⟨⟨rfl, rfl, rfl⟩, rfl, rfl, rfl, rfl, rfl, fun _ _ h => h⟩

theorem still_closeRead : Still e (e.step .closeRead) := by
  have hsame := e.stream.lockCloseRead_same
  simp only [step, act]
  split
  · unfold closeRead
    split
    all_goals
      rename_i heq
      rw [heq] at hsame
      exact ⟨hsame, rfl, rfl, rfl, rfl, rfl, fun _ _ h => h⟩
  · exact .refl e

theorem still_reset : Still e (e.step .reset) := by
  have hsame := e.stream.lockReset_same
  simp only [step, act]
  split
  · unfold reset
    split
    all_goals
      rename_i heq
      rw [heq] at hsame
      exact ⟨hsame, rfl, rfl, rfl, rfl, rfl, fun _ _ h => h⟩
  · exact .refl e

/-- The flags of a frame are processed before its length is looked at. -/
theorem still_handle (f : Frame) : Still e (e.handle f) := by
  cases f with
  | windowUpdate flags length =>
    refine ⟨e.stream.processFlags_same flags, rfl, rfl, rfl, rfl, rfl, ?_⟩
    intro _ _ hf
    cases hf
  | data flags length body =>
    refine ⟨e.stream.processFlags_same flags, rfl, rfl, rfl, rfl, rfl, ?_⟩
    intro _ _ hf
    simp only [handle] at hf
    split at hf <;> cases hf

theorem still_deliver (f : Frame) (admitted : Bool) : Still e (e.step (.deliver f admitted)) := by
  simp only [step, act, deliver]
  split_ifs
  · refine ⟨⟨rfl, rfl, rfl⟩, rfl, rfl, rfl, rfl, rfl, ?_⟩
    intro _ _ hf
    cases hf
  · exact .refl e
  · have h := still_handle { e with registered := true, admitted := true } f
    exact ⟨h.windows, h.accepted, h.writer, h.reader, h.appended, h.announced, h.recv⟩
  · exact .refl e
  · exact e.still_handle f
  · exact .refl e
  · exact .refl e

end Endpoint

end Dep2p.Yamux
