import Dep2p.Yamux.Session

/- The life of a stream, and how many streams the peer has open.

   What is proved:
     1. `stream_lifecycle` — whatever is called on a stream and whatever flags arrive for it,
        a half that left the open state stays as it is, the stream is finished when both
        halves have left it, and the step that finishes it takes it out of the map, once.
     2. `step_entry` — what the session does to the entry of a stream is what happens to
        the stream here.
     3. `incoming_streams_counted` — while a session is open, `numIncomingStreams` is the
        number of the peer's streams in the map.

   A method has one effect on the stream under the lock and may then call `cleanup`. What
   all of them have in common is `Orderly`, and 1. needs no more than that. -/
namespace Dep2p.Yamux

open Lib Yamux.Stream

/-! ## One stream -/

/-- A half that left the open state stays as it is. -/
def HalfStreamState.Moves (a b : HalfStreamState) : Prop := a = b ∨ a = .halfOpen

variable {a b : HalfStreamState}

theorem HalfStreamState.Moves.trans {c : HalfStreamState} (h : a.Moves b) (h' : b.Moves c) :
    a.Moves c := by
  rcases h with rfl | h
  · exact h'
  · exact .inr h

theorem HalfStreamState.Moves.left (h : a.Moves b) (ha : a ≠ .halfOpen) :
    b ≠ .halfOpen := by
  rcases h with rfl | h
  · exact ha
  · exact absurd h ha

variable {flags : Flags}

namespace Stream

/-- The closing methods as one step, with whether they end in `cleanup`. -/
def closeWrite (str : Stream) : Stream × Bool :=
  match str.lockCloseWrite with
  | (str, .goOn cleanup) => (str.sendFlags.1, cleanup)
  | (str, _) => (str, false)

@[inherit_doc closeWrite]
def closeRead (str : Stream) : Stream × Bool :=
  match str.lockCloseRead with
  | (str, .goOn cleanup) => (str, cleanup)
  | (str, _) => (str, false)

@[inherit_doc closeWrite]
def reset (str : Stream) : Stream × Bool :=
  match str.lockReset with
  | (str, none) => (str, false)
  | (str, some _) => (str, true)

def takeFlags (str : Stream) (flags : Flags) : Stream × Bool :=
  ((str.processFlags flags).1, (str.processFlags flags).2.close)

/-- Both halves have left the open state. -/
def Left (str : Stream) : Prop := str.readState ≠ .halfOpen ∧ str.writeState ≠ .halfOpen

/-- What a method does to a stream: the stream it leaves, and whether it calls `cleanup`. -/
structure Orderly (str : Stream) (out : Stream × Bool) : Prop where
  read : str.readState.Moves out.1.readState
  write : str.writeState.Moves out.1.writeState
  finished : out.1.state = .streamFinished ↔ out.1.Left
  cleanup : out.2 = true ↔ str.state ≠ .streamFinished ∧ out.1.state = .streamFinished

variable {str : Stream}

theorem orderly_self (h : str.state = .streamFinished ↔ str.Left) : str.Orderly (str, false) :=
  ⟨.inl rfl, .inl rfl, h, by simp⟩

theorem sendFlags_halves (str : Stream) : str.sendFlags.1.readState = str.readState ∧
    str.sendFlags.1.writeState = str.writeState ∧
    (str.sendFlags.1.state = .streamFinished ↔ str.state = .streamFinished) := by
  unfold sendFlags
  cases hs : str.state <;> simp [hs]

variable {str' : Stream}

/-- Sending the flags that are due finishes no stream. -/
theorem Orderly.sendFlags {cleanup : Bool} (h : str.Orderly (str', cleanup)) :
    str.Orderly (str'.sendFlags.1, cleanup) := by
  obtain ⟨hr, hw, hs⟩ := sendFlags_halves str'
  refine ⟨hr ▸ h.read, hw ▸ h.write, ?_, ?_⟩
  · rw [hs, Left, hr, hw]
    exact h.finished
  · rw [hs]
    exact h.cleanup

theorem orderly_closeWrite (h : str.state = .streamFinished ↔ str.Left) :
    str.Orderly str.closeWrite := by
  cases hw : str.writeState with
  | halfOpen =>
    have hopen : str.state ≠ .streamFinished := fun hs => (h.mp hs).2 hw
    by_cases hr : str.readState = .halfOpen
    · simp only [closeWrite, lockCloseWrite, hw, hr]
      exact .sendFlags ⟨.inl hr, .inr hw, by simp [Left, hopen], by simp⟩
    · simp only [closeWrite, lockCloseWrite, hw, hr, ne_eq]
      exact .sendFlags ⟨.inl rfl, .inr hw, by simp [Left, hr], by simp [hopen]⟩
  | halfClosed | halfReset =>
    simp only [closeWrite, lockCloseWrite, hw]
    exact orderly_self h

theorem orderly_closeRead (h : str.state = .streamFinished ↔ str.Left) :
    str.Orderly str.closeRead := by
  cases hr : str.readState with
  | halfOpen =>
    have hopen : str.state ≠ .streamFinished := fun hs => (h.mp hs).1 hr
    by_cases hw : str.writeState = .halfOpen
    · simp only [closeRead, lockCloseRead, hr, hw]
      exact ⟨.inr hr, .inl hw, by simp [Left, hopen], by simp⟩
    · simp only [closeRead, lockCloseRead, hr, hw, ne_eq]
      exact ⟨.inr hr, .inl rfl, by simp [Left, hw], by simp [hopen]⟩
  | halfClosed | halfReset =>
    simp only [closeRead, lockCloseRead, hr]
    exact orderly_self h

/-- An open half is reset. -/
theorem moves_reset : a.Moves (if a = .halfOpen then .halfReset else a) ∧
    (if a = .halfOpen then .halfReset else a) ≠ .halfOpen := by
  cases a <;> simp [HalfStreamState.Moves]

theorem orderly_forceClose (hopen : str.state ≠ .streamFinished) :
    str.Orderly (str.forceClose, true) where
  read := moves_reset.1
  write := moves_reset.1
  finished := iff_of_true rfl ⟨moves_reset.2, moves_reset.2⟩
  cleanup := iff_of_true rfl ⟨hopen, rfl⟩

theorem orderly_reset (h : str.state = .streamFinished ↔ str.Left) : str.Orderly str.reset := by
  by_cases hs : str.state = .streamFinished
  · simp only [reset, lockReset, hs]
    exact orderly_self h
  · have hreset : str.reset = (str.forceClose, true) := by
      unfold reset lockReset
      cases hstate : str.state <;> simp_all
    rw [hreset]
    exact orderly_forceClose hs

/-- One effect after the other. -/
theorem Orderly.trans {c : Bool} {out : Stream × Bool} (h : str.Orderly (str', c))
    (h' : str'.Orderly out) (hstr : str.state = .streamFinished ↔ str.Left) :
    str.Orderly (out.1, c || out.2) := by
  have hstay : str.state = .streamFinished → str'.state = .streamFinished := fun hs =>
    h.finished.mpr ⟨h.read.left (hstr.mp hs).1, h.write.left (hstr.mp hs).2⟩
  have hstay' : str'.state = .streamFinished → out.1.state = .streamFinished := fun hs =>
    h'.finished.mpr ⟨h'.read.left (h.finished.mp hs).1, h'.write.left (h.finished.mp hs).2⟩
  refine ⟨h.read.trans h'.read, h.write.trans h'.write, h'.finished, ?_⟩
  have hc := h.cleanup
  have hc' := h'.cleanup
  simp only [Bool.or_eq_true] at hc hc' ⊢
  tauto

/-- `processFlags` takes the flags one by one. -/
def takeAck (str : Stream) (ack : Bool) : Stream :=
  if ack && str.state = .streamSYNSent then { str with state := .streamEstablished } else str

@[inherit_doc takeAck]
def takeFin (str : Stream) (fin : Bool) : Stream × Bool :=
  if fin && str.readState = .halfOpen then
    if str.writeState ≠ .halfOpen then
      ({ str with readState := .halfClosed, state := .streamFinished }, true)
    else ({ str with readState := .halfClosed }, false)
  else (str, false)

theorem takeFlags_eq : str.takeFlags flags =
    (if flags.rst then ((str.takeAck flags.ack).takeFin flags.fin).1.forceClose
      else ((str.takeAck flags.ack).takeFin flags.fin).1,
      ((str.takeAck flags.ack).takeFin flags.fin).2 || flags.rst) := rfl

section

variable (h : str.state = .streamFinished ↔ str.Left)
include h

theorem orderly_takeAck (ack : Bool) : str.Orderly (str.takeAck ack, false) := by
  unfold takeAck
  split
  · rename_i hack
    have hopen : str.state ≠ .streamFinished := by simp_all
    have hleft := mt h.mpr hopen
    exact ⟨.inl rfl, .inl rfl, iff_of_false nofun hleft, by simp⟩
  · exact orderly_self h

theorem orderly_takeFin (fin : Bool) : str.Orderly (str.takeFin fin) := by
  unfold takeFin
  split
  · rename_i hfin
    have hr : str.readState = .halfOpen := by simp_all
    have hopen : str.state ≠ .streamFinished := fun hs => (h.mp hs).1 hr
    split
    · rename_i hw
      exact ⟨.inr hr, .inl rfl, by simp [Left, hw], by simp [hopen]⟩
    · rename_i hw
      exact ⟨.inr hr, .inl rfl, by simp_all [Left], by simp⟩
  · exact orderly_self h

theorem orderly_takeFlags (hopen : str.state ≠ .streamFinished) :
    str.Orderly (str.takeFlags flags) := by
  have hack := orderly_takeAck h flags.ack
  have hfin : str.Orderly ((str.takeAck flags.ack).takeFin flags.fin) :=
    hack.trans (orderly_takeFin hack.finished flags.fin) h
  rw [takeFlags_eq]
  cases hrst : flags.rst with
  | false => rwa [Bool.or_false, if_neg Bool.false_ne_true]
  | true =>
    -- a RST finishes the stream, unless a FIN in the same frame did
    refine ⟨hfin.read.trans moves_reset.1, hfin.write.trans moves_reset.1, ?_, ?_⟩
    · exact iff_of_true rfl ⟨moves_reset.2, moves_reset.2⟩
    · exact iff_of_true (Bool.or_true _) ⟨hopen, rfl⟩

end

end Stream

/-- What happens to a stream. -/
inductive Event where
  | closeWrite
  | closeRead
  | close
  | reset
  /-- `Read`, `Write` and `AcceptStream` send the flags that are due. -/
  | sendFlags
  /-- A frame, and whether `incomingStream` refused its SYN. -/
  | flags (flags : Flags) (refused : Bool)
  | sessionClose

/-- A stream and its place in the map of the session. -/
structure Life where
  str : Stream
  mapped : Bool := true
  /-- How often `deleteStream` or `Session.Close` took the stream out of the map. -/
  removals : Nat := 0

variable {f : Stream → Stream × Bool}

namespace Life

/-- A method of the stream, and the `cleanup` it may end in. -/
def call (l : Life) (f : Stream → Stream × Bool) : Life :=
  if (f l.str).2 && l.mapped then
    { str := (f l.str).1, mapped := false, removals := l.removals + 1 }
  else { l with str := (f l.str).1 }

/-- A session only hands frames to streams in its map, and only closes those. An error in a
frame closes it. -/
def step (l : Life) : Event → Life
  | .closeWrite => l.call Stream.closeWrite
  | .closeRead => l.call Stream.closeRead
  | .close => (l.call Stream.closeRead).call Stream.closeWrite
  | .reset => l.call Stream.reset
  | .sendFlags => l.call fun str => (str.sendFlags.1, false)
  | .flags flags refused =>
    if !l.mapped then l
    else if flags.syn && refused then l.call fun str => (str.forceClose, true)
    else l.call (·.takeFlags flags)
  | .sessionClose => if l.mapped then l.call fun str => (str.forceClose, true) else l

/-- The entry of the stream in the map. -/
def entry (l : Life) : Option Stream := if l.mapped then some l.str else none

/-- Finished streams are those whose halves have both left the open state, and they are the
ones that were taken out of the map, once. -/
structure Sound (l : Life) : Prop where
  finished : l.str.state = .streamFinished ↔ l.str.Left
  mapped : l.mapped = true ↔ l.str.state ≠ .streamFinished
  removals : l.removals = if l.mapped then 0 else 1

/-- A step changes open halves only. -/
def Advances (l l' : Life) : Prop :=
  l.str.readState.Moves l'.str.readState ∧ l.str.writeState.Moves l'.str.writeState

theorem Advances.refl (l : Life) : l.Advances l := ⟨.inl rfl, .inl rfl⟩

variable {l : Life}

theorem Sound.call (h : l.Sound) (hf : l.str.Orderly (f l.str)) :
    (l.call f).Sound ∧ l.Advances (l.call f) := by
  unfold Life.call
  by_cases hc : (f l.str).2 = true
  · -- the stream was not finished, so it is in the map
    obtain ⟨hopen, hdone⟩ := hf.cleanup.mp hc
    have hm := h.mapped.mpr hopen
    rw [if_pos (by rw [hc, hm]; rfl)]
    refine ⟨⟨hf.finished, by simp [hdone], ?_⟩, hf.read, hf.write⟩
    rw [h.removals, hm]
    rfl
  · rw [if_neg (by simp [hc])]
    refine ⟨⟨hf.finished, h.mapped.trans (not_congr ?_), h.removals⟩, hf.read, hf.write⟩
    constructor
    · intro hs
      exact hf.finished.mpr ⟨hf.read.left (h.finished.mp hs).1, hf.write.left (h.finished.mp hs).2⟩
    · intro hs
      by_contra hopen
      exact hc (hf.cleanup.mpr ⟨hopen, hs⟩)

theorem Sound.step (h : l.Sound) (e : Event) : (l.step e).Sound ∧ l.Advances (l.step e) := by
  have hforce : l.mapped = true → (l.call fun str => (str.forceClose, true)).Sound ∧
      l.Advances (l.call fun str => (str.forceClose, true)) :=
    fun hm => h.call (orderly_forceClose (h.mapped.mp hm))
  cases e with
  | closeWrite => exact h.call (orderly_closeWrite h.finished)
  | closeRead => exact h.call (orderly_closeRead h.finished)
  | close =>
    obtain ⟨h₁, ha₁⟩ := h.call (orderly_closeRead h.finished)
    obtain ⟨h₂, ha₂⟩ := h₁.call (orderly_closeWrite h₁.finished)
    exact ⟨h₂, ha₁.1.trans ha₂.1, ha₁.2.trans ha₂.2⟩
  | reset => exact h.call (orderly_reset h.finished)
  | sendFlags =>
    exact h.call (f := fun str => (str.sendFlags.1, false)) (orderly_self h.finished).sendFlags
  | flags flags refused =>
    simp only [Life.step]
    split
    · exact ⟨h, .refl l⟩
    rename_i hm
    have hm : l.mapped = true := by simpa using hm
    split
    · exact hforce hm
    · exact h.call (orderly_takeFlags h.finished (h.mapped.mp hm))
  | sessionClose =>
    simp only [Life.step]
    split
    · rename_i hm
      exact hforce hm
    · exact ⟨h, .refl l⟩

theorem sound_new (cfg : Config) (id : Nat) {state : StreamState} (window span : Nat) (now : Int)
    (hstate : state ≠ .streamFinished) :
    ({ str := newStream cfg id state window span now } : Life).Sound :=
  ⟨by simp [newStream, Stream.Left, hstate], by simp [newStream, hstate], rfl⟩

end Life

/-- In every run of a stream that `OpenStream` or `incomingStream` created. -/
theorem stream_lifecycle {cfg : Config} {id : Nat} {state : StreamState} {window span : Nat}
    {now : Int} (hstate : state ≠ .streamFinished) {l : Life}
    (hr : Reach Life.step (fun _ _ => True) ⟨.newStream cfg id state window span now, true, 0⟩ l) :
    (l.str.state = .streamFinished ↔
        l.str.readState ≠ .halfOpen ∧ l.str.writeState ≠ .halfOpen) ∧
      (l.removals = if l.str.state = .streamFinished then 1 else 0) ∧
      ∀ e, (l.str.readState ≠ .halfOpen → (l.step e).str.readState = l.str.readState) ∧
        (l.str.writeState ≠ .halfOpen → (l.step e).str.writeState = l.str.writeState) ∧
        (l.str.state ≠ .streamFinished → (l.step e).str.state = .streamFinished →
          l.entry = some l.str ∧ (l.step e).entry = none ∧
            (l.step e).removals = l.removals + 1) := by
  have hsound : l.Sound := by
    refine Reach.invariant ?_ (fun t e _ _ h => (h.step e).1) hr
    exact Life.sound_new cfg id window span now hstate
  refine ⟨hsound.finished, ?_, fun e => ?_⟩
  · rw [hsound.removals]
    have hm := hsound.mapped
    cases hmap : l.mapped <;> simp_all
  obtain ⟨hnext, hread, hwrite⟩ := hsound.step e
  refine ⟨fun hne => ?_, fun hne => ?_, fun hopen hdone => ?_⟩
  · exact (hread.resolve_right hne).symm
  · exact (hwrite.resolve_right hne).symm
  · have hm := hsound.mapped.mpr hopen
    have hm' : (l.step e).mapped = false := by
      have := hnext.mapped
      simp_all
    refine ⟨by simp [Life.entry, hm], by simp [Life.entry, hm'], ?_⟩
    rw [hnext.removals, hsound.removals, hm, hm']
    rfl

/-- A stream that was closed for writing, and then by the peer. -/
def bothClosed : Life :=
  ((⟨.newStream .default 1 .streamInit initialStreamWindow 0 0, true, 0⟩ : Life).step
    .closeWrite).step (.flags { fin := true } false)

theorem stream_lifecycle_bothClosed :
    bothClosed.str.state = .streamFinished ∧ bothClosed.removals = 1 := by
  have hrun := stream_lifecycle (l := bothClosed) (by decide)
    (.step (Event.flags { fin := true } false) (.step Event.closeWrite .init trivial) trivial)
  exact ⟨rfl, hrun.2.1⟩

/-! ## The streams of a session -/

namespace Session

variable {s : Session} {id : Nat} {str : Stream}

@[simp] theorem closeStream_get : (s.closeStream id).streams.get id = none := by
  unfold closeStream deleteStream
  split
  · assumption
  · exact Table.get_erase_self _ _

theorem onStream_entry (hheld : str.memorySpan ∈ s.held) (hstr : s.streams.get id = some str) :
    (s.onStream id f).streams.get id = ((⟨str, true, 0⟩ : Life).call f).entry := by
  unfold onStream Life.call Life.entry
  rw [hstr]
  cases hc : (f str).2 <;> simp [hc, hheld]

theorem takeFlags_entry :
    (s.takeFlags id str flags).streams.get id =
      ((⟨str, true, 0⟩ : Life).call (·.takeFlags flags)).entry := by
  unfold takeFlags Life.call Life.entry Stream.takeFlags
  cases hc : (str.processFlags flags).2.close <;> cases he : (str.processFlags flags).2.establish <;>
    simp [hc, he, establishStream, takeSyn]

/-- What the steps of a session make of the entry of a stream. -/
theorem step_entry (hstr : s.streams.get id = some str) (hopen : s.shutdown = false) :
    (str.memorySpan ∈ s.held →
      (s.step (.closeWrite id)).streams.get id = ((⟨str, true, 0⟩ : Life).step .closeWrite).entry ∧
      (s.step (.closeRead id)).streams.get id = ((⟨str, true, 0⟩ : Life).step .closeRead).entry ∧
      (s.step (.reset id)).streams.get id = ((⟨str, true, 0⟩ : Life).step .reset).entry) ∧
    (s.step .close).streams.get id = ((⟨str, true, 0⟩ : Life).step .sessionClose).entry ∧
    ∀ flags refused, (flags.syn && refused) = false →
      (s.takeFlags id str flags).streams.get id =
        ((⟨str, true, 0⟩ : Life).step (.flags flags refused)).entry := by
  refine ⟨fun hheld => ⟨?_, ?_, ?_⟩, ?_, fun flags refused hsyn => ?_⟩
  · exact onStream_entry hheld hstr
  · exact onStream_entry hheld hstr
  · exact onStream_entry hheld hstr
  · simp [step, close, hopen, Life.step, Life.call, Life.entry]
  · rw [takeFlags_entry]
    simp [Life.step, hsyn]

/-! ## Counting the streams of the peer -/

/-- Whether the peer chooses this identifier. -/
def fromPeer (s : Session) (id : Nat) : Bool := s.client == (id % 2 == 0)

/-- `numIncomingStreams` counts the streams of the peer in the map. -/
structure Counted (s : Session) : Prop where
  keyed : s.streams.Keyed
  count : s.numIncomingStreams = s.streams.count fun id _ => s.fromPeer id
  bound : s.numIncomingStreams ≤ s.cfg.maxIncomingStreams.toNat
  own : s.fromPeer s.nextStreamID = false

section

variable (h : s.Counted)
include h

theorem Counted.set (hstr : s.streams.get id = some str) (str' : Stream) :
    { s with streams := s.streams.set id str' }.Counted := by
  refine ⟨h.keyed.set id str', ?_, h.bound, h.own⟩
  exact h.count.trans ((h.keyed.count_erase hstr _).trans (Table.count_set _ _ _ _).symm)

theorem Counted.modifyStream (f : Stream → Stream) : (s.modifyStream id f).Counted := by
  unfold Session.modifyStream
  split
  · exact h
  · exact h.set ‹_› _

/-- There is something to count down when a stream of the peer is deleted. -/
theorem Counted.pos (hstr : s.streams.get id = some str) (hpeer : s.fromPeer id = true) :
    0 < s.numIncomingStreams := by
  have hcount := h.keyed.count_erase hstr fun id _ => s.fromPeer id
  rw [← h.count, if_pos hpeer] at hcount
  omega

theorem Counted.deleteStream (id : Nat) : (s.deleteStream id).Counted := by
  unfold Session.deleteStream
  split
  · exact h
  rename_i str hstr
  have hcount := h.keyed.count_erase hstr fun id _ => s.fromPeer id
  rw [← h.count] at hcount
  have hnum : (if s.fromPeer id then
      if s.numIncomingStreams = 0 then 4294967295 else s.numIncomingStreams - 1
      else s.numIncomingStreams) = (s.streams.erase id).count fun id _ => s.fromPeer id := by
    by_cases hpeer : s.fromPeer id = true
    · rw [if_pos hpeer] at hcount ⊢
      rw [if_neg (h.pos hstr hpeer).ne', hcount, Nat.add_sub_cancel]
    · rw [if_neg hpeer] at hcount ⊢
      exact hcount
  refine ⟨h.keyed.erase id, hnum, hnum.trans_le (le_trans ?_ h.bound), h.own⟩
  rw [hcount]
  exact Nat.le_add_right _ _

theorem Counted.closeStream : (s.closeStream id).Counted := by
  unfold Session.closeStream
  split
  · have hsyn : { s.takeSyn with inflight := s.inflight.erase id }.Counted :=
      ⟨h.keyed, h.count, h.bound, h.own⟩
    exact hsyn.deleteStream id
  · exact h.deleteStream id

/-- An identifier of this side is not counted. -/
theorem Counted.openWithToken (env : OpenEnv) : (s.openWithToken env).1.Counted := by
  have hset : ∀ str, s.streams.count (fun id _ => s.fromPeer id) =
      (s.streams.set s.nextStreamID str).count fun id _ => s.fromPeer id := by
    intro str
    rw [Table.count_set, h.own, if_neg Bool.false_ne_true, Nat.add_zero]
    cases hget : s.streams.get s.nextStreamID with
    | none => rw [Table.erase_of_get_none hget]
    | some str' =>
      rw [h.keyed.count_erase hget, h.own, if_neg Bool.false_ne_true, Nat.add_zero]
  have hown : s.fromPeer (s.nextStreamID + 2) = false := by
    rw [← h.own]
    unfold fromPeer
    rw [Nat.add_mod_right]
  unfold Session.openWithToken
  dsimp only [newMemoryManager]
  split
  · exact h
  split
  · exact ⟨h.keyed, h.count, h.bound, h.own⟩
  split
  · exact ⟨h.keyed, h.count, h.bound, h.own⟩
  split <;> exact ⟨h.keyed.set _ _, h.count.trans (hset _), h.bound, hown⟩

theorem Counted.openStream (env : OpenEnv) : (s.step (.openStream env)).Counted := by
  rw [step_openStream]
  split
  · exact openWithToken (s := { s with synCh := s.synCh + 1 })
      ⟨h.keyed, h.count, h.bound, h.own⟩ env
  · exact h

theorem Counted.acceptStream (t : Tuning) (sendOk : Bool) : (s.acceptStream t sendOk).Counted := by
  unfold Session.acceptStream
  split
  · exact h
  dsimp only
  split
  · exact ⟨h.keyed, h.count, h.bound, h.own⟩
  rename_i id span rest _ str hstr
  have hset := h.set hstr (str.windowUpdate s.cfg t).1
  split
  · exact ⟨h.keyed, h.count, h.bound, h.own⟩
  · split <;> exact ⟨hset.keyed, hset.count, hset.bound, hset.own⟩

theorem Counted.incomingStream (env : FrameEnv) :
    (s.incomingStream id env).1.Counted := by
  unfold Session.incomingStream
  dsimp only
  split
  · exact h
  rename_i hpeer
  iterate 3
    split
    · exact ⟨h.keyed, h.count, h.bound, h.own⟩
  split
  · exact ⟨h.keyed, h.count, h.bound, h.own⟩
  rename_i hnew
  split
  · exact ⟨h.keyed, h.count, h.bound, h.own⟩
  rename_i hroom
  have hnone : s.streams.get id = none := Option.not_isSome_iff_eq_none.mp hnew
  have hpeer : s.fromPeer id = true := by simpa [fromPeer] using hpeer
  have hadd : ({ s with
      numIncomingStreams := s.numIncomingStreams + 1
      streams := s.streams.set id (.newStream s.cfg id .streamSYNReceived initialStreamWindow s.nextSpan env.now)
      spans := insert s.nextSpan s.spans, nextSpan := s.nextSpan + 1 } : Session).Counted := by
    refine ⟨h.keyed.set _ _, ?_, lt_of_not_ge hroom, h.own⟩
    refine .trans ?_ (Table.count_set _ _ _ _).symm
    rw [Table.erase_of_get_none hnone]
    exact congrArg₂ (· + ·) h.count (if_pos hpeer).symm
  split
  · exact ⟨hadd.keyed, hadd.count, hadd.bound, hadd.own⟩
  · -- the backlog is full, and the stream is deleted again
    have hdel := hadd.deleteStream id
    exact ⟨hdel.keyed, hdel.count, hdel.bound, hdel.own⟩

theorem Counted.onStream : (s.onStream id f).Counted := by
  unfold Session.onStream
  split
  · exact h
  split
  · dsimp only
    split
    · exact (h.set ‹_› _).closeStream
    · exact h.set ‹_› _
  · exact h

theorem Counted.takeFlags (hstr : s.streams.get id = some str) :
    (s.takeFlags id str flags).Counted := by
  have hset := h.set hstr (str.processFlags flags).1
  have hest : ∀ {t : Session}, t.Counted → (t.establishStream id).Counted :=
    fun ht => ⟨ht.keyed, ht.count, ht.bound, ht.own⟩
  unfold Session.takeFlags
  dsimp only
  split <;> split
  · exact (hest hset).closeStream
  · exact hset.closeStream
  · exact hest hset
  · exact hset

theorem Counted.takeFrame (buf : SegmentedBuffer) (env : FrameEnv) (f : Frame) :
    (s.takeFrame id buf env f).1.Counted := by
  cases f with
  | windowUpdate flags length => exact h.modifyStream _
  | data flags length body =>
    simp only [Session.takeFrame]
    split
    · exact h
    · split
      · exact ⟨h.keyed, h.count, h.bound, h.own⟩
      · exact h.modifyStream _

theorem Counted.handleStreamMessage (f : Frame) (env : FrameEnv) :
    (s.handleStreamMessage id f env).1.Counted := by
  have hsyn : (s.afterSyn id f env).1.Counted := by
    unfold afterSyn
    split
    · exact h.incomingStream env
    · exact h
  unfold Session.handleStreamMessage
  split
  · rename_i heq
    exact heq ▸ hsyn
  · rename_i t heq
    rw [heq] at hsyn
    split
    · exact hsyn
    · exact (hsyn.takeFlags ‹_›).takeFrame _ env f

end

/-- The calls of a session, with those that set a flag or change a stream in place: `GoAway`,
`Read`, `Write` and the deadlines. -/
inductive Call where
  | op (op : Op)
  | goAway
  | touch (id : Nat) (f : Stream → Stream)

def call (s : Session) : Call → Session
  | .op op => s.step op
  | .goAway => { s with localGoAway := true }
  | .touch id f => s.modifyStream id f

theorem close_shutdown : s.close.shutdown = true := by
  unfold close
  split
  · assumption
  · rfl

/-- The receive loop closes the session after an error. -/
theorem counted_receive {handler : Session → Session × Bool} (h : (handler s).1.Counted)
    (hopen : s.shutdown = false) (hopen' : (s.receive handler).shutdown = false) :
    (s.receive handler).Counted := by
  unfold receive at hopen' ⊢
  rw [if_neg (by simp [hopen])] at hopen' ⊢
  split at hopen'
  · rw [close_shutdown] at hopen'
    cases hopen'
  · rename_i t heq
    rw [heq] at h
    exact h

theorem counted_call (h : s.Counted) (hopen : s.shutdown = false) (c : Call)
    (hopen' : (s.call c).shutdown = false) : (s.call c).Counted := by
  cases c with
  | goAway => exact ⟨h.keyed, h.count, h.bound, h.own⟩
  | touch id f => exact h.modifyStream f
  | op op =>
    cases op with
    | openStream env => exact h.openStream env
    | acceptStream t sendOk => exact h.acceptStream t sendOk
    | closeWrite id | closeRead id | reset id => exact h.onStream
    | frame id f env => exact counted_receive (h.handleStreamMessage f env) hopen hopen'
    | goAway code =>
      refine counted_receive ?_ hopen hopen'
      unfold handleGoAway
      split
      · exact ⟨h.keyed, h.count, h.bound, h.own⟩
      · exact h
    | close =>
      rw [show (s.call (.op .close)).shutdown = true from close_shutdown] at hopen'
      cases hopen'

end Session

/-- Until a session is closed, whatever the peer sends and is called here. -/
theorem incoming_streams_counted {cfg : Config} {client : Bool} {s : Session}
    (hr : Reach Session.call (fun s _ => s.shutdown = false) (.newSession cfg client) s)
    (hopen : s.shutdown = false) :
    s.numIncomingStreams = s.streams.count (fun id _ => s.client == (id % 2 == 0)) ∧
      s.numIncomingStreams ≤ s.cfg.maxIncomingStreams.toNat ∧
      ∀ id str, s.streams.get id = some str → (s.client == (id % 2 == 0)) = true →
        0 < s.numIncomingStreams := by
  have hcounted : s.shutdown = false → s.Counted := by
    refine Reach.invariant (I := fun s => s.shutdown = false → s.Counted) ?_ ?_ hr
    · exact fun _ => ⟨Table.keyed_empty, rfl, Nat.zero_le _, by
        cases client <;> simp [Session.newSession, Session.fromPeer]⟩
    · exact fun t c _ ht h hopen' => Session.counted_call (h ht) ht c hopen'
  have h := hcounted hopen
  exact ⟨h.count, h.bound, fun id str hstr hpeer => h.pos hstr hpeer⟩

/-- The peer of a client opened a stream. -/
def oneIncoming : Session :=
  (Session.newSession .default true).call
    (.op (.frame 2 (.windowUpdate { syn := true } 0) ⟨true, true, true, 0, 0⟩))

theorem incoming_streams_counted_one :
    oneIncoming.numIncomingStreams = 1 ∧ oneIncoming.numIncomingStreams =
      oneIncoming.streams.count fun id _ => oneIncoming.client == (id % 2 == 0) :=
  ⟨by decide +kernel, (incoming_streams_counted (.step _ .init rfl) (by decide +kernel)).1⟩

end Dep2p.Yamux
