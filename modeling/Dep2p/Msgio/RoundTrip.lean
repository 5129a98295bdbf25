import Dep2p.Msgio.Frame

/- What is written is what is read.

   The abstract reader is a `Mailbox`: the messages that were written, in their order. A
   call looks at the first of them, a read takes it, and an empty mailbox answers with the
   end of file. A read into a buffer that is too short takes nothing.

   What is proved:
     `framing_round_trip_iff` — the varint reader cannot be told from the mailbox, for any
     chunks and any calls; the reader of four-byte lengths cannot exactly when every
     message is shorter than 2^32 bytes, since the writer cuts the length to 32 bits. -/
namespace Dep2p.Msgio

open Lib Varint List Source Reader

/-! ## The mailbox -/

abbrev Mailbox := List Msg

def Mailbox.step : Mailbox → Call → Answer × Mailbox
  | [], .nextMsgLen => (.len (.error (.read .eof)), [])
  | [], .read _ => (.msg ⟨0, [], some (.read .eof)⟩, [])
  | [], .readMsg => (.msg ⟨0, [], some (.read .eof)⟩, [])
  | m :: ms, .nextMsgLen => (.len (.ok m.length), m :: ms)
  | m :: ms, .read bufLen =>
    if m.length ≤ bufLen then (.msg ⟨m.length, m, none⟩, ms)
    else (.msg ⟨0, [], some .errShortBuffer⟩, m :: ms)
  | m :: ms, .readMsg => (.msg ⟨m.length, m, none⟩, ms)

variable {call : Call} {msgs : Mailbox}

/-! ## Lengths -/

theorem length_putUint32 (n : Nat) : (putUint32 n).length = 4 := rfl

theorem uint32_putUint32 (n : Nat) : uint32 (putUint32 n) = n % 2 ^ 32 := by
  simp only [uint32, putUint32, foldl_cons, foldl_nil, UInt8.toNat_ofNat']
  omega

variable {src : Source UInt8}

theorem readLen_put (n : Nat) {ys : List UInt8}
    (h : src.rest = putUint32 n ++ ys) :
    ∃ src', readLen src = (.ok ((n % 2 ^ 32 : Nat) : Int), src') ∧ src'.rest = ys := by
  obtain ⟨src', hfull, hrest⟩ := readFull_append h
  rw [length_putUint32] at hfull
  refine ⟨src', ?_, hrest⟩
  rw [readLen, hfull, ← uint32_putUint32]

/-- A way to read lengths that were written by `put`, for lengths that satisfy `ok`. -/
structure Reads (readLen : Source UInt8 → Except Err Int × Source UInt8)
    (put : Nat → List UInt8) (ok : Nat → Prop) : Prop where
  length : ∀ n, ok n → ∀ src ys, Source.rest src = put n ++ ys →
    ∃ src', readLen src = (.ok n, src') ∧ src'.rest = ys
  eof : ∀ src, Source.rest src = [] →
    ∃ src', readLen src = (.error (.read .eof), src') ∧ src'.rest = []

theorem reads_uint32 : Reads readLen putUint32 (· < 2 ^ 32) where
  length := by
    intro n hn src ys h
    obtain ⟨src', hread, hrest⟩ := readLen_put n h
    rw [Nat.mod_eq_of_lt hn] at hread
    exact ⟨src', hread, hrest⟩
  eof := by
    intro src h
    obtain ⟨src', hfull, hrest⟩ := readFull_eof (k := 4) (by decide) h
    refine ⟨src', ?_, hrest⟩
    rw [readLen, hfull]

theorem reads_uvarint : Reads readVarintLen putUvarint (· < 2 ^ 63) where
  length := by
    intro n hn src ys h
    obtain ⟨src', hread, hrest⟩ := readUvarint_put simpleReadByte_lawful hn h
    refine ⟨src', ?_, hrest⟩
    rw [readVarintLen, hread]
  eof := by
    intro src h
    obtain ⟨src', hread, hrest⟩ := readUvarint_eof simpleReadByte_lawful h
    refine ⟨src', ?_, hrest⟩
    rw [readVarintLen, hread]

/-! ## The reader and the mailbox -/

section Simulation

variable {readLen : Source UInt8 → Except Err Int × Source UInt8} {put : Nat → List UInt8}
  {ok : Nat → Prop} {s : Reader} {m : Msg} {ms : List Msg}

/-- The bytes of messages, each behind its length. -/
def frames (put : Nat → List UInt8) (msgs : List Msg) : List UInt8 :=
  msgs.flatMap fun m => put m.length ++ m

/-- The length of the first message was read and the message was not. -/
structure Peeked (put : Nat → List UInt8) (s : Reader) (m : Msg) (ms : List Msg) : Prop where
  next : s.next = m.length
  rest : s.R.rest = m ++ frames put ms

/-- The reader holds the messages that are in the mailbox, before or after a look at the
length of the first. -/
structure Holds (put : Nat → List UInt8) (ok : Nat → Prop) (s : Reader) (msgs : List Msg) :
    Prop where
  fits : ∀ m ∈ msgs, ok m.length ∧ (m.length : Int) ≤ s.max.toInt
  place : s.next = -1 ∧ s.R.rest = frames put msgs ∨ ∃ m ms, msgs = m :: ms ∧ Peeked put s m ms

/-- A reader of an empty mailbox has no length and nothing to read. -/
theorem Holds.nil (h : Holds put ok s []) : s.next = -1 ∧ s.R.rest = [] := by
  rcases h.place with hplace | ⟨m, ms, hcons, -⟩
  · exact hplace
  · cases hcons

theorem nextMsgLen_nil (hr : Reads readLen put ok) (h : Holds put ok s []) :
    ∃ s', nextMsgLenWith readLen s = (.error (.read .eof), s') ∧ Holds put ok s' [] := by
  obtain ⟨hnext, hrest⟩ := h.nil
  obtain ⟨src, hread, hsrc⟩ := hr.eof s.R hrest
  refine ⟨{ s with R := src }, ?_, fun m hm => (by cases hm), .inl ⟨hnext, hsrc⟩⟩
  rw [nextMsgLenWith, if_pos hnext, hread]

/-- Whether or not its length was read before, a look at it leaves the message to be read. -/
theorem nextMsgLen_cons (hr : Reads readLen put ok) (h : Holds put ok s (m :: ms)) :
    ∃ s', nextMsgLenWith readLen s = (.ok m.length, s') ∧ Peeked put s' m ms ∧ s'.max = s.max := by
  rcases h.place with ⟨hnext, hrest⟩ | ⟨m', ms', hcons, hpeeked⟩
  · have hm := (h.fits m mem_cons_self).1
    rw [frames, flatMap_cons, append_assoc] at hrest
    obtain ⟨src, hread, hsrc⟩ := hr.length m.length hm s.R _ hrest
    refine ⟨{ s with R := src, next := m.length }, ?_, ⟨rfl, hsrc⟩, rfl⟩
    rw [nextMsgLenWith, if_pos hnext, hread]
  · cases hcons
    refine ⟨s, ?_, hpeeked, rfl⟩
    have hne : ¬ s.next = -1 := by
      rw [hpeeked.next]
      omega
    rw [nextMsgLenWith, if_neg hne, hpeeked.next]

variable {s' : Reader}

theorem Holds.of_peeked (h : Holds put ok s (m :: ms)) (hp : Peeked put s' m ms)
    (hmax : s'.max = s.max) : Holds put ok s' (m :: ms) :=
  ⟨by rw [hmax]; exact h.fits, .inr ⟨m, ms, rfl, hp⟩⟩

theorem Holds.taken (h : Holds put ok s (m :: ms)) (hnext : s'.next = -1)
    (hrest : s'.R.rest = frames put ms) (hmax : s'.max = s.max) : Holds put ok s' ms :=
  ⟨by rw [hmax]; exact fun m' hm' => h.fits m' (mem_cons_of_mem _ hm'),
    .inl ⟨hnext, hrest⟩⟩

/-- What a reader does with the message whose length it has. -/
def Fills (put : Nat → List UInt8) (fill : Reader → Int → ReadResult × Reader) : Prop :=
  ∀ s m ms, Peeked put s m ms → ∃ s', fill s m.length = (⟨m.length, m, none⟩, s') ∧
    s'.next = -1 ∧ s'.R.rest = frames put ms ∧ s'.max = s.max

theorem fills_reader : Fills put fill := by
  intro s m ms hp
  obtain ⟨src, hfull, hrest⟩ := readFull_append hp.rest
  refine ⟨{ s with R := src, next := -1 }, ?_, rfl, hrest, rfl⟩
  rw [fill, Int.toNat_natCast, hfull]
  dsimp only
  rw [if_neg (lt_irrefl _)]
  rfl

theorem fills_varintReader : Fills put VarintReader.fill := by
  intro s m ms hp
  obtain ⟨src, hfull, hrest⟩ := readFull_append hp.rest
  refine ⟨{ s with R := src, next := -1 }, ?_, rfl, hrest, rfl⟩
  rw [VarintReader.fill, Int.toNat_natCast, hfull]
  rfl

/-- `Read` of either reader. -/
def readWith (readLen : Source UInt8 → Except Err Int × Source UInt8)
    (fill : Reader → Int → ReadResult × Reader) (s : Reader) (bufLen : Nat) :
    ReadResult × Reader :=
  match nextMsgLenWith readLen s with
  | (.error err, s) => (⟨0, [], some err⟩, s)
  | (.ok length, s) =>
    if length > bufLen then (⟨0, [], some .errShortBuffer⟩, s) else fill s length

/-- What a call of the reader answers and leaves is what the mailbox answers and leaves. -/
def Matches (put : Nat → List UInt8) (ok : Nat → Prop) (res : Answer × Reader)
    (spec : Answer × Mailbox) : Prop :=
  res.1 = spec.1 ∧ Holds put ok res.2 spec.2

theorem matches_nextMsgLen (hr : Reads readLen put ok) (h : Holds put ok s msgs) :
    Matches put ok (.len (nextMsgLenWith readLen s).1, (nextMsgLenWith readLen s).2)
      (msgs.step .nextMsgLen) := by
  cases msgs with
  | nil =>
    obtain ⟨s', hnext, hholds⟩ := nextMsgLen_nil hr h
    rw [hnext]
    exact ⟨rfl, hholds⟩
  | cons m ms =>
    obtain ⟨s', hnext, hpeeked, hmax⟩ := nextMsgLen_cons hr h
    rw [hnext]
    exact ⟨rfl, h.of_peeked hpeeked hmax⟩

variable {fill : Reader → Int → ReadResult × Reader}

theorem matches_read (hr : Reads readLen put ok)
    (hf : Fills put fill) (h : Holds put ok s msgs) (bufLen : Nat) :
    Matches put ok (.msg (readWith readLen fill s bufLen).1, (readWith readLen fill s bufLen).2)
      (msgs.step (.read bufLen)) := by
  unfold readWith
  cases msgs with
  | nil =>
    obtain ⟨s', hnext, hholds⟩ := nextMsgLen_nil hr h
    rw [hnext]
    exact ⟨rfl, hholds⟩
  | cons m ms =>
    obtain ⟨s', hnext, hpeeked, hmax⟩ := nextMsgLen_cons hr h
    rw [hnext]
    dsimp only [Mailbox.step]
    by_cases hroom : m.length ≤ bufLen
    · obtain ⟨s'', hfill, hnext', hrest, hmax'⟩ := hf s' m ms hpeeked
      rw [if_pos hroom, if_neg (by omega), hfill]
      exact ⟨rfl, h.taken hnext' hrest (hmax'.trans hmax)⟩
    · rw [if_neg hroom, if_pos (by omega)]
      exact ⟨rfl, h.of_peeked hpeeked hmax⟩

/-- `ReadMsg` of either reader; `big` is the test for messages that are too large. -/
def readMsgWith (readLen : Source UInt8 → Except Err Int × Source UInt8)
    (fill : Reader → Int → ReadResult × Reader) (big : Reader → Int → Prop)
    [∀ s n, Decidable (big s n)] (s : Reader) : ReadResult × Reader :=
  match nextMsgLenWith readLen s with
  | (.error err, s) => (⟨0, [], some err⟩, s)
  | (.ok length, s) =>
    if length = 0 then (⟨0, [], none⟩, { s with next := -1 })
    else if big s length then (⟨0, [], some .errMsgTooLarge⟩, s)
    else fill s length

theorem matches_readMsg (hr : Reads readLen put ok)
    (hf : Fills put fill) (big : Reader → Int → Prop) [∀ s n, Decidable (big s n)]
    (hbig : ∀ s (n : Nat), (n : Int) ≤ s.max.toInt → ¬ big s n) (h : Holds put ok s msgs) :
    Matches put ok (.msg (readMsgWith readLen fill big s).1, (readMsgWith readLen fill big s).2)
      (msgs.step .readMsg) := by
  unfold readMsgWith
  cases msgs with
  | nil =>
    obtain ⟨s', hnext, hholds⟩ := nextMsgLen_nil hr h
    rw [hnext]
    exact ⟨rfl, hholds⟩
  | cons m ms =>
    obtain ⟨s', hnext, hpeeked, hmax⟩ := nextMsgLen_cons hr h
    have hfits := (h.fits m mem_cons_self).2
    rw [hnext]
    dsimp only
    split
    · rename_i hzero
      have hnil : m = [] := length_eq_zero_iff.mp (by omega)
      subst hnil
      have hrest := hpeeked.rest
      exact ⟨rfl, h.taken rfl hrest hmax⟩
    · obtain ⟨s'', hfill, hnext', hrest, hmax'⟩ := hf s' m ms hpeeked
      rw [if_neg (hbig s' _ (hmax ▸ hfits)), hfill]
      exact ⟨rfl, h.taken hnext' hrest (hmax'.trans hmax)⟩

end Simulation

/-- Each call of the reader of four-byte lengths is a call of the mailbox. -/
theorem matches_reader (s : Reader)
    (h : Holds putUint32 (· < 2 ^ 32) s msgs) :
    Matches putUint32 (· < 2 ^ 32) (s.step call) (msgs.step call) := by
  cases call with
  | nextMsgLen => exact matches_nextMsgLen reads_uint32 h
  | read bufLen => exact matches_read reads_uint32 fills_reader h bufLen
  | readMsg =>
    exact matches_readMsg reads_uint32 fills_reader (fun s n => n > s.max.toInt ∨ n < 0)
      (fun _ _ _ => by omega) h

theorem matches_varintReader (s : Reader)
    (h : Holds putUvarint (· < 2 ^ 63) s msgs) :
    Matches putUvarint (· < 2 ^ 63) (VarintReader.step s call) (msgs.step call) := by
  cases call with
  | nextMsgLen => exact matches_nextMsgLen reads_uvarint h
  | read bufLen => exact matches_read reads_uvarint fills_varintReader h bufLen
  | readMsg =>
    exact matches_readMsg reads_uvarint fills_varintReader (fun s n => n > s.max.toInt)
      (fun _ _ _ => by omega) h

/-! ## The round trip -/

/-- However the bytes of the messages are chunked, and whatever is called, the reader
answers as the mailbox of the messages does. -/
def RoundTrip (write : Msg → List UInt8) (step : Reader → Call → Answer × Reader) (max : Int64)
    (msgs : List Msg) : Prop :=
  ∀ src : Source UInt8, src.rest = msgs.flatMap write → ∀ calls : List Call,
    answers step { R := src, max } calls = answers Mailbox.step msgs calls

section RoundTrip

variable {max : Int64} {msgs : List Msg}

theorem roundTrip_reader (hmax : ∀ m ∈ msgs, (m.length : Int) ≤ max.toInt)
    (hlen : ∀ m ∈ msgs, m.length < 2 ^ 32) : RoundTrip writeMsg step max msgs := by
  intro src hsrc calls
  have hholds : Holds putUint32 (· < 2 ^ 32) { R := src, max } msgs :=
    ⟨fun m hm => ⟨hlen m hm, hmax m hm⟩, .inl ⟨rfl, hsrc⟩⟩
  exact answers_eq (fun s t a => matches_reader s) hholds calls

theorem roundTrip_varintReader (hmax : ∀ m ∈ msgs, (m.length : Int) ≤ max.toInt) :
    RoundTrip varintWriteMsg VarintReader.step max msgs := by
  intro src hsrc calls
  have hbound : ∀ m ∈ msgs, m.length < 2 ^ 63 := by
    intro m hm
    have hm := hmax m hm
    have hlt := max.toInt_lt
    omega
  have hholds : Holds putUvarint (· < 2 ^ 63) { R := src, max } msgs :=
    ⟨fun m hm => ⟨hbound m hm, hmax m hm⟩, .inl ⟨rfl, hsrc⟩⟩
  exact answers_eq (fun s t a => matches_varintReader s) hholds calls

/-- A first look shows the length modulo 2^32. -/
theorem nextMsgLen_mod (m : Msg) (ms : List Msg)
    (hsrc : src.rest = (m :: ms).flatMap writeMsg) :
    answers step { R := src, max } [.nextMsgLen] =
      [.len (.ok ((m.length % 2 ^ 32 : Nat) : Int))] := by
  obtain ⟨src', hread, -⟩ := readLen_put m.length hsrc
  have hnext : nextMsgLenWith readLen { R := src, max } =
      (.ok ((m.length % 2 ^ 32 : Nat) : Int),
        { R := src', next := ((m.length % 2 ^ 32 : Nat) : Int), max }) := by
    rw [nextMsgLenWith, if_pos rfl, hread]
  simp [answers, step, nextMsgLen, hnext]

/-- A source with the length and the message in chunks of their own. -/
theorem readMsg_chunks (m : Msg) (hmax : (m.length : Int) ≤ max.toInt)
    (hlen : m.length < 2 ^ 32) :
    ∃ src₀, src₀.rest = writeMsg m ++ src.rest ∧
      (readMsg { R := src₀, max }).2 = { R := src, max } := by
  have hput : putUint32 m.length ≠ [] := by simp [putUint32]
  have hfour : ∀ cs, (⟨putUint32 m.length :: cs, src.eofLast⟩ : Source UInt8).readFull 4 =
      (putUint32 m.length, none, ⟨cs, src.eofLast⟩) :=
    fun cs => readFull_chunk _ cs _ hput
  have hread : ∀ cs, readLen ⟨putUint32 m.length :: cs, src.eofLast⟩ =
      (.ok (m.length : Int), ⟨cs, src.eofLast⟩) := by
    intro cs
    have hvalue : uint32 (putUint32 m.length) = m.length := by
      rw [uint32_putUint32, Nat.mod_eq_of_lt hlen]
    rw [readLen, hfour]
    dsimp only
    rw [hvalue]
  have hnext : ∀ cs, nextMsgLenWith readLen
      { R := ⟨putUint32 m.length :: cs, src.eofLast⟩, max } =
        (.ok (m.length : Int), { R := ⟨cs, src.eofLast⟩, next := m.length, max }) := by
    intro cs
    rw [nextMsgLenWith, if_pos rfl, hread]
  by_cases hnil : m = []
  · -- an empty message has no chunk of its own
    refine ⟨⟨putUint32 m.length :: src.chunks, src.eofLast⟩, ?_, ?_⟩
    · simp [rest, writeMsg, hnil]
    · rw [readMsg, nextMsgLen, hnext]
      dsimp only
      rw [if_pos (by simp [hnil])]
  · have hpos : 0 < m.length := length_pos_iff.mpr hnil
    refine ⟨⟨putUint32 m.length :: m :: src.chunks, src.eofLast⟩, ?_, ?_⟩
    · simp [rest, writeMsg]
    · rw [readMsg, nextMsgLen, hnext]
      dsimp only
      rw [if_neg (by omega), if_neg (by omega), fill, Int.toNat_natCast,
        readFull_chunk _ _ _ hnil]
      dsimp only
      rw [if_neg (lt_irrefl _)]

/-- What is indistinguishable from a mailbox stays so after its first message. -/
theorem RoundTrip.tail {m : Msg} (h : RoundTrip writeMsg step max (m :: msgs))
    (hmax : (m.length : Int) ≤ max.toInt) (hlen : m.length < 2 ^ 32) :
    RoundTrip writeMsg step max msgs := by
  intro src hsrc calls
  obtain ⟨src₀, hrest, hstate⟩ := readMsg_chunks m hmax hlen
  have hall := h src₀ (by rw [hrest, hsrc, flatMap_cons]) (.readMsg :: calls)
  simp only [answers, cons.injEq] at hall
  have htail := hall.2
  dsimp only [step] at htail
  rw [hstate] at htail
  exact htail

theorem RoundTrip.lengths (h : RoundTrip writeMsg step max msgs)
    (hmax : ∀ m ∈ msgs, (m.length : Int) ≤ max.toInt) : ∀ m ∈ msgs, m.length < 2 ^ 32 := by
  induction msgs with
  | nil => exact fun m hm => by cases hm
  | cons m ms ih =>
    have hlook := h ⟨[(m :: ms).flatMap writeMsg], false⟩ (by simp [rest]) [.nextMsgLen]
    rw [nextMsgLen_mod m ms (by simp [rest])] at hlook
    have hlen : m.length < 2 ^ 32 := by
      simp only [answers, Mailbox.step, cons.injEq, Answer.len.injEq, Except.ok.injEq] at hlook
      omega
    have hms := ih (h.tail (hmax m mem_cons_self) hlen)
      fun m' hm' => hmax m' (mem_cons_of_mem _ hm')
    exact forall_mem_cons.mpr ⟨hlen, hms⟩

end RoundTrip

/-- Messages within the reader's maximum make the round trip: always with varint lengths,
and with four-byte lengths exactly when each is shorter than 2^32 bytes. -/
theorem framing_round_trip_iff (max : Int64) (msgs : List Msg)
    (hmax : ∀ m ∈ msgs, (m.length : Int) ≤ max.toInt) :
    (RoundTrip writeMsg Reader.step max msgs ↔ ∀ m ∈ msgs, m.length < 2 ^ 32) ∧
      RoundTrip varintWriteMsg VarintReader.step max msgs :=
  ⟨⟨fun h => h.lengths hmax, fun h => roundTrip_reader hmax h⟩, roundTrip_varintReader hmax⟩

theorem framing_round_trip_two :
    (RoundTrip writeMsg Reader.step 8388608 [[1, 2, 3], []] ↔
        ∀ m ∈ ([[1, 2, 3], []] : List Msg), m.length < 2 ^ 32) ∧
      RoundTrip varintWriteMsg VarintReader.step 8388608 [[1, 2, 3], []] :=
  framing_round_trip_iff 8388608 [[1, 2, 3], []] (by decide)

/-- A message of 2^32 bytes is announced with length zero. -/
theorem length_wraps :
    ∃ (max : Int64) (msg : Msg) (src : Source UInt8), (msg.length : Int) ≤ max.toInt ∧
      src.rest = [msg].flatMap writeMsg ∧
      answers Reader.step { R := src, max } [.nextMsgLen] = [.len (.ok 0)] ∧
      answers Mailbox.step [msg] [.nextMsgLen] = [.len (.ok 4294967296)] := by
  have hlen : (replicate 4294967296 (0 : UInt8)).length = 4294967296 := length_replicate
  refine ⟨4294967296, replicate 4294967296 0,
    ⟨[[replicate 4294967296 0].flatMap writeMsg], false⟩, ?_, ?_, ?_, ?_⟩
  · rw [hlen]
    decide
  · rw [rest, flatten_singleton]
  · rw [nextMsgLen_mod _ [] (by rw [rest, flatten_singleton]), hlen]
    rfl
  · rw [answers, Mailbox.step, hlen]
    rfl

end Dep2p.Msgio
