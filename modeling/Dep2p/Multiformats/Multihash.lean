import Dep2p.Lib.Fault
import Dep2p.Multiformats.Varint

/- Multihashes (`multihash.go`, `io.go`).

   A multihash is the code of a hash function, the length of a digest and the digest. The
   names of the codes, which no other modelled function reads, are left out.

   Correspondence (Go ↔ Lean):
     `uvarint`, `readMultihashFromBuf`, `Encode`    ↔ the same names
     `Decode`, `Cast`, `MHFromBytes`                ↔ `decode`, `cast`, `mhFromBytes`
     `mhReader.ReadByte`, `ReadMultihash`           ↔ `mhReadByte`, `readMultihash`

   What is proved: what is accepted is what `Encode` writes, with whatever follows
   (`readMultihashFromBuf_encode`, `readMultihashFromBuf_ok`), from a buffer or a reader
   (`multihash_canonical`). -/
namespace Dep2p.Multihash

open Lib Varint List Safe

abbrev Bytes := List UInt8

structure DecodedMultihash where
  code : Nat
  length : Nat
  digest : Bytes
  deriving DecidableEq, Repr

inductive Err where
  | varint (err : VarintErr)
  | errVarintBufferShort
  | errTooShort
  | digestTooLong
  | lengthGreater
  | errInconsistentLen (dm : DecodedMultihash) (lengthFound : Nat)
  | errInvalidMultihash
  deriving DecidableEq, Repr

def sha2_256 : Nat := 0x12

/-- A varint and the bytes after it. The number of bytes read is never negative. -/
def uvarint (buf : Bytes) : Except (Fault Err) (Nat × Bytes) :=
  match fromUvarint buf with
  | .error err => .error (.err (.varint err))
  | .ok (n, c) =>
    if c = 0 then .error (.err .errVarintBufferShort)
    else do
      let rest ← sliceFrom buf c
      return (n, rest)

/-- The length of the multihash in front of `buf`, its code and its digest. -/
def readMultihashFromBuf (buf : Bytes) : Except (Fault Err) (Nat × Nat × Bytes) :=
  if buf.length < 2 then .error (.err .errTooShort)
  else do
    let (code, rest) ← uvarint buf
    let (length, rest) ← uvarint rest
    if length > 2 ^ 31 - 1 then .error (.err .digestTooLong)
    else if length > rest.length then .error (.err .lengthGreater)
    else do
      let digest ← sliceTo rest length
      return (buf.length - rest.length + length, code, digest)

def decode (buf : Bytes) : Except (Fault Err) DecodedMultihash := do
  let (rlen, code, hdig) ← readMultihashFromBuf buf
  let dm : DecodedMultihash := ⟨code, hdig.length, hdig⟩
  if buf.length ≠ rlen then .error (.err (.errInconsistentLen dm rlen)) else .ok dm

def cast (buf : Bytes) : Except (Fault Err) Bytes := do
  let _ ← decode buf
  return buf

def mhFromBytes (buf : Bytes) : Except (Fault Err) (Nat × Bytes) := do
  let (nr, _, _) ← readMultihashFromBuf buf
  let m ← sliceTo buf nr
  return (nr, m)

def encode (buf : Bytes) (code : Nat) : Bytes := putUvarint code ++ (putUvarint buf.length ++ buf)

variable {ys : Bytes}

/-! ## What is accepted -/

theorem uvarint_put {n : Nat} (hn : n < 2 ^ 63) :
    uvarint (putUvarint n ++ ys) = .ok (n, ys) := by
  have hpos : (putUvarint n).length ≠ 0 := fun h => putUvarint_ne_nil n (length_eq_zero_iff.mp h)
  rw [uvarint, fromUvarint_put hn]
  dsimp only
  rw [if_neg hpos, sliceFrom_append]
  rfl

theorem uvarint_ok {n : Nat} {buf rest : Bytes} (h : uvarint buf = .ok (n, rest)) :
    buf = putUvarint n ++ rest ∧ n < 2 ^ 63 := by
  unfold uvarint at h
  split at h
  · cases h
  rename_i v c hfrom
  obtain ⟨ys, hbuf, hc, hlt⟩ := fromUvarint_ok hfrom
  split at h
  · cases h
  · rw [hbuf, hc, sliceFrom_append] at h
    cases h
    exact ⟨hbuf, hlt⟩

theorem uvarint_safe (buf : Bytes) : Safe (uvarint buf) := by
  unfold uvarint
  split
  · exact err _
  rename_i v c hfrom
  obtain ⟨ys, hbuf, hc, -⟩ := fromUvarint_ok hfrom
  split
  · exact err _
  · refine bind (sliceFrom_safe ?_) fun rest _ => ok _
    rw [hbuf, hc, length_append]
    exact Nat.le_add_right _ _

/-- A code and a digest that a multihash can have. -/
structure Fits (code : Nat) (digest : Bytes) : Prop where
  code_lt : code < 2 ^ 63
  length_lt : digest.length < 2 ^ 31

variable {code n : Nat} {digest buf : Bytes} {m : Bytes}

/-- A multihash is read to its end, whatever follows. -/
theorem readMultihashFromBuf_encode (h : Fits code digest) (ys : Bytes) :
    readMultihashFromBuf (encode digest code ++ ys) = .ok ((encode digest code).length, code, digest) := by
  have h1 := length_pos_iff.mpr (putUvarint_ne_nil code)
  have h2 := length_pos_iff.mpr (putUvarint_ne_nil digest.length)
  have hlen := h.length_lt
  have hlen' : digest.length < 2 ^ 63 := hlen.trans (by decide)
  unfold readMultihashFromBuf encode
  rw [if_neg (by simp only [length_append]; omega), append_assoc,
    uvarint_put h.code_lt, ok_bind, append_assoc]
  dsimp only
  rw [uvarint_put hlen', ok_bind]
  rw [if_neg (by omega), if_neg (by rw [length_append]; omega), sliceTo_append, ok_bind]
  simp only [length_append]
  congr 2
  omega

/-- Only what `Encode` writes is accepted. -/
theorem readMultihashFromBuf_ok (h : readMultihashFromBuf buf = .ok (n, code, digest)) :
    ∃ ys, buf = encode digest code ++ ys ∧ n = (encode digest code).length ∧ Fits code digest := by
  unfold readMultihashFromBuf at h
  split at h
  · cases h
  obtain ⟨⟨code', rest⟩, hcode, h⟩ := bind_eq_ok.mp h
  obtain ⟨⟨length, rest'⟩, hlength, h⟩ := bind_eq_ok.mp h
  dsimp only at h
  split at h
  · cases h
  split at h
  · cases h
  rename_i hshort hle
  obtain ⟨hbuf, hlt⟩ := uvarint_ok hcode
  obtain ⟨hrest, -⟩ := uvarint_ok hlength
  rw [sliceTo, if_pos (not_lt.mp hle)] at h
  cases h
  have htake : (rest'.take length).length = length :=
    length_take_of_le (not_lt.mp hle)
  have hall : buf = encode (rest'.take length) code ++ rest'.drop length := by
    rw [encode, htake, hbuf, hrest]
    simp
  refine ⟨rest'.drop length, hall, ?_, hlt, by rw [htake]; omega⟩
  have hsum := congrArg List.length hall
  rw [length_append, length_drop] at hsum
  have henc : length ≤ (encode (rest'.take length) code).length := by
    rw [encode, length_append, length_append]
    omega
  omega

theorem readMultihashFromBuf_safe : Safe (readMultihashFromBuf buf) := by
  unfold readMultihashFromBuf
  split
  · exact err _
  refine bind (uvarint_safe buf) fun p _ => bind (uvarint_safe p.2) fun q _ => ?_
  dsimp only
  split
  · exact err _
  split
  · exact err _
  · rename_i hle
    exact bind (sliceTo_safe (not_lt.mp hle)) fun digest _ => ok _

theorem decode_encode (h : Fits code digest) :
    decode (encode digest code) = .ok ⟨code, digest.length, digest⟩ := by
  have hread := readMultihashFromBuf_encode h []
  rw [append_nil] at hread
  rw [decode, hread, ok_bind]
  dsimp only
  rw [if_neg (not_not.mpr rfl)]

theorem decode_ok {dm : DecodedMultihash} (h : decode buf = .ok dm) :
    buf = encode dm.digest dm.code ∧ dm.length = dm.digest.length ∧ Fits dm.code dm.digest := by
  obtain ⟨⟨rlen, code, hdig⟩, hread, h⟩ := bind_eq_ok.mp h
  obtain ⟨ys, hbuf, hn, hfits⟩ := readMultihashFromBuf_ok hread
  dsimp only at h
  split at h
  · cases h
  rename_i hlen
  cases h
  have hnil : ys = [] := by
    have hsum := congrArg length hbuf
    rw [length_append] at hsum
    exact length_eq_zero_iff.mp (by omega)
  rw [hnil, append_nil] at hbuf
  exact ⟨hbuf, rfl, hfits⟩

theorem decode_safe : Safe (decode buf) := by
  refine bind readMultihashFromBuf_safe fun p _ => ?_
  dsimp only
  split
  · exact err _
  · exact ok _

theorem cast_encode (h : Fits code digest) : cast (encode digest code) = .ok (encode digest code) := by
  rw [cast, decode_encode h]
  rfl

theorem cast_ok (h : cast buf = .ok m) :
    m = buf ∧ ∃ code digest, buf = encode digest code ∧ Fits code digest := by
  obtain ⟨dm, hdec, h⟩ := bind_eq_ok.mp h
  cases h
  obtain ⟨hbuf, -, hfits⟩ := decode_ok hdec
  exact ⟨rfl, _, _, hbuf, hfits⟩

theorem cast_safe (buf : Bytes) : Safe (cast buf) :=
  bind decode_safe fun _ _ => ok buf

theorem mhFromBytes_encode (h : Fits code digest) (ys : Bytes) :
    mhFromBytes (encode digest code ++ ys) = .ok ((encode digest code).length, encode digest code) := by
  rw [mhFromBytes, readMultihashFromBuf_encode h, ok_bind]
  dsimp only
  rw [sliceTo_append]
  rfl

theorem mhFromBytes_ok (h : mhFromBytes buf = .ok (n, m)) :
    ∃ code digest ys, buf = encode digest code ++ ys ∧ n = (encode digest code).length ∧
      Fits code digest := by
  obtain ⟨⟨nr, code, digest⟩, hread, h⟩ := bind_eq_ok.mp h
  obtain ⟨ys, hbuf, hn, hfits⟩ := readMultihashFromBuf_ok hread
  obtain ⟨m', -, h⟩ := bind_eq_ok.mp h
  cases h
  exact ⟨code, digest, ys, hbuf, hn, hfits⟩

/-! ## Reading -/

inductive ReaderErr where
  | varint (err : UvarintErr)
  | read (err : ReadErr)
  | multihash (err : Err)
  deriving DecidableEq, Repr

/-- `ReadByte`: that of the reader if it has one. A read that returns nothing and no error is
an error here. -/
def mhReadByte (direct : Option (ByteReader (Source UInt8))) : ByteReader (Source UInt8) :=
  direct.getD fun src =>
    match src.read 1 with
    | (b :: _, _, src) => (.ok b, src)
    | ([], true, src) => (.error .eof, src)
    | ([], false, src) => (.error .noProgress, src)

def readMultihash (rb : ByteReader (Source UInt8)) (r : Source UInt8) :
    Except (Fault ReaderErr) Bytes × Source UInt8 :=
  match readUvarint rb r with
  | (.error err, r) => (.error (.err (.varint err)), r)
  | (.ok code, r) =>
    match readUvarint rb r with
    | (.error err, r) => (.error (.err (.varint err)), r)
    | (.ok length, r) =>
      if length > 2 ^ 31 - 1 then (.error (.err (.multihash .digestTooLong)), r)
      else
        match r.readFull length with
        | (_, some err, r) => (.error (.err (.read err)), r)
        | (bs, none, r) =>
          (Fault.wrap .multihash (cast (putUvarint code ++ (putUvarint length ++ bs))), r)

/-- What is left of a reader that returns something or an error each time. -/
def Progresses (src : Source UInt8) (bs : Bytes) : Prop := src.rest = bs ∧ [] ∉ src.chunks

theorem mhReadByte_lawful : Lawful (mhReadByte none) Progresses where
  byte := by
    rintro ⟨chunks, eofLast⟩ b bs ⟨hrest, hne⟩
    match chunks, hrest, hne with
    | [] :: cs, _, hne => exact absurd mem_cons_self hne
    | (c :: []) :: cs, hrest, hne =>
      obtain ⟨rfl, htail⟩ := cons.inj hrest
      exact ⟨_, rfl, htail, fun h => hne (mem_cons_of_mem _ h)⟩
    | (c :: d :: ds) :: cs, hrest, hne =>
      obtain ⟨rfl, htail⟩ := cons.inj hrest
      refine ⟨_, rfl, htail, fun h => ?_⟩
      rcases mem_cons.mp h with h | h
      · cases h
      · exact hne (mem_cons_of_mem _ h)
  eof := by
    rintro ⟨chunks, eofLast⟩ ⟨hrest, hne⟩
    match chunks, hrest, hne with
    | [], _, _ => exact ⟨_, rfl, rfl, not_mem_nil⟩
    | [] :: cs, _, hne => exact absurd mem_cons_self hne

/-- A reader takes a multihash and leaves what follows. -/
theorem readMultihash_encode {rb : ByteReader (Source UInt8)} {At : Source UInt8 → Bytes → Prop}
    (hrb : Lawful rb At) (hat : ∀ {src bs}, At src bs → src.rest = bs) (h : Fits code digest)
    {r : Source UInt8} (hr : At r (encode digest code ++ ys)) :
    ∃ r', readMultihash rb r = (.ok (encode digest code), r') ∧ r'.rest = ys := by
  have hlen := h.length_lt
  rw [encode, append_assoc, append_assoc] at hr
  obtain ⟨r₁, hcode, hr₁⟩ := readUvarint_put hrb h.code_lt hr
  obtain ⟨r₂, hlength, hr₂⟩ := readUvarint_put hrb (hlen.trans (by decide)) hr₁
  obtain ⟨r₃, hfull, hr₃⟩ := Source.readFull_append (hat hr₂)
  refine ⟨r₃, ?_, hr₃⟩
  rw [readMultihash, hcode]
  dsimp only
  rw [hlength]
  dsimp only
  rw [if_neg (by omega), hfull]
  dsimp only
  rw [← encode, cast_encode h]
  rfl

/-- Multihashes are written and read in one way: with a code of 63 bits, and by a reader that
returns something or an error each time or hands out single bytes. -/
theorem multihash_canonical :
    (∀ code digest, code < 2 ^ 63 → digest.length < 2 ^ 31 →
      decode (encode digest code) = .ok ⟨code, digest.length, digest⟩) ∧
    (∀ m dm, decode m = .ok dm → encode dm.digest dm.code = m ∧ dm.length = dm.digest.length) ∧
    (∀ m m', cast m = .ok m' → m' = m ∧ ∃ dm, decode m = .ok dm) ∧
    (∀ buf n m, mhFromBytes buf = .ok (n, m) → m = buf.take n ∧ m.length = n ∧
      ∃ dm, decode m = .ok dm ∧ encode dm.digest dm.code = m) ∧
    ∀ m dm, decode m = .ok dm →
      (∀ direct r ys, Lawful direct (fun src bs => src.rest = bs) → r.rest = m ++ ys →
        ∃ r', readMultihash (mhReadByte (some direct)) r = (.ok m, r') ∧ r'.rest = ys) ∧
      ∀ r ys, Progresses r (m ++ ys) →
        ∃ r', readMultihash (mhReadByte none) r = (.ok m, r') ∧ r'.rest = ys := by
  refine ⟨fun code digest hcode hlen => decode_encode ⟨hcode, hlen⟩, fun m dm h => ?_,
    fun m m' h => ?_, fun buf n m h => ?_, fun m dm h => ?_⟩
  · obtain ⟨hm, hlen, -⟩ := decode_ok h
    exact ⟨hm.symm, hlen⟩
  · obtain ⟨dm, hdm, heq⟩ := bind_eq_ok.mp h
    cases heq
    exact ⟨rfl, dm, hdm⟩
  · obtain ⟨code, digest, ys, rfl, rfl, hfits⟩ := mhFromBytes_ok h
    rw [mhFromBytes_encode hfits] at h
    cases h
    rw [take_left]
    exact ⟨rfl, rfl, _, decode_encode hfits, rfl⟩
  · obtain ⟨rfl, -, hfits⟩ := decode_ok h
    exact ⟨fun direct r ys hlaw hr => readMultihash_encode hlaw id hfits hr,
      fun r ys hr => readMultihash_encode mhReadByte_lawful And.left hfits hr⟩

/-- A code of 64 bits is written and not read, and a reader that once returns nothing stops
the reading of a multihash. -/
theorem multihash_wide_code :
    decode (encode [] (2 ^ 63)) = .error (.err (.varint .errOverflow)) ∧
      decode [0x12, 0x00] = .ok ⟨0x12, 0, []⟩ ∧
      (readMultihash (mhReadByte none) ⟨[[], [0x12, 0x00]], false⟩).1 =
        .error (.err (.varint (.read .noProgress))) := by
  decide +kernel

end Dep2p.Multihash
