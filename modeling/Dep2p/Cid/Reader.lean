import Dep2p.Cid.RoundTrip

/- CIDs from a reader (`CidFromReader`, `bufByteReader`).

   The bytes of the varints are read one at a time and kept in a buffer; the digest is then
   read in one piece. A reader that can hand out single bytes is asked for them directly,
   any other one is asked to fill a buffer of one byte. The buffer starts with room for 64
   bytes, and a slice of it beyond that room panics.

   What is proved:
     `cidFromReader_agrees` — `CidFromReader` finds what `CidFromBytes` finds in the same
     bytes, leaves the rest in the reader, and fails without a panic where there is no CID. -/
namespace Dep2p.Cid

open Lib Varint Multihash List Content

/-- The `ReadByte` of a reader that is an `io.ByteReader`. -/
structure Direct where
  readByte : ByteReader (Source UInt8)
  lawful : Lawful readByte (fun src bs => src.rest = bs)

structure BufByteReader where
  dst : Bytes
  cap : Nat
  src : Source UInt8
  deriving DecidableEq, Repr

/-- The buffer with a byte more; it grows where there is no room. -/
def BufByteReader.push (r : BufByteReader) (b : UInt8) (src : Source UInt8) : BufByteReader :=
  { dst := r.dst ++ [b], cap := max r.cap (r.dst.length + 1), src }

def BufByteReader.readByte (direct : Option Direct) : ByteReader BufByteReader := fun r =>
  let read := match direct with
    | some br => br.readByte
    | none => simpleReadByte
  match read r.src with
  | (.ok b, src) => (.ok b, r.push b src)
  | (.error err, src) => (.error err, { r with src })

/-- How many bytes were read, the CID or what went wrong, and the reader afterwards. -/
abbrev Result := Nat × Except (Fault Err) Cid × Source UInt8

/-- `dst[:hi]`, which may take in what is between the length and the capacity. -/
def reslice (dst : Bytes) (cap hi : Nat) : Except (Fault Err) Bytes :=
  if hi ≤ cap then .ok (dst.take hi ++ replicate (hi - dst.length) 0) else .error .panicked

/-- The buffer after a read into `dst[lo:]`. -/
def fill (dst : Bytes) (lo : Nat) (bs : Bytes) : Bytes :=
  dst.take lo ++ bs ++ dst.drop (lo + bs.length)

/-- The rest of a CID of version 0. -/
def readV0 (br : BufByteReader) : Result :=
  match reslice br.dst br.cap 34 with
  | .error fault => (0, .error fault, br.src)
  | .ok dst =>
    match br.src.readFull (34 - 1) with
    | (bs, some err, src) => (br.dst.length + bs.length, .error (invalid (.read err)), src)
    | (bs, none, src) =>
      let dst := fill dst 1 bs
      match Fault.wrap (fun err => Err.errInvalidCid (.multihash err)) (Multihash.cast dst) with
      | .error fault => (dst.length, .error fault, src)
      | .ok h => (dst.length, .ok ⟨h⟩, src)

def maxDigestAlloc : Nat := 32 * 2 ^ 20

/-- The buffer with room for a CID: a new one, or a larger slice of the same. -/
def extend (br : BufByteReader) (cidLength : Nat) : Except (Fault Err) Bytes :=
  if cidLength > br.cap then .ok (br.dst ++ replicate (cidLength - br.dst.length) 0)
  else reslice br.dst br.cap cidLength

/-- The digest of a CID of version 1, of `mhl` bytes; its multihash starts at `mhStart`. -/
def readDigest (br : BufByteReader) (mhStart mhl : Nat) : Result :=
  if mhl > maxDigestAlloc then
    (br.dst.length, .error (invalid (.refusingToAllocate mhl)), br.src)
  else
    let prefixLength := br.dst.length
    let cidLength := prefixLength + mhl
    match extend br cidLength with
    | .error fault => (0, .error fault, br.src)
    | .ok dst =>
      match br.src.readFull (cidLength - prefixLength) with
      | (bs, some err, src) => (prefixLength + bs.length, .error (invalid (.read err)), src)
      | (bs, none, src) =>
        let dst := fill dst prefixLength bs
        match sliceFrom dst mhStart with
        | .error fault => (0, .error fault, src)
        | .ok mhash =>
          match Fault.wrap (fun err => Err.errInvalidCid (.multihash err)) (mhFromBytes mhash) with
          | .error fault => (dst.length, .error fault, src)
          | .ok _ => (dst.length, .ok ⟨dst⟩, src)

/-- Read a varint and go on with it, or fail. -/
def withUvarint (direct : Option Direct) (br : BufByteReader)
    (next : Nat → BufByteReader → Result) : Result :=
  match readUvarint (BufByteReader.readByte direct) br with
  | (.error err, br) => (br.dst.length, .error (invalid (.varint err)), br.src)
  | (.ok v, br) => next v br

/-- `CidFromReader`. Only an end of file before the first byte is passed on as it is. -/
def cidFromReader (direct : Option Direct) (r : Source UInt8) : Result :=
  match readUvarint (BufByteReader.readByte direct) ⟨[], 64, r⟩ with
  | (.error err, br) =>
    if err = .read .eof then (0, .error (.err (.read .eof)), br.src)
    else (br.dst.length, .error (invalid (.varint err)), br.src)
  | (.ok vers, br) =>
    if vers = sha2_256 then readV0 br
    else if vers ≠ 1 then (br.dst.length, .error (invalid (.expectedVersion1 vers)), br.src)
    else
      withUvarint direct br fun _ br =>
        let mhStart := br.dst.length
        withUvarint direct br fun _ br =>
          withUvarint direct br fun mhl br => readDigest br mhStart mhl

/-! ## The buffer holds what was read -/

/-- The reader has read the bytes of `all` up to `bs`. -/
structure Has (all : Bytes) (br : BufByteReader) (bs : Bytes) : Prop where
  rest : br.src.rest = bs
  read : br.dst ++ bs = all
  room : 64 ≤ br.cap

variable {all xs ys : Bytes} {br : BufByteReader} {direct : Option Direct}

theorem readByte_lawful :
    Lawful (BufByteReader.readByte direct) (Has all) := by
  have hread : ∃ read, Lawful read (fun src bs => src.rest = bs) ∧
      BufByteReader.readByte direct = fun r =>
        match read r.src with
        | (.ok b, src) => (.ok b, r.push b src)
        | (.error err, src) => (.error err, { r with src }) := by
    cases direct with
    | none => exact ⟨simpleReadByte, simpleReadByte_lawful, rfl⟩
    | some br => exact ⟨br.readByte, br.lawful, rfl⟩
  obtain ⟨read, hlaw, heq⟩ := hread
  rw [heq]
  constructor
  · intro r b bs h
    obtain ⟨src, hb, hsrc⟩ := hlaw.byte h.rest
    refine ⟨r.push b src, by rw [hb], hsrc, ?_, le_max_of_le_left h.room⟩
    rw [BufByteReader.push, append_assoc]
    exact h.read
  · intro r h
    obtain ⟨src, hb, hsrc⟩ := hlaw.eof h.rest
    exact ⟨{ r with src }, by rw [hb], hsrc, h.read, h.room⟩

theorem Has.dst (h : Has (xs ++ ys) br ys) : br.dst = xs := append_cancel_right h.read

variable {n : Nat} {digest : Bytes}

/-- A varint in front is read. -/
theorem withUvarint_put (hn : n < 2 ^ 63) (h : Has all br (putUvarint n ++ ys))
    (next : Nat → BufByteReader → Result) :
    ∃ br', withUvarint direct br next = next n br' ∧ Has all br' ys := by
  obtain ⟨br', hread, hhas⟩ := readUvarint_put readByte_lawful hn h
  exact ⟨br', by rw [withUvarint, hread], hhas⟩

/-! ## Runs that find a CID -/

theorem fill_reslice (dst bs : Bytes) (hn : dst.length + bs.length = n) :
    fill (dst.take n ++ replicate (n - dst.length) 0) dst.length bs = dst ++ bs := by
  have htake : dst.take n = dst := take_of_length_le (by omega)
  rw [fill, htake, take_left, drop_eq_nil_of_le, append_nil]
  rw [length_append, length_replicate]
  omega

theorem extend_ok (hn : br.dst.length ≤ n) :
    extend br n = .ok (br.dst.take n ++ replicate (n - br.dst.length) 0) := by
  rw [extend]
  split
  · rw [take_of_length_le hn]
  · rename_i hle
    rw [reslice, if_pos (not_lt.mp hle)]

theorem readV0_full (hlen : digest.length = 32)
    (h : Has (18 :: 32 :: (digest ++ ys)) br (32 :: (digest ++ ys))) :
    ∃ src, readV0 br = (34, .ok ⟨encode digest sha2_256⟩, src) ∧ src.rest = ys := by
  have hdst : br.dst = [18] :=
    append_cancel_right (h.read : br.dst ++ _ = [18] ++ 32 :: (digest ++ ys))
  have hsrc : br.src.rest = (32 :: digest) ++ ys := h.rest
  obtain ⟨src, hfull, hrest⟩ := Source.readFull_append hsrc
  rw [length_cons, hlen] at hfull
  have hfill := fill_reslice [18] (32 :: digest) (n := 34) (by simp [hlen])
  refine ⟨src, ?_, hrest⟩
  rw [readV0, reslice, if_pos (by have := h.room; omega)]
  rw [hfull, hdst]
  dsimp only
  rw [length_singleton] at hfill ⊢
  rw [hfill, singleton_append, ← encode_v0 hlen, cast_encode (fits_v0 hlen), Fault.wrap_ok]
  rw [length_v0 hlen]

theorem readDigest_full {head mhash : Bytes} {code : Nat} (hfits : Fits code digest)
    (hsmall : digest.length ≤ maxDigestAlloc)
    (hmh : encode digest code = mhash ++ digest)
    (h : Has (head ++ mhash ++ (digest ++ ys)) br (digest ++ ys)) :
    ∃ src, readDigest br head.length digest.length =
        ((head ++ encode digest code).length, .ok ⟨head ++ encode digest code⟩, src) ∧
      src.rest = ys := by
  have hdst : br.dst = head ++ mhash := h.dst
  obtain ⟨src, hfull, hrest⟩ := Source.readFull_append h.rest
  have hfill := fill_reslice br.dst digest rfl
  have hall : br.dst ++ digest = head ++ encode digest code := by
    rw [hdst, hmh, append_assoc]
  have hmhread := mhFromBytes_encode hfits []
  rw [append_nil] at hmhread
  refine ⟨src, ?_, hrest⟩
  rw [readDigest, if_neg (not_lt.mpr hsmall)]
  dsimp only
  rw [extend_ok (Nat.le_add_right _ _)]
  rw [Nat.add_sub_cancel_left] at hfill ⊢
  rw [hfull]
  dsimp only
  rw [hfill, hall, sliceFrom_append]
  dsimp only
  rw [hmhread, Fault.wrap_ok]

variable {r : Source UInt8}

/-- A CID in front of the reader is found, and not a byte more is read. -/
theorem cidFromReader_bytes (k : Content)
    (hsmall : k.parts.mhLength ≤ maxDigestAlloc) (h : r.rest = k.cid.bytes ++ ys) :
    ∃ src, cidFromReader direct r = (k.cid.bytes.length, .ok k.cid, src) ∧ src.rest = ys := by
  have hstart : Has r.rest ⟨[], 64, r⟩ r.rest := ⟨rfl, rfl, le_refl _⟩
  cases k with
  | v0 digest hlen =>
    have hbytes : r.rest = 18 :: 32 :: (digest ++ ys) := by
      rw [h, cid, encode_v0 hlen]
      rfl
    have hfront : r.rest = putUvarint sha2_256 ++ 32 :: (digest ++ ys) := by
      rw [hbytes, putUvarint_byte (by decide)]
      rfl
    nth_rewrite 2 [hfront] at hstart
    obtain ⟨br, hread, hhas⟩ :=
      readUvarint_put readByte_lawful (by decide) hstart
    rw [hbytes] at hhas
    obtain ⟨src, hv0, hrest⟩ := readV0_full hlen hhas
    refine ⟨src, ?_, hrest⟩
    rw [cidFromReader, hread]
    dsimp only
    rw [if_pos rfl, hv0, cid, bytes, length_v0 hlen]
  | v1 codec code digest hcodec hfits =>
    have hlen : digest.length < 2 ^ 63 := hfits.length_lt.trans (by decide)
    have hfront : r.rest = putUvarint 1 ++ (putUvarint codec ++ (putUvarint code ++
        (putUvarint digest.length ++ (digest ++ ys)))) := by
      rw [h, cid, bytes, newCidV1_str, encode]
      simp
    nth_rewrite 2 [hfront] at hstart
    obtain ⟨br1, hread, h1⟩ := readUvarint_put readByte_lawful (by decide) hstart
    obtain ⟨br2, hread2, h2⟩ := withUvarint_put hcodec h1 fun _ br =>
        withUvarint direct br fun _ br' =>
          withUvarint direct br' fun mhl br'' => readDigest br'' br.dst.length mhl
    obtain ⟨br3, hread3, h3⟩ := withUvarint_put hfits.code_lt h2 fun _ br' =>
        withUvarint direct br' fun mhl br'' => readDigest br'' br2.dst.length mhl
    obtain ⟨br4, hread4, h4⟩ := withUvarint_put hlen h3
        fun mhl br'' => readDigest br'' br2.dst.length mhl
    have hhead : br2.dst = putUvarint 1 ++ putUvarint codec := by
      apply append_cancel_right (h2.read.trans _)
      rw [hfront]
      simp
    have hdigest : Has (putUvarint 1 ++ putUvarint codec ++
        (putUvarint code ++ putUvarint digest.length) ++ (digest ++ ys)) br4 (digest ++ ys) := by
      have : putUvarint 1 ++ putUvarint codec ++ (putUvarint code ++ putUvarint digest.length) ++
          (digest ++ ys) = r.rest := by
        rw [hfront]
        simp
      rw [this]
      exact h4
    have hmh : encode digest code = putUvarint code ++ putUvarint digest.length ++ digest := by
      rw [encode, append_assoc]
    obtain ⟨src, hrun, hrest⟩ := readDigest_full hfits (Int.ofNat_le.mp hsmall) hmh hdigest
    refine ⟨src, ?_, hrest⟩
    rw [cidFromReader, hread]
    dsimp only
    rw [hread2, hread3, hread4, hhead, hrun, append_assoc,
      ← newCidV1_str]
    rfl

/-! ## Runs that find none -/

/-- An error, which is not a panic. -/
def Refused (res : Result) : Prop := ∃ n err src, res = (n, .error (.err err), src)

variable {bs : Bytes}

/-- A read of a varint is refused if there is none, or with what comes after it. -/
theorem withUvarint_refused (h : Has all br bs)
    {next : Nat → BufByteReader → Result}
    (hnext : ∀ v zs br', bs = putUvarint v ++ zs → v < 2 ^ 63 → Has all br' zs → Refused (next v br')) :
    Refused (withUvarint direct br next) := by
  cases hfrom : fromUvarint bs with
  | error err =>
    obtain ⟨err', br', hread⟩ := readUvarint_error readByte_lawful h hfrom
    exact ⟨br'.dst.length, .errInvalidCid (.varint err'), br'.src, by rw [withUvarint, hread]; rfl⟩
  | ok p =>
    obtain ⟨zs, rfl, -, hlt⟩ := fromUvarint_ok hfrom
    obtain ⟨br', hrun, hhas⟩ := withUvarint_put hlt h next
    rw [hrun]
    exact hnext p.1 zs br' rfl hlt hhas

/-- A digest of a length that is allowed is only missed at the end of the file. -/
theorem readDigest_refused {mhl : Nat} (mhStart : Nat) (h : Has all br bs)
    (hshort : mhl ≤ maxDigestAlloc → bs.length < mhl) : Refused (readDigest br mhStart mhl) := by
  rw [readDigest]
  split
  · exact ⟨br.dst.length, .errInvalidCid (.refusingToAllocate mhl), br.src, rfl⟩
  rename_i hsmall
  have hlt := hshort (not_lt.mp hsmall)
  rw [← h.rest] at hlt
  obtain ⟨src, hfull, -⟩ := Source.readFull_short hlt
  dsimp only
  rw [extend_ok (Nat.le_add_right _ _)]
  rw [Nat.add_sub_cancel_left, hfull]
  exact ⟨_, .errInvalidCid (.read _), src, rfl⟩

/-- A multihash of 34 bytes that starts with 18 goes on with 32. -/
theorem cast_v0 {m : Bytes} (hlen : bs.length = 33) (h : Multihash.cast (18 :: bs) = .ok m) :
    ∃ digest : Bytes, digest.length = 32 ∧ bs = 32 :: digest := by
  obtain ⟨-, code, digest, henc, hfits⟩ := Multihash.cast_ok h
  have hfront := fromUvarint_put (n := 18) (by decide) bs
  rw [putUvarint_byte (by decide)] at hfront
  have hcode : code = 18 := by
    have hread := fromUvarint_put hfits.code_lt (putUvarint digest.length ++ digest)
    rw [← encode, ← henc] at hread
    have heq := Except.ok.inj (hread.symm.trans hfront)
    exact congrArg Prod.fst heq
  rw [hcode, encode, putUvarint_byte (by decide)] at henc
  have hbs : bs = putUvarint digest.length ++ digest := tail_eq_of_cons_eq henc
  have hsum := congrArg length hbs
  rw [length_append] at hsum
  rw [putUvarint_byte (by omega)] at hbs hsum
  have hd : digest.length = 32 := by
    rw [length_singleton] at hsum
    omega
  rw [hd] at hbs
  exact ⟨digest, hd, hbs⟩

theorem readV0_refused (h : Has (18 :: ys) br ys)
    (hno : ∀ digest zs : Bytes, digest.length = 32 → ys ≠ 32 :: (digest ++ zs)) :
    Refused (readV0 br) := by
  have hdst : br.dst = [18] := append_cancel_right (h.read : br.dst ++ ys = [18] ++ ys)
  rw [readV0, reslice, if_pos (by have := h.room; omega)]
  by_cases hshort : ys.length < 33
  · rw [← h.rest] at hshort
    obtain ⟨src, hfull, -⟩ := Source.readFull_short hshort
    rw [hfull]
    exact ⟨_, .errInvalidCid (.read _), src, rfl⟩
  · have htake : (ys.take 33).length = 33 := length_take_of_le (not_lt.mp hshort)
    have hsplit : br.src.rest = ys.take 33 ++ ys.drop 33 := by
      rw [h.rest, take_append_drop]
    obtain ⟨src, hfull, -⟩ := Source.readFull_append hsplit
    rw [htake] at hfull
    have hfill := fill_reslice [18] (ys.take 33) (n := 34) (by simp [htake])
    rw [hfull, hdst]
    dsimp only
    rw [length_singleton] at hfill ⊢
    rw [hfill, singleton_append]
    have hsafe := cast_safe (18 :: ys.take 33)
    cases hcast : Multihash.cast (18 :: ys.take 33) with
    | error fault =>
      rw [hcast] at hsafe
      cases fault with
      | panicked => exact absurd rfl hsafe
      | err err => exact ⟨_, .errInvalidCid (.multihash err), src, rfl⟩
    | ok m =>
      obtain ⟨digest, hlen, hys⟩ := cast_v0 htake hcast
      refine absurd ?_ (hno digest (ys.drop 33) hlen)
      rw [← cons_append, ← hys, take_append_drop]

/-- Where there is no CID in front, none is found. -/
theorem cidFromReader_refused
    (hno : ∀ (k : Content) (ys : Bytes), r.rest ≠ k.cid.bytes ++ ys) :
    Refused (cidFromReader direct r) := by
  have hstart : Has r.rest ⟨[], 64, r⟩ r.rest := ⟨rfl, rfl, le_refl _⟩
  cases hfrom : fromUvarint r.rest with
  | error err =>
    obtain ⟨err', br, hread⟩ := readUvarint_error readByte_lawful hstart hfrom
    rw [cidFromReader, hread]
    dsimp only
    split
    · exact ⟨0, .read .eof, br.src, rfl⟩
    · exact ⟨br.dst.length, .errInvalidCid (.varint err'), br.src, rfl⟩
  | ok p =>
    obtain ⟨vers, n⟩ := p
    obtain ⟨ys, hrest, -, hlt⟩ := fromUvarint_ok hfrom
    nth_rewrite 2 [hrest] at hstart
    obtain ⟨br, hread, hhas⟩ := readUvarint_put readByte_lawful hlt hstart
    rw [cidFromReader, hread]
    dsimp only
    split
    · rename_i hv0
      have hfront : r.rest = 18 :: ys := by
        rw [hrest, hv0, putUvarint_byte (by decide)]
        rfl
      rw [hfront] at hhas
      refine readV0_refused hhas fun digest zs hlen hys => hno (.v0 digest hlen) zs ?_
      rw [hfront, hys, cid, encode_v0 hlen]
      rfl
    · split
      · exact ⟨br.dst.length, .errInvalidCid (.expectedVersion1 vers), br.src, rfl⟩
      rename_i hone
      obtain rfl := not_not.mp hone
      refine withUvarint_refused hhas fun codec ys1 br1 hys1 hcodec h1 =>
        withUvarint_refused h1 fun code ys2 br2 hys2 hcode h2 =>
          withUvarint_refused h2 fun mhl ys3 br3 hys3 _ h3 =>
            readDigest_refused _ h3 fun hsmall => ?_
      by_contra hlong
      have htake : (ys3.take mhl).length = mhl := length_take_of_le (not_lt.mp hlong)
      have hfits : Fits code (ys3.take mhl) :=
        ⟨hcode, by rw [htake]; exact hsmall.trans_lt (by decide)⟩
      refine hno (.v1 codec code (ys3.take mhl) hcodec hfits) (ys3.drop mhl) ?_
      rw [hrest, hys1, hys2, hys3, cid, bytes, newCidV1_str, encode, htake]
      simp

/-! ## The two parsers agree -/

/-- `CidFromReader` on a reader of any pieces and `CidFromBytes` on the same bytes. -/
theorem cidFromReader_agrees (direct : Option Direct) (r : Source UInt8)
    (hsmall : ∀ n c, cidFromBytes r.rest = .ok (n, c) → c.getPrefix.mhLength ≤ 32 * 2 ^ 20) :
    (∀ n c, cidFromBytes r.rest = .ok (n, c) ↔
      ∃ r', cidFromReader direct r = (n, .ok c, r') ∧ r'.rest = r.rest.drop n) ∧
    ((∀ n c, cidFromBytes r.rest ≠ .ok (n, c)) →
      ∃ n err r', cidFromReader direct r = (n, .error (.err err), r')) := by
  have hrefused : (∀ n c, cidFromBytes r.rest ≠ .ok (n, c)) → Refused (cidFromReader direct r) := by
    intro hnone
    refine cidFromReader_refused fun k ys hrest => hnone k.cid.bytes.length k.cid ?_
    rw [hrest, cidFromBytes_bytes]
  have hfound : ∀ n c, cidFromBytes r.rest = .ok (n, c) →
      ∃ r', cidFromReader direct r = (n, .ok c, r') ∧ r'.rest = r.rest.drop n := by
    intro n c h
    have hlen := hsmall n c h
    obtain ⟨k, ys, hrest, rfl, rfl⟩ := cidFromBytes_ok h
    rw [getPrefix_cid] at hlen
    obtain ⟨r', hrun, hrest'⟩ := cidFromReader_bytes k hlen hrest
    exact ⟨r', hrun, by rw [hrest', hrest, drop_left]⟩
  refine ⟨fun n c => ⟨hfound n c, ?_⟩, hrefused⟩
  rintro ⟨r', hrun, -⟩
  by_cases hsome : ∃ n c, cidFromBytes r.rest = .ok (n, c)
  · obtain ⟨n', c', h⟩ := hsome
    obtain ⟨r'', hrun', -⟩ := hfound n' c' h
    rw [hrun] at hrun'
    cases hrun'
    exact h
  · obtain ⟨n', err, r'', hrun'⟩ := hrefused fun n c h => hsome ⟨n, c, h⟩
    rw [hrun] at hrun'
    cases hrun'

/-- A raw block under the identity hash, in pieces and with a byte behind it. -/
def pieces : Source UInt8 := ⟨[[1, 0x55], [], [0, 2, 1], [2, 9]], false⟩

theorem cidFromBytes_pieces : cidFromBytes pieces.rest = .ok (6, ⟨[1, 0x55, 0, 2, 1, 2]⟩) ∧
    (⟨[1, 0x55, 0, 2, 1, 2]⟩ : Cid).getPrefix.mhLength = 2 := by
  let k : Content := .v1 0x55 0 [1, 2] (by decide) ⟨by decide, by decide⟩
  have hcid : k.cid = ⟨[1, 0x55, 0, 2, 1, 2]⟩ := by
    simp [k, cid, newCidV1, encode, putUvarint_byte]
  have hread := cidFromBytes_bytes k [9]
  have hparts := getPrefix_cid k
  rw [hcid] at hread hparts
  exact ⟨hread, congrArg Prefix.mhLength hparts⟩

theorem cidFromReader_agrees_pieces :
    ∃ r', cidFromReader none pieces = (6, .ok ⟨[1, 0x55, 0, 2, 1, 2]⟩, r') ∧
      r'.rest = pieces.rest.drop 6 := by
  refine ((cidFromReader_agrees none pieces ?_).1 6 _).mp cidFromBytes_pieces.1
  intro n c h
  cases h
  decide

end Dep2p.Cid
