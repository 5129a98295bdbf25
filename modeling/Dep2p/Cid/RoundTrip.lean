import Dep2p.Cid.Basic

/- A CID says what it was built from.

   `Content` is what a CID stands for: a codec and a multihash, for version 0 with a codec
   and a hash function that are fixed. Its bytes are written as the constructors write
   them. The parser accepts these bytes, with anything behind them, and nothing else
   (`cidFromBytes_bytes`, `cidFromBytes_ok`); every way to get a CID goes through such a
   content.

   What is proved:
     `cid_round_trip` — a CID is read back from its bytes and says what it was built from,
     whether it was constructed, cast, parsed or decoded. -/
namespace Dep2p.Cid

open Lib Varint Multihash List Fault

variable {n : Nat} {digest : Bytes} {c : Cid}

/-! ## Varints of a CID -/

theorem putUvarint_byte (h : n < 128) : putUvarint n = [.ofNat n] := by
  rw [putUvarint, if_pos h]

variable {buf : Bytes} {v k : Nat} {ys m : Bytes}

/-- What `FromUvarint` reads, `uvarint` reads. -/
theorem uvarintLoop_eq {x i : Nat} (hx : x < 2 ^ (7 * i))
    (h : fromUvarintLoop x (7 * i) i buf = .ok (v, k)) :
    uvarintLoop x (7 * i) i buf = (v, k, none) := by
  induction buf generalizing x i with
  | nil => cases h
  | cons b buf ih =>
    rw [fromUvarintLoop_cons] at h
    rw [uvarintLoop]
    split at h
    · rename_i v' hread
      obtain ⟨hv, hb, hs, hmin⟩ := readByte_value hx hread
      have hlt : x + b.toNat % 128 * 2 ^ (7 * i) < 2 ^ (7 * i + 7) := add_mul_lt hx
      have hle : 2 ^ (7 * i + 7) ≤ 2 ^ 64 := Nat.pow_le_pow_right (by decide) (by omega)
      rw [Nat.mod_eq_of_lt hb, ← hv] at hlt
      cases h
      rw [if_pos (UInt8.lt_iff_toNat_lt.mpr hb), if_neg (by omega), if_neg, or_shiftLeft _ hx, ← hv,
        Nat.mod_eq_of_lt (hlt.trans_le hle)]
      rintro ⟨rfl, hi⟩
      rcases hmin with h0 | hpos
      · omega
      · exact absurd hpos (by decide)
    · cases h
    · rename_i x' s' hread
      obtain ⟨hx', hb, hs', hs, -⟩ := readByte_next hread
      have hlt := (readByte_next_lt hx hread).2
      have hle : 2 ^ (7 * i + 7) ≤ 2 ^ 64 := Nat.pow_le_pow_right (by decide) (by omega)
      have hge : ¬ b < 0x80 := by
        exact not_lt.mpr hb
      rw [if_neg hge, and_127 hb, ← hx', Nat.mod_eq_of_lt (hlt.trans_le hle)]
      rw [← Nat.mul_succ] at hs' hlt ⊢
      rw [hs'] at h
      exact ih hlt h

theorem uvarint_put (hn : n < 2 ^ 63) :
    uvarint (putUvarint n ++ ys) = (n, (putUvarint n).length, none) :=
  uvarintLoop_eq (i := 0) one_pos (fromUvarint_put hn ys)

theorem skipUvarint_put (hn : n < 2 ^ 63) :
    skipUvarint (putUvarint n ++ ys) = (putUvarint n).length := by
  rw [skipUvarint, fromUvarint_put hn]

theorem fromField_put (hn : n < 2 ^ 63) :
    fromField (putUvarint n ++ ys) = .ok (n, (putUvarint n).length) := by
  rw [fromField, fromUvarint_put hn]

theorem fromField_ok (h : fromField buf = .ok (v, k)) :
    ∃ ys, buf = putUvarint v ++ ys ∧ k = (putUvarint v).length ∧ v < 2 ^ 63 := by
  unfold fromField at h
  split at h
  · rename_i p hp
    cases h
    exact fromUvarint_ok hp
  · cases h

theorem bytesReader_lawful : Lawful bytesReader Eq where
  byte := by
    rintro r b bs rfl
    exact ⟨bs, rfl, rfl⟩
  eof := by
    rintro r rfl
    exact ⟨[], rfl, rfl⟩

theorem readField_put (hn : n < 2 ^ 63) :
    readField (putUvarint n ++ ys) = .ok (n, ys) := by
  obtain ⟨r, hread, rfl⟩ := readUvarint_put bytesReader_lawful hn (refl (putUvarint n ++ ys))
  rw [readField, hread]

/-! ## What a CID stands for -/

inductive Content where
  | v0 (digest : Bytes) (h : digest.length = 32)
  | v1 (codec code : Nat) (digest : Bytes) (hcodec : codec < 2 ^ 63) (h : Fits code digest)

namespace Content

def codec : Content → Nat
  | v0 _ _ => dagProtobuf
  | v1 codec _ _ _ _ => codec

def multihash : Content → Bytes
  | v0 digest _ => encode digest sha2_256
  | v1 _ code digest _ _ => encode digest code

def parts : Content → Prefix
  | v0 _ _ => ⟨0, dagProtobuf, sha2_256, 32⟩
  | v1 codec code digest _ _ => ⟨1, codec, code, digest.length⟩

def cid : Content → Cid
  | v0 digest _ => ⟨encode digest sha2_256⟩
  | v1 codec code digest _ _ => newCidV1 codec (encode digest code)

end Content

/-- The bytes of a CID of version 0. -/
theorem encode_v0 (h : digest.length = 32) :
    encode digest sha2_256 = 18 :: 32 :: digest := by
  rw [encode, h, putUvarint_byte (by decide), putUvarint_byte (by decide)]
  rfl

theorem fits_v0 (h : digest.length = 32) : Fits sha2_256 digest :=
  ⟨by decide, by rw [h]; decide⟩

theorem newCidV1_str (codec : Nat) :
    (newCidV1 codec m).str = putUvarint 1 ++ (putUvarint codec ++ m) := by
  rw [putUvarint_byte (by decide)]
  rfl

theorem version_newCidV1 (codec : Nat) : (newCidV1 codec m).version = 1 := by
  simp [version, newCidV1]

theorem version_v0 (h : digest.length = 32) :
    (⟨encode digest sha2_256⟩ : Cid).version = 0 := by
  simp [version, encode_v0 h, h]

variable (k : Content)

theorem type_cid : k.cid.type = k.codec := by
  cases k with
  | v0 digest h => rw [Content.cid, type, if_pos (version_v0 h), Content.codec]
  | v1 codec code digest hcodec h =>
    rw [Content.cid, type, version_newCidV1, newCidV1_str,
      uvarint_put (by decide)]
    dsimp only
    rw [drop_left, uvarint_put hcodec]
    rfl

theorem hash_cid : k.cid.hash = k.multihash := by
  cases k with
  | v0 digest h => rw [Content.cid, hash, if_pos (version_v0 h), Content.multihash, bytes]
  | v1 codec code digest hcodec h =>
    rw [Content.cid, hash, version_newCidV1, bytes, newCidV1_str]
    dsimp only
    rw [skipUvarint_put (by decide), drop_left, skipUvarint_put hcodec, ← drop_drop,
      drop_left, drop_left]
    rfl

theorem bmod_of_lt (h : n < 2 ^ 31) : Int.bmod n (2 ^ 64) = n := by
  apply Int.bmod_eq_of_le <;> omega

theorem getPrefix_cid : k.cid.getPrefix = k.parts := by
  cases k with
  | v0 digest h =>
    rw [Content.cid, getPrefix, if_pos (version_v0 h), Content.parts]
  | v1 codec code digest hcodec h =>
    have hlen : digest.length < 2 ^ 63 := h.length_lt.trans (by decide)
    rw [Content.cid, getPrefix, version_newCidV1, newCidV1_str, encode]
    simp only [uvarint_put (n := 1) (by decide), drop_left, uvarint_put hcodec,
      ← drop_drop, uvarint_put h.code_lt, uvarint_put hlen, bmod_of_lt h.length_lt]
    rfl

/-- The parts of a CID survive being written. -/
theorem prefixFromBytes_bytes {version codec mhType length : Nat} (hv : version < 2 ^ 63)
    (hc : codec < 2 ^ 63) (ht : mhType < 2 ^ 63) (hlen : length < 2 ^ 31) :
    prefixFromBytes (Prefix.bytes ⟨version, codec, mhType, length⟩) =
      .ok ⟨version, codec, mhType, length⟩ := by
  have hmod : ((length : Int) % 2 ^ 64).toNat = length := by omega
  rw [prefixFromBytes, Prefix.bytes]
  dsimp only
  rw [readField_put hv, ok_bind]
  rw [readField_put hc, ok_bind]
  rw [readField_put ht, ok_bind]
  rw [hmod, ← append_nil (putUvarint length), readField_put (hlen.trans (by decide)), ok_bind]
  rw [bmod_of_lt hlen]
  rfl

theorem prefixFromBytes_parts : prefixFromBytes k.parts.bytes = .ok k.parts := by
  cases k with
  | v0 digest h => exact prefixFromBytes_bytes (by decide) (by decide) (by decide) (by decide)
  | v1 codec code digest hcodec h =>
    exact prefixFromBytes_bytes (by decide) hcodec h.code_lt h.length_lt

/-! ## What is accepted -/

theorem length_v0 (h : digest.length = 32) :
    (encode digest sha2_256).length = 34 := by
  rw [encode_v0 h, length_cons, length_cons, h]

/-- The bytes of a CID are read to their end, whatever follows. -/
theorem cidFromBytes_bytes (ys : Bytes) :
    cidFromBytes (k.cid.bytes ++ ys) = .ok (k.cid.bytes.length, k.cid) := by
  cases k with
  | v0 digest h =>
    have hlen := length_v0 h
    have hmagic : (encode digest sha2_256 ++ ys).length > 2 ∧
        (encode digest sha2_256 ++ ys)[0]? = some 18 ∧
        (encode digest sha2_256 ++ ys)[1]? = some 32 := by
      rw [encode_v0 h]
      exact ⟨by simp [h], rfl, rfl⟩
    rw [Content.cid, bytes, cidFromBytes, if_pos hmagic,
      if_neg (by rw [length_append, hlen]; omega), sliceTo_of_eq rfl hlen.symm, ok_bind,
      cast_encode (fits_v0 h), hlen]
    rfl
  | v1 codec code digest hcodec h =>
    have hmagic : ¬ ((newCidV1 codec (encode digest code)).str ++ ys)[0]? = some 18 := by
      simp [newCidV1]
    rw [Content.cid, bytes, cidFromBytes, if_neg (fun hm => hmagic hm.2.1), newCidV1_str]
    have hdata : putUvarint 1 ++ (putUvarint codec ++ encode digest code) ++ ys =
        putUvarint 1 ++ (putUvarint codec ++ (encode digest code ++ ys)) := by
      simp
    rw [hdata, fromField_put (by decide), ok_bind]
    dsimp only
    rw [if_neg (by decide), sliceFrom_append, ok_bind, fromField_put hcodec, ok_bind]
    have hsplit : putUvarint 1 ++ (putUvarint codec ++ (encode digest code ++ ys)) =
        putUvarint 1 ++ putUvarint codec ++ (encode digest code ++ ys) := by
      simp
    rw [sliceFrom_of_eq hsplit (length_append).symm, ok_bind, mhFromBytes_encode h,
      wrap_ok, ok_bind]
    rw [sliceTo_of_eq hdata.symm (by simp only [length_append]; omega), ok_bind, ← newCidV1_str]
    congr 2
    rw [newCidV1_str]
    simp only [length_append]
    omega

variable {data : Bytes}

/-- Only the bytes of a CID are accepted. -/
theorem cidFromBytes_ok (h : cidFromBytes data = .ok (n, c)) :
    ∃ (k : Content) (ys : Bytes), data = k.cid.bytes ++ ys ∧ n = k.cid.bytes.length ∧ c = k.cid := by
  unfold cidFromBytes at h
  split at h
  · rename_i hmagic
    split at h
    · cases h
    rename_i hlong
    obtain ⟨front, hfront, h⟩ := bind_eq_ok.mp h
    obtain ⟨m, hcast, h⟩ := bind_eq_ok.mp h
    rw [sliceTo, if_pos (not_lt.mp hlong)] at hfront
    cases hfront
    obtain ⟨rfl, -⟩ := cast_ok (wrap_eq_ok.mp hcast)
    cases h
    obtain ⟨-, h0, h1⟩ := hmagic
    obtain _ | ⟨b0, _ | ⟨b1, t⟩⟩ := data
    · cases h0
    · cases h1
    · cases h0
      cases h1
      have ht : (t.take 32).length = 32 := by
        rw [length_take]
        simp only [length_cons] at hlong
        omega
      have hbytes := encode_v0 ht
      refine ⟨.v0 (t.take 32) ht, t.drop 32, ?_, ?_, ?_⟩
      · rw [Content.cid, bytes, hbytes, cons_append, cons_append, take_append_drop]
      · rw [Content.cid, bytes, length_v0 ht]
      · rw [Content.cid, hbytes]
        rfl
  · obtain ⟨⟨vers, n1⟩, hvers, h⟩ := bind_eq_ok.mp h
    obtain ⟨ys, hdata, hn1, -⟩ := fromField_ok hvers
    dsimp only at h
    split at h
    · cases h
    rename_i hone
    obtain rfl := not_not.mp hone
    rw [sliceFrom_of_eq hdata hn1, ok_bind] at h
    obtain ⟨⟨codec, cn⟩, hcodec, h⟩ := bind_eq_ok.mp h
    obtain ⟨ys', hys, hcn, hlt⟩ := fromField_ok hcodec
    have hdata' : data = putUvarint 1 ++ putUvarint codec ++ ys' := by
      rw [hdata, hys, append_assoc]
    rw [sliceFrom_of_eq hdata' (by rw [length_append, hn1, hcn]), ok_bind] at h
    obtain ⟨⟨mhnr, m⟩, hmh, h⟩ := bind_eq_ok.mp h
    obtain ⟨code, digest, zs, hys', hnr, hfits⟩ := mhFromBytes_ok (wrap_eq_ok.mp hmh)
    have hall : data = putUvarint 1 ++ (putUvarint codec ++ encode digest code) ++ zs := by
      rw [hdata', hys']
      simp
    have hl : n1 + cn + mhnr = (putUvarint 1 ++ (putUvarint codec ++ encode digest code)).length := by
      simp only [length_append]
      omega
    rw [sliceTo_of_eq hall hl] at h
    cases h
    refine ⟨.v1 codec code digest hlt hfits, zs, ?_, ?_, ?_⟩
    · rw [Content.cid, bytes, newCidV1_str]
      exact hall
    · rw [Content.cid, bytes, newCidV1_str]
      exact hl
    · rw [Content.cid, ← newCidV1_str]

theorem cast_bytes : cast k.cid.bytes = .ok k.cid := by
  have hread := cidFromBytes_bytes k []
  rw [append_nil] at hread
  rw [cast, hread, wrap_ok, ok_bind]
  dsimp only
  rw [if_neg (not_not.mpr rfl)]

theorem cast_ok (h : cast data = .ok c) :
    ∃ k : Content, data = k.cid.bytes ∧ c = k.cid := by
  obtain ⟨⟨nr, c'⟩, hread, h⟩ := bind_eq_ok.mp h
  obtain ⟨k, ys, hdata, hn, rfl⟩ := cidFromBytes_ok (wrap_eq_ok.mp hread)
  dsimp only at h
  split at h
  · cases h
  rename_i hlen
  cases h
  have hnil : ys = [] := by
    have hsum := congrArg length hdata
    rw [length_append] at hsum
    exact length_eq_zero_iff.mp (by omega)
  exact ⟨k, by rw [hdata, hnil, append_nil], rfl⟩

theorem tryNewCidV0_ok (h : tryNewCidV0 m = .ok c) :
    ∃ digest hlen, m = encode digest sha2_256 ∧ c = (Content.v0 digest hlen).cid := by
  obtain ⟨dm, hdec, h⟩ := bind_eq_ok.mp h
  obtain ⟨hm, hlen, -⟩ := decode_ok (wrap_eq_ok.mp hdec)
  split at h
  · cases h
  rename_i hv0
  rw [not_or, not_not, not_not] at hv0
  cases h
  rw [hv0.1] at hm
  exact ⟨dm.digest, hlen.symm.trans hv0.2, hm, by rw [Content.cid, ← hm]⟩

/-- A multihash of sha2-256 with its 32 bytes makes a CID of version 0. -/
theorem tryNewCidV0_encode (h : digest.length = 32) :
    tryNewCidV0 (encode digest sha2_256) = .ok (Content.v0 digest h).cid := by
  rw [tryNewCidV0, decode_encode (fits_v0 h), wrap_ok, ok_bind]
  rw [if_neg (by simp [h])]
  rfl

theorem newCidV0_encode (h : digest.length = 32) :
    newCidV0 (encode digest sha2_256) = .ok (Content.v0 digest h).cid := by
  rw [newCidV0, tryNewCidV0_encode h]

/-- The bytes that a text stands for, bare or in an encoding. -/
def StandsFor (ext : Multibase.External) (text data : Bytes) : Prop :=
  ext.base58BTC.decode text = some data ∨ ∃ base, Multibase.decode ext text = .ok (base, data)

variable {ext : Multibase.External}

theorem fromB58String_ok {s : Bytes}
    (h : fromB58String ext s = .ok m) : ext.base58BTC.decode s = some m := by
  unfold fromB58String at h
  split at h
  · cases h
  · rename_i b hb
    rw [hb, (Multihash.cast_ok h).1]

theorem decode_content {text : Bytes}
    (h : decode ext text = .ok c) : ∃ k : Content, StandsFor ext text k.cid.bytes ∧ c = k.cid := by
  unfold decode at h
  split at h
  · cases h
  split at h
  · obtain ⟨hash, hb58, h⟩ := bind_eq_ok.mp h
    obtain ⟨digest, hlen, rfl, hc⟩ := tryNewCidV0_ok h
    exact ⟨.v0 digest hlen, .inl (fromB58String_ok (wrap_eq_ok.mp hb58)), hc⟩
  · split at h
    · cases h
    · cases h
    · rename_i base data hbase
      obtain ⟨k, rfl, hc⟩ := cast_ok h
      exact ⟨k, .inr ⟨base, hbase⟩, hc⟩

/-! ## The round trip -/

/-- A CID is read back from its bytes, and says the codec, the multihash and the parts
that are given; the parts are read back from theirs. -/
structure Says (c : Cid) (codec : Nat) (mhash : Bytes) (p : Prefix) : Prop where
  cast : cast c.bytes = .ok c
  type : c.type = codec
  hash : c.hash = mhash
  parts : c.getPrefix = p
  written : prefixFromBytes c.getPrefix.bytes = .ok c.getPrefix

theorem says_cid : Says k.cid k.codec k.multihash k.parts where
  cast := cast_bytes k
  type := type_cid k
  hash := hash_cid k
  parts := getPrefix_cid k
  written := by
    rw [getPrefix_cid]
    exact prefixFromBytes_parts k

/-- The contents of a CID and what it says agree, however the CID was made. -/
theorem cid_round_trip (ext : Multibase.External) :
    (∀ mhash c, newCidV0 mhash = .ok c → ∃ dm, Multihash.decode mhash = .ok dm ∧
      Says c dagProtobuf mhash ⟨0, dagProtobuf, dm.code, dm.length⟩) ∧
    (∀ codec mhash dm, codec < 2 ^ 63 → Multihash.decode mhash = .ok dm →
      Says (newCidV1 codec mhash) codec mhash ⟨1, codec, dm.code, dm.length⟩) ∧
    (∀ data c, cast data = .ok c →
      ∃ k : Content, data = k.cid.bytes ∧ Says c k.codec k.multihash k.parts) ∧
    (∀ data n c, cidFromBytes data = .ok (n, c) →
      (∃ k : Content, data.take n = k.cid.bytes ∧ Says c k.codec k.multihash k.parts) ∧
      n = c.bytes.length ∧ data.take n = c.bytes ∧
      ∀ tail, cidFromBytes (data.take n ++ tail) = .ok (n, c) ∧
        cidFromBytes (data ++ tail) = .ok (n, c)) ∧
    (∀ text c, decode ext text = .ok c →
      ∃ k : Content, StandsFor ext text k.cid.bytes ∧ Says c k.codec k.multihash k.parts) := by
  refine ⟨?_, ?_, ?_, ?_, ?_⟩
  · intro mhash c h
    have htry : tryNewCidV0 mhash = .ok c := by
      unfold newCidV0 at h
      split at h
      · rename_i hok
        rw [hok, h]
      · cases h
    obtain ⟨digest, hlen, rfl, rfl⟩ := tryNewCidV0_ok htry
    refine ⟨_, decode_encode (fits_v0 hlen), ?_⟩
    rw [hlen]
    exact says_cid (.v0 digest hlen)
  · intro codec mhash dm hcodec h
    obtain ⟨rfl, hlen, hfits⟩ := decode_ok h
    rw [hlen]
    exact says_cid (.v1 codec dm.code dm.digest hcodec hfits)
  · intro data c h
    obtain ⟨k, hdata, rfl⟩ := cast_ok h
    exact ⟨k, hdata, says_cid k⟩
  · intro data n c h
    obtain ⟨k, ys, rfl, rfl, rfl⟩ := cidFromBytes_ok h
    rw [take_left]
    refine ⟨⟨k, rfl, says_cid k⟩, rfl, rfl, fun tail => ⟨cidFromBytes_bytes k tail, ?_⟩⟩
    rw [append_assoc]
    exact cidFromBytes_bytes k (ys ++ tail)
  · intro text c h
    obtain ⟨k, htext, rfl⟩ := decode_content h
    exact ⟨k, htext, says_cid k⟩

/-- A raw block under the identity hash, and a block under sha2-256 of version 0. -/
theorem cid_round_trip_raw :
    Says (newCidV1 0x55 (encode [1, 2] 0)) 0x55 (encode [1, 2] 0) ⟨1, 0x55, 0, 2⟩ ∧
    ∃ c, newCidV0 (encode (replicate 32 7) sha2_256) = .ok c ∧
      ∃ dm, Multihash.decode (encode (replicate 32 7) sha2_256) = .ok dm ∧
        Says c dagProtobuf (encode (replicate 32 7) sha2_256)
          ⟨0, dagProtobuf, dm.code, dm.length⟩ :=
  ⟨(cid_round_trip Multibase.plain).2.1 0x55 (encode [1, 2] 0) ⟨0, 2, [1, 2]⟩ (by decide)
      (decode_encode ⟨by decide, by decide⟩),
    _, newCidV0_encode length_replicate,
    (cid_round_trip Multibase.plain).1 _ _ (newCidV0_encode length_replicate)⟩

end Dep2p.Cid
