import Dep2p.Cid.RoundTrip

/- The texts of a CID (`StringOfBase`, `ExtractEncoding`).

   A CID of version 0 has one text, its multihash in base58, and one of version 1 has a text in
   every supported encoding. `Decode` tells the two apart by the length and the first two
   characters; what is not a bare multihash it reads as multibase, and then takes a CID of
   either version. `ExtractEncoding` looks at the first byte where `Decode` reads a rune, so it
   does not find `base256emoji`; and it finds encodings that a CID of version 0 has no text in.

   Correspondence (Go ↔ Lean):
     `StringOfBase`, `ExtractEncoding` ↔ the same names
     `mbase.NewEncoder`                ↔ `newEncoder`

   What is proved:
     `cid_text_iff` — the texts of a CID are read back, and which accepted texts lead to a text
     of the same CID; `cid_text_unfound` has two that do not. -/
namespace Dep2p.Cid

open Lib Lib.Utf8 Multihash List Multibase.Encoding

inductive TextErr where
  | errInvalidEncoding
  | cidTooShort
  | unsupported (base : Nat)
  | multibase (err : Multibase.Err)
  deriving DecidableEq, Repr

/-- The text of a bare multihash, as `Decode` and `ExtractEncoding` recognise it. -/
abbrev Bare (v : Bytes) : Prop := v.length = 46 ∧ v.take 2 = "Qm".toUTF8.toList

def stringOfBase (ext : Multibase.External) (c : Cid) (base : Multibase.Encoding) :
    Except TextErr Bytes :=
  if c.version = 0 then
    if base ≠ .base58BTC then .error .errInvalidEncoding else .ok (ext.base58BTC.encode c.hash)
  else (Multibase.encode ext base c.bytes).mapError .multibase

def newEncoder (base : Nat) : Except TextErr Multibase.Encoding :=
  match Multibase.Encoding.ofRune base with
  | none => .error (.unsupported base)
  | some enc => if enc.supported then .ok enc else .error (.unsupported base)

def extractEncoding : Bytes → Except TextErr Multibase.Encoding
  | v0 :: v1 :: v => if Bare (v0 :: v1 :: v) then .ok .base58BTC else newEncoder v0.toNat
  | _ => .error .cidTooShort

/-! ## The texts of a CID -/

/-- What is used of the codecs from outside: an empty text holds no data, and a multihash of
sha2-256 has 46 characters in base58 that begin with `Qm`. -/
structure Standard (ext : Multibase.External) : Prop where
  empty : ∀ c ∈ [ext.base58BTC, ext.base58Flickr, ext.base64, ext.base64url, ext.base64pad,
    ext.base64urlPad], ∀ d, c.decode [] = some d → d = []
  bare : ∀ digest : Bytes, digest.length = 32 → Bare (ext.base58BTC.encode (18 :: 32 :: digest))

/-- The encodings that `StringOfBase` takes. -/
def Content.Allows : Content → Multibase.Encoding → Prop
  | .v0 _ _, base => base = .base58BTC
  | .v1 .., base => base.supported = true

variable {ext : Multibase.External} {base : Multibase.Encoding} {d v : Bytes}

theorem decodeBody_nil (hext : Standard ext) (h : Multibase.decodeBody ext base [] = .ok d) :
    d = [] := by
  have hout : ∀ c ∈ [ext.base58BTC, ext.base58Flickr, ext.base64, ext.base64url, ext.base64pad,
      ext.base64urlPad], (c.decode []).elim (.error Multibase.Err.external) .ok = Except.ok d → d = [] := by
    intro c hc h
    cases hd : c.decode [] with
    | none =>
      rw [hd] at h
      cases h
    | some d' =>
      rw [hd] at h
      cases h
      exact hext.empty c hc d hd
  cases base
  case base58BTC | base58Flickr | base64 | base64url | base64pad | base64urlPad =>
    exact hout _ (by simp) h
  case base8 | base10 => cases h
  case base36 | base36Upper => cases h
  case identity | base2 | base16 | base16Upper =>
    cases h
    rfl
  all_goals
    simp only [Multibase.decodeBody, Base32.Encoding.decodeString, filter_nil,
      Base32.Encoding.decodeLoop, Multibase.base256emojiDecode, Multibase.base256emojiLoop] at h
    cases h
    rfl

theorem qm_bytes : "Qm".toUTF8.toList = [81, 109] := by decide +kernel

/-- A text in multibase is not a bare multihash. -/
theorem not_bare (body : Bytes) :
    ¬ Bare (encodeRune base.rune ++ body) := by
  have hhead : ∃ c ∈ (encodeRune base.rune).head?, c ≠ 81 := by cases base <;> decide +kernel
  obtain ⟨c, hc, hne⟩ := hhead
  rintro ⟨-, htake⟩
  obtain ⟨rest, hrest⟩ := head?_eq_some_iff.mp hc
  rw [hrest, qm_bytes] at htake
  exact hne (cons.inj htake).1

theorem bytes_ne_nil (k : Content) : k.cid.bytes ≠ [] := by
  intro hnil
  have hread := cidFromBytes_bytes k []
  rw [hnil] at hread
  cases hread

/-- Every text of a CID is read back. -/
theorem decode_stringOfBase (hext : Standard ext) (k : Content) (h : k.Allows base) :
    ∃ s, k.cid.stringOfBase ext base = .ok s ∧ decode ext s = .ok k.cid := by
  unfold stringOfBase
  cases k with
  | v0 digest hlen =>
    obtain rfl : base = .base58BTC := h
    have hbare := hext.bare digest hlen
    rw [← encode_v0 hlen] at hbare
    refine ⟨_, (if_pos (version_v0 hlen)).trans (if_neg (not_not.mpr rfl)), ?_⟩
    rw [hash_cid, Content.multihash, decode, if_neg (by rw [hbare.1]; decide), if_pos hbare,
      fromB58String, ext.base58BTC.decode_encode _ (by rw [encode_v0 hlen]; exact cons_ne_nil _ _)]
    dsimp only
    rw [cast_encode (fits_v0 hlen), Fault.wrap_ok, ok_bind, tryNewCidV0_encode hlen]
  | v1 codec code digest hcodec hfits =>
    have hne := bytes_ne_nil (.v1 codec code digest hcodec hfits)
    obtain ⟨s, hs, hdecode⟩ := (Multibase.roundTrips_supported h).mpr fun hnil => absurd hnil hne
    refine ⟨s, ?_, ?_⟩
    · rw [if_neg (by rw [Content.cid, version_newCidV1]; decide), hs]
      rfl
    · unfold Multibase.encode at hs
      split at hs
      · cases hs
      rename_i body hbody
      cases hs
      have hlong : ¬ (encodeRune base.rune ++ body).length < 2 := by
        intro hshort
        obtain ⟨-, -, hrune⟩ := Multibase.decodeRune_rune
        have hnil : body = [] := by
          rw [length_append, hrune] at hshort
          refine length_eq_zero_iff.mp ?_
          split at hshort <;> omega
        rw [Multibase.decode_append, hnil] at hdecode
        split at hdecode
        · cases hdecode
        · rename_i bytes hnone
          cases hdecode
          exact hne (decodeBody_nil hext hnone)
      rw [decode, if_neg hlong, if_neg (not_bare body), hdecode]
      exact cast_bytes _

/-! ## Which encoding a text has -/

/-- The encoding that `Decode` reads a text in. -/
def UsesBase (ext : Multibase.External) (v : Bytes) (base : Multibase.Encoding) : Prop :=
  if Bare v then base = .base58BTC else ∃ data, Multibase.decode ext v = .ok (base, data)

/-- The text begins with an ASCII character; and only base58 holds a CID of version 0. -/
def Plain (ext : Multibase.External) (v : Bytes) : Prop :=
  Bare v ∨ ∃ v0, v.head? = some v0 ∧ v0 < 0x80 ∧
    (v0.toNat = Multibase.Encoding.base58BTC.rune ∨
      ∀ base data, Multibase.decode ext v = .ok (base, data) → data.head? ≠ some 18)

/-- The encoding is found, it is the one of the text, and the CID has a text in it. -/
def Returns (ext : Multibase.External) (v : Bytes) (c : Cid) : Prop :=
  ∃ base, extractEncoding v = .ok base ∧ UsesBase ext v base ∧
    ∃ s, c.stringOfBase ext base = .ok s ∧ decode ext s = .ok c

theorem newEncoder_ok {n : Nat} (h : newEncoder n = .ok base) :
    ofRune n = some base ∧ base.supported = true := by
  unfold newEncoder at h
  split at h
  · cases h
  rename_i enc henc
  split at h
  · rename_i hsup
    cases h
    exact ⟨henc, hsup⟩
  · cases h

/-- No encoding has a rune between 0x80 and 0xFF. -/
theorem ofRune_byte : ∀ v0 : UInt8, ¬ v0 < 0x80 → ofRune v0.toNat = none :=
  Base32.forall_byte (by decide +kernel)

theorem rune_ofRune {n : Nat} (h : ofRune n = some base) : base.rune = n := by
  simpa using find?_some h

/-- What `Decode` reads as multibase starts with the rune of the encoding. -/
theorem decode_ascii {v0 : UInt8} {data : Bytes} (hv : v0 < 0x80)
    (h : Multibase.decode ext (v0 :: v) = .ok (base, data)) :
    ofRune v0.toNat = some base ∧ base.supported = true := by
  unfold Multibase.decode at h
  rw [if_neg (by simp), decodeRune_ascii hv] at h
  split at h
  · cases h
  rename_i enc henc
  split at h
  · cases h
  rename_i bytes hbody
  cases h
  refine ⟨henc, ?_⟩
  cases base <;> first | rfl | cases hbody

theorem head_bytes (k : Content) : k.cid.bytes.head? = some 18 ↔ k.cid.version = 0 := by
  cases k with
  | v0 digest h =>
    rw [Content.cid, version_v0 h, bytes, encode_v0 h]
    simp
  | v1 codec code digest hcodec h =>
    rw [Content.cid, version_newCidV1]
    simp [bytes, newCidV1]

theorem allows_of_version (k : Content) (hbase : base.supported = true)
    (h : base = .base58BTC ∨ k.cid.version ≠ 0) : k.Allows base := by
  cases k with
  | v0 digest hlen => exact h.resolve_right fun hne => hne (version_v0 hlen)
  | v1 codec code digest hcodec hfits => exact hbase

/-- Every text of a CID is read back; and of a text that is accepted the encoding is found, with
a text of the CID in it, just if the text is plain. -/
theorem cid_text_iff (ext : Multibase.External) (hext : Standard ext) :
    (∀ (k : Content) (base : Multibase.Encoding), k.Allows base →
      ∃ s, k.cid.stringOfBase ext base = .ok s ∧ decode ext s = .ok k.cid) ∧
    ∀ (v : Bytes) (c : Cid), decode ext v = .ok c → (Returns ext v c ↔ Plain ext v) := by
  refine ⟨fun k base h => decode_stringOfBase hext k h, fun v c h => ?_⟩
  have hdef := h
  unfold decode at hdef
  split at hdef
  · cases hdef
  rename_i hlong
  obtain ⟨v0, v1, v, rfl⟩ : ∃ v0 v1 v', v = v0 :: v1 :: v' := by
    match v, hlong with
    | [], hlong => exact absurd (by decide : 0 < 2) hlong
    | [_], hlong => exact absurd (by decide : 1 < 2) hlong
    | v0 :: v1 :: v, _ => exact ⟨v0, v1, v, rfl⟩
  split at hdef
  · rename_i hbare
    obtain ⟨hash, -, hdef⟩ := bind_eq_ok.mp hdef
    obtain ⟨digest, hlen, -, rfl⟩ := tryNewCidV0_ok hdef
    refine ⟨fun _ => .inl hbare, fun _ => ⟨.base58BTC, if_pos hbare, ?_, ?_⟩⟩
    · exact (if_pos hbare).mpr rfl
    · exact decode_stringOfBase hext (.v0 digest hlen) rfl
  · rename_i hbare
    split at hdef
    · cases hdef
    · cases hdef
    · rename_i base data hdecode
      obtain ⟨k, rfl, rfl⟩ := cast_ok hdef
      have hextract : extractEncoding (v0 :: v1 :: v) = newEncoder v0.toNat := if_neg hbare
      have huses : ∀ b, UsesBase ext (v0 :: v1 :: v) b ↔ b = base := by
        intro b
        rw [UsesBase, if_neg hbare, hdecode]
        simp [eq_comm]
      constructor
      · rintro ⟨b, hb, hub, s, hs, -⟩
        obtain ⟨hrune, -⟩ := newEncoder_ok (hextract ▸ hb)
        refine .inr ⟨v0, rfl, ?_, ?_⟩
        · by_contra hv
          rw [ofRune_byte v0 hv] at hrune
          cases hrune
        · by_cases h58 : b = .base58BTC
          · rw [h58] at hrune
            exact .inl (rune_ofRune hrune).symm
          · refine .inr fun b' data' hdecode' hhead => ?_
            rw [hdecode] at hdecode'
            cases hdecode'
            rw [stringOfBase, if_pos ((head_bytes k).mp hhead), if_pos h58] at hs
            cases hs
      · rintro (hbare' | ⟨v0', hv0, hascii, hplain⟩)
        · exact absurd hbare' hbare
        · cases hv0
          obtain ⟨hrune, hsup⟩ := decode_ascii hascii hdecode
          refine ⟨base, ?_, (huses base).mpr rfl, ?_⟩
          · rw [hextract, newEncoder, hrune]
            exact if_pos hsup
          · refine decode_stringOfBase hext k (allows_of_version k hsup ?_)
            rcases hplain with hz | hhead
            · rw [hz, ofRune_rune] at hrune
              exact .inl (Option.some.inj hrune).symm
            · exact .inr fun hzero => hhead base _ hdecode ((head_bytes k).mpr hzero)

/-- A codec with twelve characters in front of the data, as base58 has them in front of a
multihash of sha2-256; the others keep the data as it is. -/
def quoted : Multibase.External :=
  { Multibase.plain with
    base58BTC := ⟨fun d => 81 :: 109 :: (replicate 10 0 ++ d), fun s => some (s.drop 12),
      fun _ _ => rfl⟩ }

theorem standard_quoted : Standard quoted where
  empty c hc d h := by
    simp only [mem_cons, not_mem_nil, or_false] at hc
    rcases hc with rfl | rfl | rfl | rfl | rfl | rfl <;> cases h
    rfl
  bare digest h := by
    refine ⟨?_, qm_bytes.symm⟩
    simp [quoted, h]

/-- A CID of version 0, and in base64 the CID of no data under the identity hash. -/
theorem cid_text_base58 :
    (∃ s, (Content.v0 (replicate 32 7) length_replicate).cid.stringOfBase quoted .base58BTC = .ok s ∧
      decode quoted s = .ok (Content.v0 (replicate 32 7) length_replicate).cid) ∧
    ∃ s, (newCidV1 0x55 (encode [] 0)).stringOfBase quoted .base64 = .ok s ∧
      decode quoted s = .ok (newCidV1 0x55 (encode [] 0)) :=
  ⟨(cid_text_iff quoted standard_quoted).1 (.v0 (replicate 32 7) length_replicate) .base58BTC rfl,
    (cid_text_iff quoted standard_quoted).1 (.v1 0x55 0 [] (by decide) ⟨by decide, by decide⟩)
      .base64 rfl⟩

/-- The encoding of a text in `base256emoji` is not found; and of a CID of version 0 in base16
it is, but the CID has no text in it. -/
theorem cid_text_unfound :
    (∃ s, (newCidV1 0x55 (encode [] 0)).stringOfBase quoted .base256Emoji = .ok s ∧
      decode quoted s = .ok (newCidV1 0x55 (encode [] 0)) ∧
      extractEncoding s = .error (.unsupported 0xF0)) ∧
    decode quoted (102 :: Multibase.hexEncode Multibase.hexTable (18 :: 32 :: replicate 32 7)) =
      .ok ⟨18 :: 32 :: replicate 32 7⟩ ∧
    extractEncoding (102 :: Multibase.hexEncode Multibase.hexTable (18 :: 32 :: replicate 32 7)) =
      .ok .base16 ∧
    stringOfBase quoted ⟨18 :: 32 :: replicate 32 7⟩ .base16 = .error .errInvalidEncoding := by
  refine ⟨?_, by decide +kernel, by decide +kernel, by decide +kernel⟩
  have hallows : (Content.v1 0x55 0 [] (by decide) ⟨by decide, by decide⟩).Allows .base256Emoji := rfl
  obtain ⟨s, hs, hdecode⟩ := decode_stringOfBase standard_quoted _ hallows
  refine ⟨s, hs, hdecode, ?_⟩
  have htext : (newCidV1 0x55 (encode [] 0)).stringOfBase quoted .base256Emoji =
      .ok (0xF0 :: 0x9F :: ([0x9A, 0x80] ++ Multibase.base256emojiEncode [1, 0x55, 0, 0])) := by
    decide +kernel
  obtain rfl := Except.ok.inj (htext.symm.trans hs)
  decide +kernel

end Dep2p.Cid
