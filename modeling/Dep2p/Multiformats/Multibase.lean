import Dep2p.Lib.Utf8
import Dep2p.Multiformats.Base36
import Mathlib.Data.List.GetD

/- Multibase (`multibase.go`, `base2.go`, `base16.go`, `base32.go`, `base256emoji.go`).

   A text is the character of its encoding and the data in that encoding. Texts are byte
   strings; the character is the first rune, one byte for all encodings but
   `base256emoji`. The codecs of the repository are modelled, and so is the standard `hex`;
   base58 and base64 come from outside and are given with the law that they read what they
   write (`External`).

   Correspondence (Go ↔ Lean):
     `Encode`, `Decode`                               ↔ the same names
     `binaryEncodeToString`, `decodeBinaryString`     ↔ the same names
     `hexEncodeToStringUpper`, `hex.EncodeToString`   ↔ `hexEncode` with the table
     `base256emojiEncode`, `base256emojiDecode`       ↔ the same names

   What is proved:
     `multibase_round_trip_iff` — what `Encode` writes, `Decode` reads, with the one
     exception of base36 and no data. -/
namespace Dep2p.Multibase

open Lib.Utf8 List UInt8 Base32.Encoding

abbrev Bytes := List UInt8

inductive Encoding where
  | identity | base2 | base8 | base10 | base16 | base16Upper
  | base32 | base32Upper | base32pad | base32padUpper
  | base32hex | base32hexUpper | base32hexPad | base32hexPadUpper
  | base36 | base36Upper | base58BTC | base58Flickr
  | base64 | base64url | base64pad | base64urlPad | base256Emoji
  deriving DecidableEq, Repr

namespace Encoding

/-- The value of the constant, a rune. -/
def rune : Encoding → Nat
  | identity => 0x00
  | base2 => '0'.toNat
  | base8 => '7'.toNat
  | base10 => '9'.toNat
  | base16 => 'f'.toNat
  | base16Upper => 'F'.toNat
  | base32 => 'b'.toNat
  | base32Upper => 'B'.toNat
  | base32pad => 'c'.toNat
  | base32padUpper => 'C'.toNat
  | base32hex => 'v'.toNat
  | base32hexUpper => 'V'.toNat
  | base32hexPad => 't'.toNat
  | base32hexPadUpper => 'T'.toNat
  | base36 => 'k'.toNat
  | base36Upper => 'K'.toNat
  | base58BTC => 'z'.toNat
  | base58Flickr => 'Z'.toNat
  | base64 => 'm'.toNat
  | base64url => 'u'.toNat
  | base64pad => 'M'.toNat
  | base64urlPad => 'U'.toNat
  | base256Emoji => '🚀'.toNat

def all : List Encoding :=
  [identity, base2, base8, base10, base16, base16Upper, base32, base32Upper, base32pad,
    base32padUpper, base32hex, base32hexUpper, base32hexPad, base32hexPadUpper, base36,
    base36Upper, base58BTC, base58Flickr, base64, base64url, base64pad, base64urlPad,
    base256Emoji]

/-- The encoding with this rune. -/
def ofRune (r : Nat) : Option Encoding := all.find? fun b => b.rune = r

/-- The keys of `EncodingToStr`: all but base8 and base10. -/
def supported : Encoding → Bool
  | base8 => false
  | base10 => false
  | _ => true

theorem ofRune_rune (b : Encoding) : ofRune b.rune = some b := by
  cases b <;> decide +kernel

end Encoding

/-! ## Base 2 -/

/-- The digits of a byte, the highest bit first. -/
def encodeBinary (b : UInt8) : Bytes :=
  [7, 6, 5, 4, 3, 2, 1, 0].map fun (j : UInt8) => if b &&& (1 <<< j) = 0 then 48 else 49

variable (src : Bytes) {n : Nat} {encoder decoder : Bytes}

def binaryEncodeToString : Bytes := src.flatMap encodeBinary

/-- The number with these binary digits. -/
def binaryDigits : Bytes → Nat → Option Nat
  | [], n => some n
  | c :: s, n =>
    if c = 48 then binaryDigits s (2 * n) else if c = 49 then binaryDigits s (2 * n + 1) else none

/-- `strconv.ParseInt` in base 2: a sign is accepted. -/
def parseBinary : Bytes → Option Int
  | [] => none
  | c :: s =>
    if c = 43 ∨ c = 45 then
      if s = [] then none
      else (binaryDigits s 0).map fun n => if c = 45 then -(n : Int) else n
    else (binaryDigits (c :: s) 0).map fun n => (n : Int)

/-- Eight characters at a time. -/
def decodeBinaryLoop : Bytes → Option Bytes
  | c0 :: c1 :: c2 :: c3 :: c4 :: c5 :: c6 :: c7 :: s =>
    match parseBinary [c0, c1, c2, c3, c4, c5, c6, c7] with
    | none => none
    | some value => (decodeBinaryLoop s).map (UInt8.ofInt value :: ·)
  | _ => some []

def decodeBinaryString (s : Bytes) : Option Bytes :=
  let s := if s.length % 8 ≠ 0 then replicate (8 - s.length % 8) 48 ++ s else s
  decodeBinaryLoop s

/-- The eight digits of a byte are read as the byte. -/
theorem parseBinary_encode : ∀ n, n < 256 →
    (parseBinary (encodeBinary (ofNat n))).map ofInt = some (ofNat n) := by
  decide +kernel

theorem decodeBinaryLoop_encode : decodeBinaryLoop (binaryEncodeToString src) = some src := by
  unfold binaryEncodeToString
  induction src with
  | nil => rfl
  | cons b src ih =>
    have hparse := parseBinary_encode b.toNat b.toNat_lt
    rw [UInt8.ofNat_toNat] at hparse
    obtain ⟨value, hvalue, hb⟩ := Option.map_eq_some_iff.mp hparse
    rw [flatMap_cons]
    unfold encodeBinary at hvalue ⊢
    simp only [map_cons, map_nil, cons_append, nil_append] at hvalue ⊢
    rw [decodeBinaryLoop, hvalue]
    dsimp only
    unfold encodeBinary at ih
    simp only [map_cons, map_nil] at ih
    rw [ih, hb]
    rfl

theorem decodeBinaryString_encode : decodeBinaryString (binaryEncodeToString src) = some src := by
  have hlen : (binaryEncodeToString src).length % 8 = 0 := by
    unfold binaryEncodeToString
    induction src with
    | nil => rfl
    | cons b src ih =>
      rw [flatMap_cons, length_append, show (encodeBinary b).length = 8 from rfl]
      omega
  unfold decodeBinaryString
  rw [if_neg (by omega)]
  exact decodeBinaryLoop_encode src

/-! ## Base 16 -/

def hexTable : Bytes := "0123456789abcdef".toUTF8.toList

def hexTableUppers : Bytes := "0123456789ABCDEF".toUTF8.toList

def hexEncode (table : Bytes) (src : Bytes) : Bytes :=
  src.flatMap fun (v : UInt8) => [table.getD (v >>> 4).toNat 0, table.getD (v &&& 0x0f).toNat 0]

def fromHexChar (c : UInt8) : Option UInt8 :=
  if 48 ≤ c ∧ c ≤ 57 then some (c - 48)
  else if 97 ≤ c ∧ c ≤ 102 then some (c - 97 + 10)
  else if 65 ≤ c ∧ c ≤ 70 then some (c - 65 + 10)
  else none

/-- `hex.DecodeString` -/
def hexDecode : Bytes → Option Bytes
  | [] => some []
  | [_] => none
  | p :: q :: s =>
    match fromHexChar p, fromHexChar q with
    | some a, some b => (hexDecode s).map ((a <<< 4 ||| b) :: ·)
    | _, _ => none

/-- Every digit of the table is read as its place. -/
def HexTable (table : Bytes) : Prop :=
  ∀ n, n < 16 → fromHexChar (table.getD n 0) = some (UInt8.ofNat n)

theorem hexTable_lower : HexTable hexTable := by
  unfold HexTable
  decide +kernel

theorem hexTable_upper : HexTable hexTableUppers := by
  unfold HexTable
  decide +kernel

theorem nibbles (v : UInt8) : (v >>> 4) <<< 4 ||| (v &&& 0x0f) = v := by
  apply eq_of_bits
  intro i hi
  rcases bit_cases hi with rfl | rfl | rfl | rfl | rfl | rfl | rfl | rfl <;> simp

theorem hexDecode_encode {table : Bytes} (h : HexTable table) (src : Bytes) :
    hexDecode (hexEncode table src) = some src := by
  unfold hexEncode
  induction src with
  | nil => rfl
  | cons v src ih =>
    have hhigh : (v >>> 4).toNat < 16 := by
      have hv := v.toNat_lt
      rw [UInt8.toNat_shiftRight, Nat.shiftRight_eq_div_pow]
      show v.toNat / 16 < 16
      omega
    have hlow : (v &&& 0x0f).toNat < 16 := by
      exact lt_of_le_of_lt and_le_right (by decide)
    have h1 := h _ hhigh
    have h2 := h _ hlow
    rw [UInt8.ofNat_toNat] at h1 h2
    rw [flatMap_cons, cons_append, cons_append, nil_append, hexDecode, h1, h2]
    dsimp only
    rw [ih, Option.map_some, nibbles]

/-! ## Base 32 -/

open Base32 (newEncodingCI)

def lowerStd : Bytes := "abcdefghijklmnopqrstuvwxyz234567".toUTF8.toList

def upperStd : Bytes := "ABCDEFGHIJKLMNOPQRSTUVWXYZ234567".toUTF8.toList

def lowerHex : Bytes := "0123456789abcdefghijklmnopqrstuv".toUTF8.toList

def upperHex : Bytes := "0123456789ABCDEFGHIJKLMNOPQRSTUV".toUTF8.toList

/-- The characters of `encoder`, read with the table of `decoder`. -/
def ReadsAlphabet (encoder decoder : Bytes) : Prop :=
  ∀ n, n < 32 → (newEncodingCI decoder).decodeMap (encoder.getD n 0) = UInt8.ofNat n ∧
    encoder.getD n 0 ≠ 61 ∧ encoder.getD n 0 ≠ 0xFF ∧ encoder.getD n 0 ≠ 10 ∧
    encoder.getD n 0 ≠ 13

theorem reads_lowerStd : ReadsAlphabet lowerStd upperStd := by
  unfold ReadsAlphabet
  decide +kernel

theorem reads_upperStd : ReadsAlphabet upperStd upperStd := by
  unfold ReadsAlphabet
  decide +kernel

theorem reads_lowerHex : ReadsAlphabet lowerHex upperHex := by
  unfold ReadsAlphabet
  decide +kernel

theorem reads_upperHex : ReadsAlphabet upperHex upperHex := by
  unfold ReadsAlphabet
  decide +kernel

theorem char_ofNat (enc : Base32.Encoding) (hn : n < 32) :
    enc.char (ofNat n) = enc.alphabet.getD n 0 := by
  unfold char
  rw [toNat_ofNat_of_lt' (lt_trans hn (by decide))]

/-- Encodings of `multibase` and the ones that `Decode` uses for them, with the padding of
`NewEncodingCI` and without. -/
theorem agrees (h : ReadsAlphabet encoder decoder) {padding : Option UInt8}
    (hp : padding = some 61 ∨ padding = none) :
    Base32.Encoding.Agrees ((newEncodingCI encoder).withPadding padding)
      ((newEncodingCI decoder).withPadding padding) := by
  have hline : padding.getD (0xFF : UInt8) ≠ 10 ∧ padding.getD (0xFF : UInt8) ≠ 13 := by
    rcases hp with rfl | rfl <;> decide
  refine ⟨rfl, hline, fun n hn => ?_⟩
  obtain ⟨hback, hpad, hnone, hline⟩ := h n hn
  rw [char_ofNat _ hn]
  refine ⟨hback, ?_, hline⟩
  rcases hp with rfl | rfl
  · exact hpad
  · exact hnone

/-! ## Base 256 -/

def base256emojiTable : List Nat :=
  ['🚀', '🪐', '☄', '🛰', '🌌', '🌑', '🌒', '🌓', '🌔', '🌕', '🌖', '🌗', '🌘', '🌍', '🌏', '🌎',
    '🐉', '☀', '💻', '🖥', '💾', '💿', '😂', '❤', '😍', '🤣', '😊', '🙏', '💕', '😭', '😘', '👍',
    '😅', '👏', '😁', '🔥', '🥰', '💔', '💖', '💙', '😢', '🤔', '😆', '🙄', '💪', '😉', '☺', '👌',
    '🤗', '💜', '😔', '😎', '😇', '🌹', '🤦', '🎉', '💞', '✌', '✨', '🤷', '😱', '😌', '🌸', '🙌',
    '😋', '💗', '💚', '😏', '💛', '🙂', '💓', '🤩', '😄', '😀', '🖤', '😃', '💯', '🙈', '👇', '🎶',
    '😒', '🤭', '❣', '😜', '💋', '👀', '😪', '😑', '💥', '🙋', '😞', '😩', '😡', '🤪', '👊', '🥳',
    '😥', '🤤', '👉', '💃', '😳', '✋', '😚', '😝', '😴', '🌟', '😬', '🙃', '🍀', '🌷', '😻', '😓',
    '⭐', '✅', '🥺', '🌈', '😈', '🤘', '💦', '✔', '😣', '🏃', '💐', '☹', '🎊', '💘', '😠', '☝',
    '😕', '🌺', '🎂', '🌻', '😐', '🖕', '💝', '🙊', '😹', '🗣', '💫', '💀', '👑', '🎵', '🤞', '😛',
    '🔴', '😤', '🌼', '😫', '⚽', '🤙', '☕', '🏆', '🤫', '👈', '😮', '🙆', '🍻', '🍃', '🐶', '💁',
    '😲', '🌿', '🧡', '🎁', '⚡', '🌞', '🎈', '❌', '✊', '👋', '😰', '🤨', '😶', '🤝', '🚶', '💰',
    '🍓', '💢', '🤟', '🙁', '🚨', '💨', '🤬', '✈', '🎀', '🍺', '🤓', '😙', '💟', '🌱', '😖', '👶',
    '🥴', '▶', '➡', '❓', '💎', '💸', '⬇', '😨', '🌚', '🦋', '😷', '🕺', '⚠', '🙅', '😟', '😵',
    '👎', '🤲', '🤠', '🤧', '📌', '🔵', '💅', '🧐', '🐾', '🍒', '😗', '🤑', '🌊', '🤯', '🐷', '☎',
    '💧', '😯', '💆', '👆', '🎤', '🙇', '🍑', '❄', '🌴', '💣', '🐸', '💌', '📍', '🥀', '🤢', '👅',
    '💡', '💩', '👐', '📸', '👻', '🤐', '🤮', '🎼', '🥵', '🚩', '🍎', '🍊', '👼', '💍', '📣', '🥂'].map Char.toNat

/-- The map that the loop over the table leaves, from the rune with number `i`. -/
def reverseTable : List Nat → Nat → (Nat → Option UInt8) → Nat → Option UInt8
  | [], _, table => table
  | v :: runes, i, table =>
    reverseTable runes (i + 1) fun r => if r = v then some (UInt8.ofNat i) else table r

def base256emojiReverseTable : Nat → Option UInt8 := reverseTable base256emojiTable 0 fun _ => none

def base256emojiEncode : Bytes :=
  src.flatMap fun v => encodeRune (base256emojiTable.getD v.toNat 0)

/-- The offset and the rune of a character that is not in the table. -/
structure EmojiErr where
  index : Nat
  char : Nat
  deriving DecidableEq, Repr

def base256emojiLoop (stri : Nat) : Bytes → Except EmojiErr Bytes
  | [] => .ok []
  | b :: s =>
    have := width_pos b s
    match base256emojiReverseTable (decodeRune (b :: s)).1 with
    | none => .error ⟨stri, (decodeRune (b :: s)).1⟩
    | some v =>
      match base256emojiLoop (stri + (decodeRune (b :: s)).2)
          ((b :: s).drop (decodeRune (b :: s)).2) with
      | .error err => .error err
      | .ok out => .ok (v :: out)
termination_by s => s.length

def base256emojiDecode (s : Bytes) : Except EmojiErr Bytes := base256emojiLoop 0 s

variable {runes : List Nat}

theorem reverseTable_of_notMem {r : Nat} (h : r ∉ runes) (i : Nat)
    (table : Nat → Option UInt8) : reverseTable runes i table r = table r := by
  induction runes generalizing i table with
  | nil => rfl
  | cons v runes ih =>
    rw [mem_cons, not_or] at h
    rw [reverseTable, ih h.2, if_neg h.1]

/-- A rune that stands once in the table is found at its place. -/
theorem reverseTable_getD (hnodup : runes.Nodup) (i : Nat)
    (table : Nat → Option UInt8) (hn : n < runes.length) :
    reverseTable runes i table (runes.getD n 0) = some (ofNat (i + n)) := by
  induction runes generalizing i table n with
  | nil => exact absurd hn (Nat.not_lt_zero _)
  | cons v runes ih =>
    rw [nodup_cons] at hnodup
    cases n with
    | zero =>
      rw [getD_cons_zero, reverseTable, reverseTable_of_notMem hnodup.1, if_pos rfl,
        add_zero]
    | succ n =>
      rw [getD_cons_succ, reverseTable, ih hnodup.2 (i + 1) _ (Nat.lt_of_succ_lt_succ hn)]
      congr 2
      omega

/-- A check that no number stands twice in a list. -/
def distinct : List Nat → Bool
  | [] => true
  | a :: l => l.all (fun b => !Nat.beq a b) && distinct l

theorem nodup_of_distinct {l : List Nat} (h : distinct l = true) : l.Nodup := by
  induction l with
  | nil => exact nodup_nil
  | cons a l ih =>
    simp only [distinct, Bool.and_eq_true, all_eq_true] at h
    refine nodup_cons.mpr ⟨fun hmem => ?_, ih h.2⟩
    have hself := h.1 a hmem
    simp at hself

theorem nodup_emoji : base256emojiTable.Nodup := nodup_of_distinct (by decide +kernel)

/-- Every rune of the table is read as it was written. -/
theorem decodeRune_emoji : ∀ r ∈ base256emojiTable,
    decodeRune (encodeRune r) = (r, (encodeRune r).length) ∧ r ≠ runeError ∧ encodeRune r ≠ [] := by
  decide +kernel

theorem length_emoji : base256emojiTable.length = 256 := by decide +kernel

theorem base256emojiLoop_encode (stri : Nat) :
    base256emojiLoop stri (base256emojiEncode src) = .ok src := by
  unfold base256emojiEncode
  induction src generalizing stri with
  | nil => rw [flatMap_nil, base256emojiLoop]
  | cons v src ih =>
    have hlt : v.toNat < base256emojiTable.length := by
      rw [length_emoji]
      exact v.toNat_lt
    have hmem : base256emojiTable.getD v.toNat 0 ∈ base256emojiTable := by
      rw [getD_eq_getElem _ _ hlt]
      exact getElem_mem hlt
    obtain ⟨hread, hgood, hne⟩ := decodeRune_emoji _ hmem
    have hback : base256emojiReverseTable (base256emojiTable.getD v.toNat 0) = some v := by
      have hget := reverseTable_getD nodup_emoji 0 (fun _ => none) hlt
      rwa [zero_add, UInt8.ofNat_toNat] at hget
    have hvalid : (decodeRune (encodeRune (base256emojiTable.getD v.toNat 0))).1 ≠ runeError := by
      rw [hread]
      exact hgood
    have happend := decodeRune_append hvalid
      (src.flatMap fun v => encodeRune (base256emojiTable.getD v.toNat 0))
    rw [hread] at happend
    rw [flatMap_cons]
    generalize hbytes : encodeRune (base256emojiTable.getD v.toNat 0) = bytes at *
    cases bytes with
    | nil => exact absurd rfl hne
    | cons b bytes =>
      have hdrop : (b :: (bytes ++ src.flatMap fun v =>
          encodeRune (base256emojiTable.getD v.toNat 0))).drop (b :: bytes).length =
            src.flatMap fun v => encodeRune (base256emojiTable.getD v.toNat 0) := by
        rw [← cons_append, drop_left]
      rw [cons_append] at happend ⊢
      rw [base256emojiLoop, happend, hback]
      rw [hdrop, ih]

/-! ## Encode and Decode -/

/-- A codec from outside, which reads what it writes of data that is not empty: base58 refuses an
empty text. -/
structure Codec where
  encode : Bytes → Bytes
  decode : Bytes → Option Bytes
  decode_encode : ∀ d, d ≠ [] → decode (encode d) = some d

structure External where
  base58BTC : Codec
  base58Flickr : Codec
  base64 : Codec
  base64url : Codec
  base64pad : Codec
  base64urlPad : Codec

/-- The codec that an encoding takes from outside. -/
def External.codec? (ext : External) : Encoding → Option Codec
  | .base58BTC => some ext.base58BTC
  | .base58Flickr => some ext.base58Flickr
  | .base64 => some ext.base64
  | .base64url => some ext.base64url
  | .base64pad => some ext.base64pad
  | .base64urlPad => some ext.base64urlPad
  | _ => none

inductive Err where
  | zeroLength
  | unsupportedEncoding
  | base2
  | base16
  | base32 (err : Base32.Encoding.CorruptInput)
  | base36 (err : Base36.Err)
  | external
  | emoji (err : EmojiErr)
  /-- An index out of range. -/
  | panic
  deriving DecidableEq, Repr

variable (ext : External)

/-- The data in the encoding, without the character in front. -/
def encodeBody : Encoding → Bytes → Except Err Bytes
  | .identity, data => .ok data
  | .base2, data => .ok (binaryEncodeToString data)
  | .base16, data => .ok (hexEncode hexTable data)
  | .base16Upper, data => .ok (hexEncode hexTableUppers data)
  | .base32, data => .ok (((newEncodingCI lowerStd).withPadding none).encode data)
  | .base32Upper, data => .ok (((newEncodingCI upperStd).withPadding none).encode data)
  | .base32hex, data => .ok (((newEncodingCI lowerHex).withPadding none).encode data)
  | .base32hexUpper, data => .ok (((newEncodingCI upperHex).withPadding none).encode data)
  | .base32pad, data => .ok ((newEncodingCI lowerStd).encode data)
  | .base32padUpper, data => .ok ((newEncodingCI upperStd).encode data)
  | .base32hexPad, data => .ok ((newEncodingCI lowerHex).encode data)
  | .base32hexPadUpper, data => .ok ((newEncodingCI upperHex).encode data)
  | .base36, data => (Base36.encode data Base36.lcAlphabet).elim (.error .panic) .ok
  | .base36Upper, data => (Base36.encode data Base36.ucAlphabet).elim (.error .panic) .ok
  | .base58BTC, data => .ok (ext.base58BTC.encode data)
  | .base58Flickr, data => .ok (ext.base58Flickr.encode data)
  | .base64pad, data => .ok (ext.base64pad.encode data)
  | .base64urlPad, data => .ok (ext.base64urlPad.encode data)
  | .base64url, data => .ok (ext.base64url.encode data)
  | .base64, data => .ok (ext.base64.encode data)
  | .base256Emoji, data => .ok (base256emojiEncode data)
  | .base8, _ => .error .unsupportedEncoding
  | .base10, _ => .error .unsupportedEncoding

def encode (base : Encoding) (data : Bytes) : Except Err Bytes :=
  match encodeBody ext base data with
  | .error err => .error err
  | .ok body => .ok (encodeRune base.rune ++ body)

/-- The data of a text of this encoding. `rest` is `data[1:]`, and `data[4:]` for
`base256Emoji`. -/
def decodeBody : Encoding → Bytes → Except Err Bytes
  | .identity, rest => .ok rest
  | .base2, rest => (decodeBinaryString rest).elim (.error .base2) .ok
  | .base16, rest => (hexDecode rest).elim (.error .base16) .ok
  | .base16Upper, rest => (hexDecode rest).elim (.error .base16) .ok
  | .base32, rest => (((newEncodingCI upperStd).withPadding none).decodeString rest).mapError .base32
  | .base32Upper, rest =>
    (((newEncodingCI upperStd).withPadding none).decodeString rest).mapError .base32
  | .base32hex, rest =>
    (((newEncodingCI upperHex).withPadding none).decodeString rest).mapError .base32
  | .base32hexUpper, rest =>
    (((newEncodingCI upperHex).withPadding none).decodeString rest).mapError .base32
  | .base32pad, rest => ((newEncodingCI upperStd).decodeString rest).mapError .base32
  | .base32padUpper, rest => ((newEncodingCI upperStd).decodeString rest).mapError .base32
  | .base32hexPad, rest => ((newEncodingCI upperHex).decodeString rest).mapError .base32
  | .base32hexPadUpper, rest => ((newEncodingCI upperHex).decodeString rest).mapError .base32
  | .base36, rest => (Base36.decodeString rest).mapError .base36
  | .base36Upper, rest => (Base36.decodeString rest).mapError .base36
  | .base58BTC, rest => (ext.base58BTC.decode rest).elim (.error .external) .ok
  | .base58Flickr, rest => (ext.base58Flickr.decode rest).elim (.error .external) .ok
  | .base64pad, rest => (ext.base64pad.decode rest).elim (.error .external) .ok
  | .base64urlPad, rest => (ext.base64urlPad.decode rest).elim (.error .external) .ok
  | .base64, rest => (ext.base64.decode rest).elim (.error .external) .ok
  | .base64url, rest => (ext.base64url.decode rest).elim (.error .external) .ok
  | .base256Emoji, rest => (base256emojiDecode rest).mapError .emoji
  | .base8, _ => .error .unsupportedEncoding
  | .base10, _ => .error .unsupportedEncoding

def decode (data : Bytes) : Except Err (Encoding × Bytes) :=
  if data.length = 0 then .error .zeroLength
  else
    match Encoding.ofRune (decodeRune data).1 with
    | none => .error .unsupportedEncoding
    | some enc =>
      match decodeBody ext enc (data.drop (if enc = .base256Emoji then 4 else 1)) with
      | .error err => .error err
      | .ok bytes => .ok (enc, bytes)

/-! ## The round trip -/

/-- `Encode` succeeds and `Decode` returns the encoding and the data. -/
def RoundTrips (b : Encoding) (d : Bytes) : Prop :=
  ∃ s, encode ext b d = .ok s ∧ decode ext s = .ok (b, d)

variable {ext} {b : Encoding} {d body : Bytes}

theorem decodeRune_rune :
    decodeRune (encodeRune b.rune) = (b.rune, (encodeRune b.rune).length) ∧
      b.rune ≠ runeError ∧
      (encodeRune b.rune).length = if b = .base256Emoji then 4 else 1 := by
  cases b <;> decide +kernel

/-- The character in front is the one of the encoding, and the rest is the body. -/
theorem decode_append :
    decode ext (encodeRune b.rune ++ body) =
      match decodeBody ext b body with
      | .error err => .error err
      | .ok bytes => .ok (b, bytes) := by
  obtain ⟨hread, hgood, hlen⟩ := decodeRune_rune
  have happend := decodeRune_append (by rw [hread]; exact hgood) body
  have hne : ¬ (encodeRune b.rune ++ body).length = 0 := by
    rw [length_append, hlen]
    split <;> omega
  unfold decode
  rw [if_neg hne, happend, hread]
  rw [Encoding.ofRune_rune]
  dsimp only
  rw [← hlen, drop_left]

/-- The round trip is the round trip of the body. -/
theorem roundTrips_iff (hbody : encodeBody ext b d = .ok body) :
    RoundTrips ext b d ↔ decodeBody ext b body = .ok d := by
  have hencode : encode ext b d = .ok (encodeRune b.rune ++ body) := by
    rw [encode, hbody]
  constructor
  · rintro ⟨s, hs, hdecode⟩
    rw [hencode] at hs
    cases hs
    rw [decode_append] at hdecode
    cases hres : decodeBody ext b body with
    | error err =>
      rw [hres] at hdecode
      cases hdecode
    | ok bytes =>
      rw [hres] at hdecode
      cases hdecode
      rfl
  · intro hres
    refine ⟨_, hencode, ?_⟩
    rw [decode_append, hres]

theorem roundTrips_base32 {enc dec : Base32.Encoding} (h : Base32.Encoding.Agrees enc dec)
    (henc : encodeBody ext b d = .ok (enc.encode d))
    (hdec : ∀ s, decodeBody ext b s = (dec.decodeString s).mapError .base32) :
    RoundTrips ext b d := by
  rw [roundTrips_iff henc, hdec, decodeString_encode h d]
  rfl

theorem roundTrips_base36 (al : Bytes) (hal : Base36.Reads al)
    (henc : ∀ d, encodeBody ext b d = (Base36.encode d al).elim (.error .panic) .ok)
    (hdec : ∀ s, decodeBody ext b s = (Base36.decodeString s).mapError .base36) :
    RoundTrips ext b d ↔ d ≠ [] := by
  by_cases hnil : d = []
  · subst hnil
    obtain ⟨hencode, hdecode⟩ := Base36.decodeString_nil al
    have hbody : encodeBody ext b [] = .ok [] := by rw [henc]; rfl
    rw [roundTrips_iff hbody, hdec, hdecode]
    simp [Except.mapError]
  · obtain ⟨s, hencode, hdecode⟩ := Base36.decodeString_encode hal hnil
    have hbody : encodeBody ext b d = .ok s := by rw [henc, hencode]; rfl
    rw [roundTrips_iff hbody, hdec, hdecode]
    simp [Except.mapError, hnil]

theorem roundTrips_codec {c : Codec} (h : ext.codec? b = some c) :
    RoundTrips ext b d ↔ (d = [] → c.decode (c.encode []) = some []) := by
  have hbody : encodeBody ext b d = .ok (c.encode d) ∧
      ∀ s, decodeBody ext b s = (c.decode s).elim (.error .external) .ok := by
    cases b <;> cases h <;> exact ⟨rfl, fun _ => rfl⟩
  have hreads : c.decode (c.encode d) = some d ↔ (d = [] → c.decode (c.encode []) = some []) := by
    by_cases hnil : d = []
    · subst hnil
      exact ⟨fun h _ => h, fun h => h rfl⟩
    · exact iff_of_true (c.decode_encode d hnil) fun h => absurd h hnil
  rw [roundTrips_iff hbody.1, hbody.2, ← hreads]
  cases c.decode (c.encode d) <;> simp

/-- Every supported encoding of this package but base36 reads what it writes. -/
theorem roundTrips_of_ne (hb : b.supported = true) (h36 : b ≠ .base36) (hupper : b ≠ .base36Upper)
    (hcodec : ext.codec? b = none) : RoundTrips ext b d := by
  cases b with
  | base8 | base10 => cases hb
  | identity => exact (roundTrips_iff rfl).mpr rfl
  | base2 =>
    refine (roundTrips_iff rfl).mpr ?_
    rw [decodeBody, decodeBinaryString_encode]
    rfl
  | base16 =>
    refine (roundTrips_iff rfl).mpr ?_
    rw [decodeBody, hexDecode_encode hexTable_lower]
    rfl
  | base16Upper =>
    refine (roundTrips_iff rfl).mpr ?_
    rw [decodeBody, hexDecode_encode hexTable_upper]
    rfl
  | base32 => exact roundTrips_base32 (agrees reads_lowerStd (.inr rfl)) rfl fun _ => rfl
  | base32Upper => exact roundTrips_base32 (agrees reads_upperStd (.inr rfl)) rfl fun _ => rfl
  | base32hex => exact roundTrips_base32 (agrees reads_lowerHex (.inr rfl)) rfl fun _ => rfl
  | base32hexUpper => exact roundTrips_base32 (agrees reads_upperHex (.inr rfl)) rfl fun _ => rfl
  | base32pad => exact roundTrips_base32 (agrees reads_lowerStd (.inl rfl)) rfl fun _ => rfl
  | base32padUpper => exact roundTrips_base32 (agrees reads_upperStd (.inl rfl)) rfl fun _ => rfl
  | base32hexPad => exact roundTrips_base32 (agrees reads_lowerHex (.inl rfl)) rfl fun _ => rfl
  | base32hexPadUpper => exact roundTrips_base32 (agrees reads_upperHex (.inl rfl)) rfl fun _ => rfl
  | base36 => exact absurd rfl h36
  | base36Upper => exact absurd rfl hupper
  | base58BTC | base58Flickr | base64 | base64url | base64pad | base64urlPad => cases hcodec
  | base256Emoji =>
    refine (roundTrips_iff rfl).mpr ?_
    rw [decodeBody, base256emojiDecode, base256emojiLoop_encode]
    rfl

theorem roundTrips_supported (hb : b.supported = true) :
    RoundTrips ext b d ↔ (d = [] → (b ≠ .base36 ∧ b ≠ .base36Upper) ∧
      ∀ c, ext.codec? b = some c → c.decode (c.encode []) = some []) := by
  by_cases h36 : b = .base36
  · subst h36
    rw [roundTrips_base36 Base36.lcAlphabet Base36.reads_lc (fun _ => rfl) (fun _ => rfl)]
    simp
  by_cases hupper : b = .base36Upper
  · subst hupper
    rw [roundTrips_base36 Base36.ucAlphabet Base36.reads_uc (fun _ => rfl) (fun _ => rfl)]
    simp
  cases hcodec : ext.codec? b with
  | none => exact iff_of_true (roundTrips_of_ne hb h36 hupper hcodec) fun _ => ⟨⟨h36, hupper⟩, nofun⟩
  | some c =>
    rw [roundTrips_codec hcodec]
    exact ⟨fun h hd => ⟨⟨h36, hupper⟩, fun c' hc' => Option.some.inj hc' ▸ h hd⟩,
      fun h hd => (h hd).2 c rfl⟩

/-- Every supported encoding makes the round trip with all data that is not empty, and with none
unless it is base36 or its codec from outside does not read its own text of none. -/
theorem multibase_round_trip_iff (ext : External) (b : Encoding) (hb : b.supported = true)
    (d : Bytes) : RoundTrips ext b d ↔ (d = [] → (b ≠ .base36 ∧ b ≠ .base36Upper) ∧
      ∀ c, ext.codec? b = some c → c.decode (c.encode []) = some []) :=
  roundTrips_supported hb

/-- Codecs that keep the data as it is and refuse an empty text. -/
def plain : External :=
  let c : Codec := ⟨fun d => d, fun s => if s = [] then none else some s, fun _ hd => if_neg hd⟩
  ⟨c, c, c, c, c, c⟩

theorem multibase_round_trip_base58 :
    RoundTrips plain .base58BTC [0, 1, 255] ∧ ¬ RoundTrips plain .base58BTC [] := by
  refine ⟨(multibase_round_trip_iff plain .base58BTC rfl [0, 1, 255]).mpr nofun, fun h => ?_⟩
  have hempty := ((multibase_round_trip_iff plain .base58BTC rfl []).mp h rfl).2 _ rfl
  cases hempty

/-- No data in base36 is the text `k`, which `Decode` refuses. -/
theorem base36_empty_refused :
    encode plain .base36 [] = .ok [107] ∧
      decode plain [107] = .error (.base36 .zeroLength) := by
  decide +kernel

end Dep2p.Multibase
