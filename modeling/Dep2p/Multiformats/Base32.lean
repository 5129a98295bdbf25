import Mathlib.Data.List.Basic

/- Base32 (`base32.go`).

   Five bytes are eight groups of five bits, and a group is a character of the alphabet. A
   last quantum of less than five bytes has two, four, five or seven characters, filled up
   with the padding character where there is one. `NoPadding` is the rune -1, whose byte is
   0xFF. The decoder works in the buffer of its input; it writes behind what it has read, so
   here it returns a list of its own.

   Correspondence (Go ↔ Lean):
     `NewEncodingCI`, `WithPadding`                ↔ `newEncodingCI`, `withPadding`
     `Encode`, `EncodeToString`, `EncodedLen`      ↔ `encode`, `encodedLen`
     the inner loop of `decode`, its last switch   ↔ `readQuantum`, `pack`
     `decode`, `DecodeString`                      ↔ `decodeLoop`, `decodeString`

   What is proved:
     `decodeString_encode` — an encoding is read back by every encoding that has the same
     padding and maps each character to its place in the alphabet. -/
namespace Dep2p.Base32

open List

structure Encoding where
  alphabet : List UInt8
  decodeMap : UInt8 → UInt8
  /-- The padding character; none is `NoPadding`. -/
  padChar : Option UInt8

variable (c s0 : UInt8) (src : List UInt8) (s1 s2 s3 : UInt8) {rest : List UInt8} {x y : UInt8}

def asciiToLower : UInt8 := if 65 ≤ c ∧ c ≤ 90 then c + 32 else c

def asciiToUpper : UInt8 := if 97 ≤ c ∧ c ≤ 122 then c - 32 else c

theorem forall_byte {P : UInt8 → Prop} (h : ∀ n, n < 256 → P (.ofNat n)) (c : UInt8) : P c := by
  have hc := h c.toNat c.toNat_lt
  rwa [UInt8.ofNat_toNat] at hc

/-- The table that the loop over the alphabet leaves, from the character with number `i`. -/
def decodeTable : List UInt8 → UInt8 → (UInt8 → UInt8) → UInt8 → UInt8
  | [], _, table => table
  | a :: encoder, i, table =>
    decodeTable encoder (i + 1) fun c =>
      if c = asciiToUpper a then i else if c = asciiToLower a then i else table c

def newEncodingCI (encoder : List UInt8) : Encoding :=
  { alphabet := encoder, decodeMap := decodeTable encoder 0 fun _ => 0xFF, padChar := some 61 }

namespace Encoding

variable (enc : Encoding)

def withPadding (padding : Option UInt8) : Encoding := { enc with padChar := padding }

/-- `byte(enc.padChar)` -/
def padByte : UInt8 := enc.padChar.getD 0xFF

def char (v : UInt8) : UInt8 := enc.alphabet.getD v.toNat 0

/-! ## Encoding -/

/-- The groups of a whole quantum. -/
def quantum (s4 : UInt8) : List UInt8 :=
  [s0 >>> 3, (s1 >>> 6 ||| s0 <<< 2) &&& 0x1F, (s1 >>> 1) &&& 0x1F,
    (s2 >>> 4 ||| s1 <<< 4) &&& 0x1F, s3 >>> 7 ||| (s2 <<< 1) &&& 0x1F, (s3 >>> 2) &&& 0x1F,
    s4 >>> 5 ||| (s3 <<< 3) &&& 0x1F, s4 &&& 0x1F]

/-- The cases of the switch on the length of the rest; each falls through to the one before,
with a carry. -/
def case1 (carry s0 : UInt8) : List UInt8 := [s0 >>> 3, carry ||| (s0 <<< 2) &&& 0x1F]

def case2 (carry s0 s1 : UInt8) : List UInt8 :=
  case1 ((s1 >>> 6) &&& 0x1F) s0 ++ [(s1 >>> 1) &&& 0x1F, carry ||| (s1 <<< 4) &&& 0x1F]

def case3 (carry s0 s1 s2 : UInt8) : List UInt8 :=
  case2 ((s2 >>> 4) &&& 0x1F) s0 s1 ++ [carry ||| (s2 <<< 1) &&& 0x1F]

def case4 : List UInt8 :=
  case3 (s3 >>> 7) s0 s1 s2 ++ [(s3 >>> 2) &&& 0x1F, (s3 <<< 3) &&& 0x1F]

/-- The padding of a quantum with `n` characters. -/
def padding (n : Nat) : List UInt8 :=
  match enc.padChar with
  | none => []
  | some c => replicate (8 - n) c

def encode : List UInt8 → List UInt8
  | [] => []
  | [s0] => (case1 0 s0).map enc.char ++ enc.padding 2
  | [s0, s1] => (case2 0 s0 s1).map enc.char ++ enc.padding 4
  | [s0, s1, s2] => (case3 0 s0 s1 s2).map enc.char ++ enc.padding 5
  | [s0, s1, s2, s3] => (case4 s0 s1 s2 s3).map enc.char ++ enc.padding 7
  | s0 :: s1 :: s2 :: s3 :: s4 :: src => (quantum s0 s1 s2 s3 s4).map enc.char ++ encode src

def encodedLen (n : Nat) : Nat :=
  match enc.padChar with
  | none => (n * 8 + 4) / 5
  | some _ => (n + 4) / 5 * 8

/-- The buffer of `EncodeToString` is filled to its end. -/
theorem length_encode : (enc.encode src).length = enc.encodedLen src.length := by
  fun_induction encode enc src with
  | case1 => cases hpad : enc.padChar <;> simp [encodedLen, hpad]
  | case2 => cases hpad : enc.padChar <;> simp [encodedLen, padding, case1, hpad]
  | case3 => cases hpad : enc.padChar <;> simp [encodedLen, padding, case1, case2, hpad]
  | case4 => cases hpad : enc.padChar <;> simp [encodedLen, padding, case1, case2, case3, hpad]
  | case5 =>
    cases hpad : enc.padChar <;> simp [encodedLen, padding, case1, case2, case3, case4, hpad]
  | case6 s0 s1 s2 s3 s4 src ih =>
    rw [length_append, ih]
    cases hpad : enc.padChar <;> simp only [encodedLen, quantum, hpad, length_map,
      length_cons, length_nil] <;> omega

/-! ## Decoding -/

/-- `CorruptInputError`, with the place in the input. -/
structure CorruptInput where
  offset : Int
  deriving DecidableEq, Repr

/-- The first of the next `n` characters that is not padding, counted from `k`. -/
def wrongPadding (pad : UInt8) : Nat → Nat → List UInt8 → Option Nat
  | 0, _, _ => none
  | _, _, [] => none
  | n + 1, k, c :: src => if c ≠ pad then some k else wrongPadding pad n (k + 1) src

/-- Read the characters of a quantum, of which `dbuf` are there: the groups, whether the
padding was reached, and the rest. -/
def readQuantum (olen : Int) (dbuf : List UInt8) :
    List UInt8 → Except CorruptInput (List UInt8 × Bool × List UInt8)
  | [] =>
    if 8 ≤ dbuf.length then .ok (dbuf, false, [])
    else if enc.padChar.isSome then .error ⟨olen - dbuf.length⟩
    else .ok (dbuf, false, [])
  | c :: src =>
    if 8 ≤ dbuf.length then .ok (dbuf, false, c :: src)
    else if c = enc.padByte ∧ 2 ≤ dbuf.length ∧ src.length < 8 then
      if enc.padChar = none then .error ⟨olen⟩
      else if src.length + dbuf.length < 7 then .error ⟨olen⟩
      else match wrongPadding enc.padByte (7 - dbuf.length) 0 src with
        | some k => .error ⟨olen - src.length + k - 1⟩
        | none =>
          if dbuf.length = 1 ∨ dbuf.length = 3 ∨ dbuf.length = 6 then
            .error ⟨olen - src.length - 1⟩
          else .ok (dbuf, true, src)
    else if enc.decodeMap c = 0xFF then .error ⟨olen - src.length - 1⟩
    else readQuantum olen (dbuf ++ [enc.decodeMap c]) src

/-- The bytes of the groups of a quantum; one, three or six groups give none. -/
def pack : List UInt8 → List UInt8
  | [d0, d1] => [d0 <<< 3 ||| d1 >>> 2]
  | [d0, d1, d2, d3] => [d0 <<< 3 ||| d1 >>> 2, d1 <<< 6 ||| d2 <<< 1 ||| d3 >>> 4]
  | [d0, d1, d2, d3, d4] =>
    [d0 <<< 3 ||| d1 >>> 2, d1 <<< 6 ||| d2 <<< 1 ||| d3 >>> 4, d3 <<< 4 ||| d4 >>> 1]
  | [d0, d1, d2, d3, d4, d5, d6] =>
    [d0 <<< 3 ||| d1 >>> 2, d1 <<< 6 ||| d2 <<< 1 ||| d3 >>> 4, d3 <<< 4 ||| d4 >>> 1,
      d4 <<< 7 ||| d5 <<< 2 ||| d6 >>> 3]
  | [d0, d1, d2, d3, d4, d5, d6, d7] =>
    [d0 <<< 3 ||| d1 >>> 2, d1 <<< 6 ||| d2 <<< 1 ||| d3 >>> 4, d3 <<< 4 ||| d4 >>> 1,
      d4 <<< 7 ||| d5 <<< 2 ||| d6 >>> 3, d6 <<< 5 ||| d7]
  | _ => []

variable {dbuf : List UInt8}

/-- A quantum takes its groups from the front until it is full or, without padding, until the
end; where it ends in padding there are characters for a whole one. -/
theorem readQuantum_spec {olen : Int} {src dbuf' : List UInt8} {fin : Bool}
    (h : enc.readQuantum olen dbuf src = .ok (dbuf', fin, rest)) (hle : dbuf.length ≤ 8) :
    (fin = false → rest = src.drop (dbuf'.length - dbuf.length) ∧
      dbuf'.length + rest.length = dbuf.length + src.length ∧
      (dbuf'.length = 8 ∨ dbuf'.length < 8 ∧ rest = [] ∧ enc.padChar = none)) ∧
    (fin = true → dbuf'.length < 8 ∧ 8 ≤ dbuf.length + src.length ∧ enc.padChar ≠ none) := by
  induction src generalizing dbuf with
  | nil =>
    unfold readQuantum at h
    split at h
    · cases h
      exact ⟨fun _ => ⟨drop_nil.symm, rfl, .inl (by omega)⟩, fun hf => by cases hf⟩
    · split at h
      · cases h
      rename_i hpad
      cases h
      refine ⟨fun _ => ⟨drop_nil.symm, rfl, .inr ⟨by omega, rfl, ?_⟩⟩, fun hf => by cases hf⟩
      simpa using hpad
  | cons c src ih =>
    unfold readQuantum at h
    split at h
    · cases h
      refine ⟨fun _ => ⟨?_, rfl, .inl (by omega)⟩, fun hf => by cases hf⟩
      rw [Nat.sub_self, drop_zero]
    · split at h
      · -- the padding is read up to its first character
        split at h
        · cases h
        split at h
        · cases h
        split at h
        · cases h
        split at h
        · cases h
        cases h
        refine ⟨fun hf => (by cases hf), fun _ => ⟨by omega, ?_, by assumption⟩⟩
        rw [length_cons]
        omega
      · split at h
        · cases h
        obtain ⟨hmore, hend⟩ := ih h (by rw [length_append, length_singleton]; omega)
        rw [length_append, length_singleton] at hmore hend
        rw [length_cons]
        refine ⟨fun hf => ?_, fun hf => ?_⟩
        · obtain ⟨hrest, hsum, hfull⟩ := hmore hf
          have hlen : dbuf'.length - dbuf.length = dbuf'.length - (dbuf.length + 1) + 1 := by
            have hdrop := congrArg length hrest
            rw [length_drop] at hdrop
            omega
          exact ⟨by rw [hlen]; exact hrest, by omega, hfull⟩
        · obtain ⟨hshort, hwhole, hpad⟩ := hend hf
          exact ⟨hshort, by omega, hpad⟩

/-- The loop over the quanta. -/
def decodeLoop (olen : Int) : List UInt8 → Except CorruptInput (List UInt8)
  | [] => .ok []
  | c :: src =>
    match h : enc.readQuantum olen [] (c :: src) with
    | .error err => .error err
    | .ok (dbuf, true, _) => .ok (pack dbuf)
    | .ok (dbuf, false, rest) =>
      have : rest.length < (c :: src).length := by
        obtain ⟨-, hsum, hfull⟩ := (enc.readQuantum_spec h (by decide)).1 rfl
        rw [length_nil, Nat.zero_add, length_cons] at hsum
        rw [length_cons]
        rcases hfull with hfull | ⟨-, hnil, -⟩
        · omega
        · rw [hnil, length_nil]
          omega
      match decodeLoop olen rest with
      | .error err => .error err
      | .ok bytes => .ok (pack dbuf ++ bytes)
termination_by src => src.length
decreasing_by exact this

/-- New lines in the input are ignored. -/
def decodeString (s : List UInt8) : Except CorruptInput (List UInt8) :=
  let strb := s.filter fun b => b ≠ 10 ∧ b ≠ 13
  enc.decodeLoop strb.length strb

/-! ## The bits -/

/-- Bytes with the same eight bits are equal. -/
theorem eq_of_bits (h : ∀ i, (hi : i < 8) → x.toBitVec[i] = y.toBitVec[i]) : x = y :=
  UInt8.toBitVec_inj.mp (BitVec.eq_of_getElem_eq h)

theorem bit_cases {i : Nat} (hi : i < 8) :
    i = 0 ∨ i = 1 ∨ i = 2 ∨ i = 3 ∨ i = 4 ∨ i = 5 ∨ i = 6 ∨ i = 7 := by
  omega

/-- The groups of a quantum hold its bytes. -/
theorem pack_quantum (s4 : UInt8) : pack (quantum s0 s1 s2 s3 s4) = [s0, s1, s2, s3, s4] := by
  simp only [quantum, pack, cons.injEq, and_true]
  refine ⟨?_, ?_, ?_, ?_, ?_⟩ <;>
  · apply eq_of_bits
    intro i hi
    rcases bit_cases hi with rfl | rfl | rfl | rfl | rfl | rfl | rfl | rfl <;> simp

theorem pack_case4 : pack (case4 s0 s1 s2 s3) = [s0, s1, s2, s3] := by
  simp only [case4, case3, case2, case1, cons_append, nil_append, pack,
    cons.injEq, and_true]
  refine ⟨?_, ?_, ?_, ?_⟩ <;>
  · apply eq_of_bits
    intro i hi
    rcases bit_cases hi with rfl | rfl | rfl | rfl | rfl | rfl | rfl | rfl <;> simp

/-- A shorter quantum has the groups of one with a zero at its end. -/
theorem pack_case3 : pack (case3 0 s0 s1 s2) = [s0, s1, s2] := by
  have hfull := pack_case4 s0 s1 s2 0
  simp [case4, case3, case2, case1, pack] at hfull ⊢
  exact ⟨hfull.1, hfull.2.1, hfull.2.2.1⟩

theorem pack_case2 : pack (case2 0 s0 s1) = [s0, s1] := by
  have hfull := pack_case3 s0 s1 0
  simp [case3, case2, case1, pack] at hfull ⊢
  exact ⟨hfull.1, hfull.2.1⟩

theorem pack_case1 : pack (case1 0 s0) = [s0] := by
  have hfull := pack_case2 s0 0
  simp [case2, case1, pack] at hfull ⊢
  exact hfull.1

/-- A group has five bits. -/
def Group (v : UInt8) : Prop := v.toNat < 32

theorem group_and : Group (x &&& 0x1F) := by
  exact Nat.lt_of_le_of_lt Nat.and_le_right (by decide)

theorem Group.or (hx : Group x) (hy : Group y) : Group (x ||| y) := by
  exact Nat.or_lt_two_pow (n := 5) hx hy

/-- What is left of a byte after a shift by three bits or more. -/
theorem group_shiftRight {k : UInt8} (hk : k = 3 ∨ k = 5 ∨ k = 7) :
    Group (x >>> k) := by
  have hx := x.toNat_lt
  unfold Group
  rw [UInt8.toNat_shiftRight, Nat.shiftRight_eq_div_pow]
  rcases hk with rfl | rfl | rfl
  · show x.toNat / 8 < 32
    omega
  · show x.toNat / 32 < 32
    omega
  · show x.toNat / 128 < 32
    omega

theorem group_zero : Group 0 := by
  unfold Group
  decide

theorem groups_quantum (s4 : UInt8) : ∀ v ∈ quantum s0 s1 s2 s3 s4, Group v := by
  simp only [quantum, forall_mem_cons, not_mem_nil, false_implies, implies_true, and_true]
  exact ⟨group_shiftRight (by decide), group_and, group_and, group_and,
    (group_shiftRight (by decide)).or group_and, group_and,
    (group_shiftRight (by decide)).or group_and, group_and⟩

variable {carry : UInt8}

theorem groups_case1 (hc : Group carry) (s0 : UInt8) : ∀ v ∈ case1 carry s0, Group v := by
  simp only [case1, forall_mem_cons, not_mem_nil, false_implies, implies_true, and_true]
  exact ⟨group_shiftRight (by decide), hc.or group_and⟩

theorem groups_case2 (hc : Group carry) (s0 s1 : UInt8) : ∀ v ∈ case2 carry s0 s1, Group v := by
  unfold case2
  rw [forall_mem_append]
  refine ⟨groups_case1 group_and s0, ?_⟩
  simp only [forall_mem_cons, not_mem_nil, false_implies, implies_true, and_true]
  exact ⟨group_and, hc.or group_and⟩

theorem groups_case3 (hc : Group carry) (s0 s1 s2 : UInt8) :
    ∀ v ∈ case3 carry s0 s1 s2, Group v := by
  unfold case3
  rw [forall_mem_append]
  refine ⟨groups_case2 group_and s0 s1, ?_⟩
  simp only [forall_mem_cons, not_mem_nil, false_implies, implies_true, and_true]
  exact hc.or group_and

theorem groups_case4 : ∀ v ∈ case4 s0 s1 s2 s3, Group v := by
  unfold case4
  rw [forall_mem_append]
  refine ⟨groups_case3 (group_shiftRight (by decide)) s0 s1 s2, ?_⟩
  simp only [forall_mem_cons, not_mem_nil, false_implies, implies_true, and_true]
  exact ⟨group_and, group_and⟩

/-! ## Reading back -/

/-- `dec` reads what `enc` writes: it has the same padding, and every character of the
alphabet stands for its place and is neither the padding nor a new line. -/
structure Agrees (enc dec : Encoding) : Prop where
  pad : dec.padChar = enc.padChar
  padLine : enc.padByte ≠ 10 ∧ enc.padByte ≠ 13
  char : ∀ n, n < 32 → dec.decodeMap (enc.char (UInt8.ofNat n)) = UInt8.ofNat n ∧
    enc.char (UInt8.ofNat n) ≠ dec.padByte ∧
    enc.char (UInt8.ofNat n) ≠ 10 ∧ enc.char (UInt8.ofNat n) ≠ 13

variable {enc} {dec : Encoding} (olen : Int) {v : UInt8}

theorem Agrees.group (h : Agrees enc dec) (hv : Group v) :
    dec.decodeMap (enc.char v) = v ∧ enc.char v ≠ dec.padByte ∧ enc.char v ≠ 10 ∧
      enc.char v ≠ 13 := by
  have hv' := h.char v.toNat hv
  rwa [UInt8.ofNat_toNat] at hv'

theorem Group.ne_invalid (hv : Group v) : v ≠ 0xFF := by
  rintro rfl
  unfold Group at hv
  exact absurd hv (by decide)

/-- Characters of the alphabet are collected until a quantum is full. -/
theorem readQuantum_groups (h : Agrees enc dec) (vs dbuf rest : List UInt8)
    (hvs : ∀ v ∈ vs, Group v) (hlen : dbuf.length + vs.length ≤ 8) :
    dec.readQuantum olen dbuf (vs.map enc.char ++ rest) =
      dec.readQuantum olen (dbuf ++ vs) rest := by
  induction vs generalizing dbuf with
  | nil => simp
  | cons v vs ih =>
    have hv := hvs v mem_cons_self
    obtain ⟨hback, hpad, -, -⟩ := h.group hv
    rw [length_cons] at hlen
    rw [map_cons, cons_append, readQuantum, if_neg (by omega),
      if_neg (fun hc => hpad hc.1), hback, if_neg hv.ne_invalid,
      ih (dbuf ++ [v]) (fun v' hv' => hvs v' (mem_cons_of_mem _ hv'))
        (by rw [length_append, length_singleton]; omega),
      append_assoc, singleton_append]

theorem readQuantum_full (hlen : dbuf.length = 8) :
    dec.readQuantum olen dbuf rest = .ok (dbuf, false, rest) := by
  cases rest with
  | nil | cons c rest => rw [readQuantum, if_pos (by omega)]

theorem wrongPadding_replicate (pad : UInt8) (n k m : Nat) :
    wrongPadding pad n k (replicate m pad) = none := by
  induction n generalizing k m with
  | zero => rfl
  | succ n ih =>
    cases m with
    | zero => rfl
    | succ m =>
      rw [replicate_succ, wrongPadding, if_neg (by simp)]
      exact ih (k + 1) m

/-- The end of the input, with or without padding. -/
theorem readQuantum_padding (h : Agrees enc dec)
    (hlen : dbuf.length = 2 ∨ dbuf.length = 4 ∨ dbuf.length = 5 ∨ dbuf.length = 7) :
    ∃ fin rest, dec.readQuantum olen dbuf (enc.padding dbuf.length) = .ok (dbuf, fin, rest) ∧
      (fin = false → rest = []) := by
  unfold padding
  cases hpad : enc.padChar with
  | none =>
    have hdec : dec.padChar.isSome = false := by rw [h.pad, hpad]; rfl
    refine ⟨false, [], ?_, fun _ => rfl⟩
    rw [readQuantum, if_neg (by omega), hdec]
    rfl
  | some c =>
    have hsome : dec.padChar = some c := h.pad.trans hpad
    have hbyte : dec.padByte = c := by simp [padByte, hsome]
    have hrep : replicate (8 - dbuf.length) c =
        c :: replicate (7 - dbuf.length) c := by
      rw [← replicate_succ]
      congr 1
      omega
    refine ⟨true, replicate (7 - dbuf.length) c, ?_, fun hf => by cases hf⟩
    dsimp only
    rw [hrep, readQuantum, if_neg (by omega),
      if_pos ⟨hbyte.symm, by omega, by rw [length_replicate]; omega⟩,
      if_neg (by rw [hsome]; exact Option.some_ne_none c),
      if_neg (by rw [length_replicate]; omega), hbyte, wrongPadding_replicate]
    rw [if_neg (by omega)]

/-- One turn of the loop. -/
theorem decodeLoop_cons :
    dec.decodeLoop olen (c :: src) =
      match dec.readQuantum olen [] (c :: src) with
      | .error err => .error err
      | .ok (dbuf, true, _) => .ok (pack dbuf)
      | .ok (dbuf, false, rest) =>
        match dec.decodeLoop olen rest with
        | .error err => .error err
        | .ok bytes => .ok (pack dbuf ++ bytes) := by
  rw [decodeLoop]
  split <;> rename_i hread <;> simp only [hread]

theorem decodeLoop_more {src bytes : List UInt8} (hsrc : src ≠ [])
    (hread : dec.readQuantum olen [] src = .ok (dbuf, false, rest))
    (hrest : dec.decodeLoop olen rest = .ok bytes) :
    dec.decodeLoop olen src = .ok (pack dbuf ++ bytes) := by
  obtain ⟨c, src, rfl⟩ := exists_cons_of_ne_nil hsrc
  rw [decodeLoop_cons, hread]
  dsimp only
  rw [hrest]

theorem decodeLoop_end {src : List UInt8} (hsrc : src ≠ [])
    (hread : dec.readQuantum olen [] src = .ok (dbuf, true, rest)) :
    dec.decodeLoop olen src = .ok (pack dbuf) := by
  obtain ⟨c, src, rfl⟩ := exists_cons_of_ne_nil hsrc
  rw [decodeLoop_cons, hread]

section

variable (h : Agrees enc dec)
include h

/-- The last quantum. -/
theorem decodeLoop_last {vs : List UInt8} (hvs : ∀ v ∈ vs, Group v)
    (hlen : vs.length = 2 ∨ vs.length = 4 ∨ vs.length = 5 ∨ vs.length = 7) :
    dec.decodeLoop olen (vs.map enc.char ++ enc.padding vs.length) = .ok (pack vs) := by
  have hread := readQuantum_groups olen h vs [] (enc.padding vs.length) hvs
    (by rw [length_nil]; omega)
  obtain ⟨fin, rest, hquantum, hrest⟩ := readQuantum_padding olen h hlen
  rw [nil_append, hquantum] at hread
  have hsrc : vs.map enc.char ++ enc.padding vs.length ≠ [] := by
    intro hnil
    have hmap := congrArg length (append_eq_nil_iff.mp hnil).1
    rw [length_map, length_nil] at hmap
    omega
  cases fin with
  | true => exact decodeLoop_end olen hsrc hread
  | false =>
    have hdone : dec.decodeLoop olen rest = .ok [] := by rw [hrest rfl, decodeLoop]
    have hloop := decodeLoop_more olen hsrc hread hdone
    rwa [append_nil] at hloop

theorem decodeLoop_encode (src : List UInt8) : dec.decodeLoop olen (enc.encode src) = .ok src := by
  fun_induction encode enc src with
  | case1 => rw [decodeLoop]
  | case2 s0 =>
    rw [← pack_case1 s0]
    exact decodeLoop_last olen h (groups_case1 group_zero s0) (by simp [case1])
  | case3 s0 s1 =>
    rw [← pack_case2 s0 s1]
    exact decodeLoop_last olen h (groups_case2 group_zero s0 s1) (by simp [case1, case2])
  | case4 s0 s1 s2 =>
    rw [← pack_case3 s0 s1 s2]
    exact decodeLoop_last olen h (groups_case3 group_zero s0 s1 s2) (by simp [case1, case2, case3])
  | case5 s0 s1 s2 s3 =>
    rw [← pack_case4 s0 s1 s2 s3]
    exact decodeLoop_last olen h (groups_case4 s0 s1 s2 s3) (by simp [case1, case2, case3, case4])
  | case6 s0 s1 s2 s3 s4 src ih =>
    have height : (quantum s0 s1 s2 s3 s4).length = 8 := rfl
    have hread := readQuantum_groups olen h (quantum s0 s1 s2 s3 s4) [] (enc.encode src)
      (groups_quantum s0 s1 s2 s3 s4) (Nat.le_refl 8)
    rw [nil_append, readQuantum_full olen height] at hread
    have hloop := decodeLoop_more olen (cons_ne_nil _ _) hread ih
    rwa [pack_quantum] at hloop

/-- No new line is written. -/
theorem Agrees.lines (src : List UInt8) : ∀ c ∈ enc.encode src, c ≠ 10 ∧ c ≠ 13 := by
  have hchars : ∀ vs : List UInt8, (∀ v ∈ vs, Group v) →
      ∀ c ∈ vs.map enc.char, c ≠ 10 ∧ c ≠ 13 := by
    intro vs hvs c hc
    obtain ⟨v, hv, rfl⟩ := mem_map.mp hc
    exact (h.group (hvs v hv)).2.2
  have hpads : ∀ n, ∀ c ∈ enc.padding n, c ≠ 10 ∧ c ≠ 13 := by
    intro n c hc
    have hline := h.padLine
    unfold padding at hc
    unfold padByte at hline
    split at hc
    · cases hc
    rename_i hpad
    rw [hpad] at hline
    rw [eq_of_mem_replicate hc]
    exact hline
  fun_induction encode enc src with
  | case1 => exact fun c hc => by cases hc
  | case2 s0 => exact forall_mem_append.mpr ⟨hchars _ (groups_case1 group_zero s0), hpads 2⟩
  | case3 s0 s1 =>
    exact forall_mem_append.mpr ⟨hchars _ (groups_case2 group_zero s0 s1), hpads 4⟩
  | case4 s0 s1 s2 =>
    exact forall_mem_append.mpr ⟨hchars _ (groups_case3 group_zero s0 s1 s2), hpads 5⟩
  | case5 s0 s1 s2 s3 =>
    exact forall_mem_append.mpr ⟨hchars _ (groups_case4 s0 s1 s2 s3), hpads 7⟩
  | case6 s0 s1 s2 s3 s4 src ih =>
    exact forall_mem_append.mpr ⟨hchars _ (groups_quantum s0 s1 s2 s3 s4), ih⟩

theorem decodeString_encode (src : List UInt8) : dec.decodeString (enc.encode src) = .ok src := by
  have hstrip : (enc.encode src).filter (fun b => b ≠ 10 ∧ b ≠ 13) = enc.encode src := by
    rw [filter_eq_self]
    intro c hc
    simpa using h.lines src c hc
  unfold decodeString
  rw [hstrip]
  exact decodeLoop_encode _ h src

end

end Encoding

end Dep2p.Base32
