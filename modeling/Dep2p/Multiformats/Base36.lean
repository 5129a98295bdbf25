import Dep2p.Lib.Positional
import Dep2p.Multiformats.Base32

/- Base36 (`base36.go`).

   The bytes of the input are one number, whose digits in base 36 are the output; leading
   zero bytes are leading zero digits. The encoder computes the digits in a buffer from its
   end, the decoder computes 32-bit words from their end: both are lists here that start
   with the least significant place. The encoder's buffer is sized with 277/179 in place of
   log 256 / log 36; an index below zero would be a panic, and is `none`.

   The decoder goes over the runes of its input. A rune that is not ASCII is above
   `maxDigitOrdinal`, and so is every byte of it, so that here it goes over the bytes.

   Correspondence (Go ↔ Lean):
     the inner and the outer loop of `encode`      ↔ `carryLoop`, `addBytes`
     `encode`                                      ↔ `encode`
     the inner and the outer loop of `DecodeString` ↔ `mulAdd`, `digitsLoop`
     the loop that stores the bytes of the words   ↔ `wordBytes`, `storeWords`
     `DecodeString`                                ↔ `decodeString`

   What is proved:
     1. `encode_eq` and `storeWords_spec` — the buffers are large enough, and no digit of the
        number is lost.
     2. `decodeString_encode` — what is not empty is read back; `decodeString_nil` — the
        encoding of the empty input is not.
     3. `base36_bijection` — also, what is read is written again as it was, up to case. -/
namespace Dep2p.Base36

open Lib.Positional List Nat UInt8
open Dep2p.Base32 (asciiToLower asciiToUpper forall_byte)

def ucAlphabet : List UInt8 := "0123456789ABCDEFGHIJKLMNOPQRSTUVWXYZ".toUTF8.toList

def lcAlphabet : List UInt8 := "0123456789abcdefghijklmnopqrstuvwxyz".toUTF8.toList

def maxDigitOrdinal : UInt8 := 122

def maxDigitValueB36 : Nat := 35

/-- The table that the loop over the alphabet leaves, from the character with number `i`. -/
def revTable : List UInt8 → Nat → (UInt8 → Nat) → UInt8 → Nat
  | [], _, table => table
  | c :: al, i, table =>
    revTable al (i + 1) fun r =>
      if c > 57 ∧ r = c + 32 then i else if r = c then i else table r

def revAlphabet : UInt8 → Nat := revTable ucAlphabet 0 fun _ => maxDigitValueB36 + 1

/-! ## Encoding -/

/-- Multiply the digits by 256 and add a carry. `used` is the number of digits that were
written before: the loop goes on to the last of them and until there is no carry. -/
def carryLoop : List Nat → Nat → Nat → Option (List Nat × Nat)
  | [], used, carry => if used = 0 ∧ carry = 0 then some ([], 0) else none
  | o :: out, used, carry =>
    if used = 0 ∧ carry = 0 then some (o :: out, 0)
    else
      match carryLoop out (used - 1) ((carry + o * 256) / 36) with
      | none => none
      | some (out, used) => some ((carry + o * 256) % 36 :: out, used + 1)

def addBytes : List UInt8 → List Nat → Nat → Option (List Nat)
  | [], out, _ => some out
  | b :: bs, out, used =>
    match carryLoop out used b.toNat with
    | none => none
    | some (out, used) => addBytes bs out used

variable (inBuf bs : List UInt8) (n : Nat) (outi : List Nat) (al : List UInt8)

/-- The number of zero bytes in front. -/
def zeros : Nat := (inBuf.takeWhile (· = 0)).length

def encode : Option (List UInt8) :=
  let zcnt := zeros inBuf
  let bufsz := zcnt + (inBuf.length - zcnt) * 277 / 179 + 1
  match addBytes (inBuf.drop zcnt) (replicate bufsz 0) 0 with
  | none => none
  | some out =>
    some ((out.reverse.drop (gap 0 zcnt out.reverse)).map fun d => al.getD d 0)

def encodeToStringUc (b : List UInt8) : Option (List UInt8) := encode b ucAlphabet

def encodeToStringLc (b : List UInt8) : Option (List UInt8) := encode b lcAlphabet

/-! ## Decoding -/

inductive Err where
  | zeroLength
  | invalidCharacter
  deriving DecidableEq, Repr

/-- Multiply the words by 36 and add a carry. -/
def mulAdd : List Nat → Nat → List Nat
  | [], _ => []
  | w :: outi, c => (w * 36 + c) % 2 ^ 32 :: mulAdd outi ((w * 36 + c) / 2 ^ 32)

def digitsLoop : List UInt8 → List Nat → Except Err (List Nat)
  | [], outi => .ok outi
  | r :: s, outi =>
    if r > maxDigitOrdinal ∨ revAlphabet r > maxDigitValueB36 then .error .invalidCharacter
    else digitsLoop s (mulAdd outi (revAlphabet r))

/-- The `n` low bytes of a word, the highest first. -/
def wordBytes (w : Nat) : Nat → List UInt8
  | 0 => []
  | n + 1 => UInt8.ofNat (w >>> (8 * n)) :: wordBytes w n

/-- The words from the highest, of which the first has `first` bytes. -/
def storeWords (first : Nat) : List Nat → List UInt8
  | [] => []
  | w :: outi => wordBytes w first ++ storeWords 4 outi

def decodeString (s : List UInt8) : Except Err (List UInt8) :=
  if s.length = 0 then .error .zeroLength
  else
    let zcnt := (s.takeWhile (· = 48)).length
    match digitsLoop s (replicate ((s.length + 3) / 4) 0) with
    | .error err => .error err
    | .ok outi =>
      let first := if s.length % 4 = 0 then 4 else s.length % 4
      let binu := storeWords first outi.reverse
      if zcnt + gap 0 zcnt binu < binu.length then .ok (binu.drop (gap 0 zcnt binu)) else .ok binu

/-! ## The digits of the encoder -/

theorem carry_lt {o carry v p : Nat} (h : (o + 36 * v) * 256 + carry < p * 36) :
    v * 256 + (carry + o * 256) / 36 < p := by
  have hdiv : (carry + o * 256 + 36 * (v * 256)) / 36 = (carry + o * 256) / 36 + v * 256 :=
    add_mul_div_left _ _ (by decide)
  rw [add_comm, ← hdiv]
  refine Nat.div_lt_of_lt_mul ?_
  calc carry + o * 256 + 36 * (v * 256) = (o + 36 * v) * 256 + carry := by ring
    _ < p * 36 := h
    _ = 36 * p := mul_comm _ _

theorem carry_eq (o carry v : Nat) :
    (carry + o * 256) % 36 + 36 * (v * 256 + (carry + o * 256) / 36) =
      (o + 36 * v) * 256 + carry := by
  calc (carry + o * 256) % 36 + 36 * (v * 256 + (carry + o * 256) / 36)
      = (carry + o * 256) % 36 + 36 * ((carry + o * 256) / 36) + 36 * (v * 256) := by ring
    _ = carry + o * 256 + 36 * (v * 256) := by rw [mod_add_div]
    _ = (o + 36 * v) * 256 + carry := by ring

/-- A buffer that is large enough holds the number times 256 with the carry. -/
theorem carryLoop_spec (out : List Nat) (used carry : Nat) (hdig : ∀ d ∈ out, d < 36)
    (hused : ∀ d ∈ out.drop used, d = 0) (hle : used ≤ out.length)
    (hlt : ofDigits 36 out * 256 + carry < 36 ^ out.length) :
    ∃ out' used', carryLoop out used carry = some (out', used') ∧
      ofDigits 36 out' = ofDigits 36 out * 256 + carry ∧ out'.length = out.length ∧
      (∀ d ∈ out', d < 36) ∧ (∀ d ∈ out'.drop used', d = 0) ∧ used' ≤ out'.length := by
  induction out generalizing used carry with
  | nil =>
    have hcarry : carry = 0 := by simpa using hlt
    have hzero : used = 0 := by simpa using hle
    refine ⟨[], 0, ?_, ?_, rfl, hdig, ?_, le_refl _⟩
    · rw [carryLoop, if_pos ⟨hzero, hcarry⟩]
    · simp [hcarry]
    · simp
  | cons o out ih =>
    by_cases hdone : used = 0 ∧ carry = 0
    · -- nothing was written yet and nothing is added
      obtain ⟨rfl, rfl⟩ := hdone
      have hrep : o :: out = replicate (o :: out).length 0 := by
        rw [eq_replicate_iff]
        exact ⟨rfl, hused⟩
      refine ⟨o :: out, 0, ?_, ?_, rfl, hdig, hused, zero_le _⟩
      · rw [carryLoop, if_pos ⟨rfl, rfl⟩]
      · rw [hrep, ofDigits_replicate_zero]
    · rw [ofDigits_cons] at hlt
      have hdrop : ∀ d ∈ out.drop (used - 1), d = 0 := by
        intro d hd
        cases used with
        | zero => exact hused d (mem_cons_of_mem _ (mem_of_mem_drop hd))
        | succ used => exact hused d hd
      obtain ⟨out', used', hloop, hval, hlen, hdig', hused', hle'⟩ :=
        ih (used - 1) ((carry + o * 256) / 36) (fun d hd => hdig d (mem_cons_of_mem _ hd))
          hdrop (by rw [length_cons] at hle; omega) (carry_lt hlt)
      refine ⟨(carry + o * 256) % 36 :: out', used' + 1, ?_, ?_, ?_, ?_, ?_, ?_⟩
      · rw [carryLoop, if_neg hdone, hloop]
      · rw [ofDigits_cons, hval]
        exact carry_eq o carry _
      · rw [length_cons, length_cons, hlen]
      · exact forall_mem_cons.mpr ⟨mod_lt _ (by decide), hdig'⟩
      · exact hused'
      · exact succ_le_succ hle'

/-- The number that bytes stand for. -/
def number : Nat := value 256 (bs.map UInt8.toNat)

theorem toNat_lt_of_mem : ∀ d ∈ bs.map toNat, d < 256 := by
  intro d hd
  obtain ⟨b, -, rfl⟩ := mem_map.mp hd
  exact b.toNat_lt

theorem number_lt : number bs < 256 ^ bs.length := by
  have hlt := value_lt (by decide) (toNat_lt_of_mem bs)
  rwa [length_map] at hlt

theorem number_cons (b : UInt8) (bs : List UInt8) :
    number (b :: bs) = b.toNat * 256 ^ bs.length + number bs := by
  unfold number
  rw [map_cons, value_cons, length_map]

theorem addBytes_spec (out : List Nat) (used : Nat) (hdig : ∀ d ∈ out, d < 36)
    (hused : ∀ d ∈ out.drop used, d = 0) (hle : used ≤ out.length)
    (hlt : ofDigits 36 out * 256 ^ bs.length + number bs < 36 ^ out.length) :
    ∃ out', addBytes bs out used = some out' ∧
      ofDigits 36 out' = ofDigits 36 out * 256 ^ bs.length + number bs ∧
      out'.length = out.length ∧ ∀ d ∈ out', d < 36 := by
  induction bs generalizing out used with
  | nil => exact ⟨out, rfl, by simp [number], rfl, hdig⟩
  | cons b bs ih =>
    -- what is read so far is no larger than the whole number, so it fits as well
    rw [← length_map toNat, number, map_cons, horner_cons] at hlt ⊢
    have hstep := lt_of_le_of_lt (le_horner (by decide) _) hlt
    rw [length_map] at hlt ⊢
    obtain ⟨out', used', hloop, hval, hlen, hdig', hused', hle'⟩ :=
      carryLoop_spec out used b.toNat hdig hused hle hstep
    rw [← hval, ← hlen] at hlt
    obtain ⟨out'', hadd, hval', hlen', hdig''⟩ := ih out' used' hdig' hused' hle' hlt
    refine ⟨out'', ?_, ?_, hlen'.trans hlen, hdig''⟩
    · rw [addBytes, hloop]
      exact hadd
    · rw [hval', hval, number]

/-- 277/179 is above log 256 / log 36. -/
theorem pow_le_bufsz : 256 ^ n ≤ 36 ^ (n * 277 / 179 + 1) := by
  have hbase : 256 ^ 179 < 36 ^ 200 * 36 ^ 77 := by decide +kernel
  have hroot : (256 ^ n) ^ 179 ≤ (36 ^ (n * 277 / 179 + 1)) ^ 179 := by
    calc (256 ^ n) ^ 179 = (256 ^ 179) ^ n := by rw [← pow_mul, ← pow_mul, mul_comm]
      _ ≤ (36 ^ 200 * 36 ^ 77) ^ n := Nat.pow_le_pow_left hbase.le n
      _ = 36 ^ (200 * n + 77 * n) := by
        rw [Nat.mul_pow, ← pow_mul, ← pow_mul, ← pow_add]
      _ ≤ 36 ^ ((n * 277 / 179 + 1) * 179) := Nat.pow_le_pow_right (by decide) (by omega)
      _ = (36 ^ (n * 277 / 179 + 1)) ^ 179 := pow_mul _ _ _
  exact (Nat.pow_le_pow_iff_left (by decide)).mp hroot

/-- The digits of the encoding: as many zeros as the input has, and the number. -/
theorem encode_eq :
    ∃ D, Lead 0 D ∧ (∀ d ∈ replicate (zeros inBuf) 0 ++ D, d < 36) ∧
      value 36 D = number (inBuf.drop (zeros inBuf)) ∧
      encode inBuf al =
        some ((replicate (zeros inBuf) 0 ++ D).map fun d => al.getD d 0) := by
  have hlen : (inBuf.drop (zeros inBuf)).length = inBuf.length - zeros inBuf := length_drop
  have hpow := pow_le_bufsz (inBuf.length - zeros inBuf)
  have hnum := number_lt (inBuf.drop (zeros inBuf))
  rw [hlen] at hnum
  obtain ⟨out, hadd, hval, houtlen, hdig⟩ :=
    addBytes_spec (inBuf.drop (zeros inBuf))
      (replicate (zeros inBuf + (inBuf.length - zeros inBuf) * 277 / 179 + 1) 0) 0
      (by intro d hd; rw [eq_of_mem_replicate hd]; decide)
      (by intro d hd; exact eq_of_mem_replicate (mem_of_mem_drop hd))
      (zero_le _)
      (by
        rw [ofDigits_replicate_zero, Nat.zero_mul, zero_add, length_replicate]
        exact lt_of_lt_of_le (lt_of_lt_of_le hnum hpow)
          (Nat.pow_le_pow_right (by decide) (by omega)))
  rw [ofDigits_replicate_zero, Nat.zero_mul, zero_add] at hval
  rw [length_replicate] at houtlen
  -- the buffer, read from its front, is zeros and the digits of the number
  obtain ⟨n, D, hout, hlead⟩ : ∃ n D, out.reverse = replicate n 0 ++ D ∧ Lead 0 D :=
    ⟨_, _, eq_zeros_append 0 _⟩
  have hvalue : value 36 D = number (inBuf.drop (zeros inBuf)) := by
    rw [← hval, ← value_replicate_zero 36 n D, ← hout, value, reverse_reverse]
  have hshort : D.length ≤ (inBuf.length - zeros inBuf) * 277 / 179 + 1 := by
    refine hlead.length_le (b := 36) (by decide) ?_
    rw [hvalue]
    exact lt_of_lt_of_le hnum hpow
  have hsum : n + D.length = zeros inBuf + (inBuf.length - zeros inBuf) * 277 / 179 + 1 := by
    have hboth := congrArg length hout
    rw [length_reverse, length_append, length_replicate] at hboth
    omega
  refine ⟨D, hlead, ?_, hvalue, ?_⟩
  · intro d hd
    rcases mem_append.mp hd with hd | hd
    · rw [eq_of_mem_replicate hd]
      decide
    · refine hdig d (mem_reverse.mp ?_)
      rw [hout]
      exact mem_append_right _ hd
  · unfold encode
    dsimp only
    rw [hadd]
    dsimp only
    rw [hout, drop_gap (by omega) hlead]

/-! ## The words of the decoder -/

theorem mulAdd_spec (c : Nat) (hlt : ofDigits (2 ^ 32) outi * 36 + c < (2 ^ 32) ^ outi.length) :
    ofDigits (2 ^ 32) (mulAdd outi c) = ofDigits (2 ^ 32) outi * 36 + c ∧
      (mulAdd outi c).length = outi.length ∧ ∀ w ∈ mulAdd outi c, w < 2 ^ 32 := by
  induction outi generalizing c with
  | nil =>
    have hc : c = 0 := by simpa using hlt
    exact ⟨by simp [mulAdd, hc], rfl, by simp [mulAdd]⟩
  | cons w outi ih =>
    rw [ofDigits_cons, length_cons] at hlt
    obtain ⟨hval, hlen, hwords⟩ := ih ((w * 36 + c) / 2 ^ 32) (by omega)
    refine ⟨?_, ?_, ?_⟩
    · rw [mulAdd, ofDigits_cons, ofDigits_cons]
      omega
    · rw [mulAdd, length_cons, length_cons, hlen]
    · rw [mulAdd]
      exact forall_mem_cons.mpr ⟨mod_lt _ (by decide), hwords⟩

/-- A character that the decoder accepts. -/
def Digit (r : UInt8) : Prop := ¬ (r > maxDigitOrdinal ∨ revAlphabet r > maxDigitValueB36)

instance (r : UInt8) : Decidable (Digit r) := inferInstanceAs (Decidable (¬ _))

/-- The digit of a character of an alphabet. -/
structure Reads (al : List UInt8) : Prop where
  digit : ∀ d, d < 36 → revAlphabet (al.getD d 0) = d
  accepted : ∀ d, d < 36 → Digit (al.getD d 0)

theorem reads_uc : Reads ucAlphabet := by
  refine ⟨?_, ?_⟩ <;> decide +kernel

theorem reads_lc : Reads lcAlphabet := by
  refine ⟨?_, ?_⟩ <;> decide +kernel

variable {D : List Nat}

theorem Reads.chars {al : List UInt8} (hal : Reads al) (hD : ∀ d ∈ D, d < 36) :
    (D.map fun d => al.getD d 0).map revAlphabet = D ∧
      ∀ r ∈ D.map fun d => al.getD d 0, Digit r := by
  refine ⟨?_, ?_⟩
  · rw [map_map]
    refine (map_congr_left fun d hd => ?_).trans (map_id D)
    exact hal.digit d (hD d hd)
  · intro r hr
    obtain ⟨d, hd, rfl⟩ := mem_map.mp hr
    exact hal.accepted d (hD d hd)

/-- A character stands for a digit below 36, and only `0` stands for zero; in the case of an
alphabet it is the character of its digit there. -/
theorem Digit.char {r : UInt8} (hr : Digit r) :
    revAlphabet r < 36 ∧ (r = 48 ↔ revAlphabet r = 0) ∧
      lcAlphabet.getD (revAlphabet r) 0 = asciiToLower r ∧
      ucAlphabet.getD (revAlphabet r) 0 = asciiToUpper r :=
  forall_byte (P := fun r => Digit r → revAlphabet r < 36 ∧ (r = 48 ↔ revAlphabet r = 0) ∧
    lcAlphabet.getD (revAlphabet r) 0 = asciiToLower r ∧
    ucAlphabet.getD (revAlphabet r) 0 = asciiToUpper r) (by decide +kernel) r hr

variable {s : List UInt8} {outi' : List Nat} {w : Nat}

theorem digits_lt (hs : ∀ r ∈ s, Digit r) : ∀ d ∈ s.map revAlphabet, d < 36 := by
  intro d hd
  obtain ⟨r, hr, rfl⟩ := mem_map.mp hd
  exact (hs r hr).char.1

/-- The loop over the characters has the number of the digits, in words that are enough. -/
theorem digitsLoop_spec (hs : ∀ r ∈ s, Digit r)
    (hwords : ∀ w ∈ outi, w < 2 ^ 32)
    (hlt : ofDigits (2 ^ 32) outi * 36 ^ s.length + value 36 (s.map revAlphabet) <
      (2 ^ 32) ^ outi.length) :
    ∃ outi', digitsLoop s outi = .ok outi' ∧
      ofDigits (2 ^ 32) outi' =
        ofDigits (2 ^ 32) outi * 36 ^ s.length + value 36 (s.map revAlphabet) ∧
      outi'.length = outi.length ∧ ∀ w ∈ outi', w < 2 ^ 32 := by
  induction s generalizing outi with
  | nil => exact ⟨outi, rfl, by simp, rfl, hwords⟩
  | cons r s ih =>
    rw [← length_map revAlphabet, map_cons, horner_cons] at hlt ⊢
    have hstep := lt_of_le_of_lt (le_horner (by decide) _) hlt
    rw [length_map] at hlt ⊢
    obtain ⟨hval, hlen, hwords'⟩ := mulAdd_spec outi (revAlphabet r) hstep
    rw [← hval, ← hlen] at hlt
    obtain ⟨outi', hloop, hval', hlen', hwords''⟩ :=
      ih (mulAdd outi (revAlphabet r)) (fun r' hr' => hs r' (mem_cons_of_mem _ hr')) hwords' hlt
    refine ⟨outi', ?_, ?_, hlen'.trans hlen, hwords''⟩
    · rw [digitsLoop, if_neg (hs r mem_cons_self)]
      exact hloop
    · rw [hval', hval]

/-- Only characters that stand for digits get through. -/
theorem digit_of_digitsLoop {outi : List Nat} (h : digitsLoop s outi = .ok outi') :
    ∀ r ∈ s, Digit r := by
  induction s generalizing outi with
  | nil => exact fun r hr => nomatch hr
  | cons r s ih =>
    rw [digitsLoop] at h
    split at h
    · cases h
    · rename_i hr
      exact forall_mem_cons.mpr ⟨hr, ih h⟩

theorem length_wordBytes (n : Nat) : (wordBytes w n).length = n := by
  induction n with
  | zero => rfl
  | succ n ih => rw [wordBytes, length_cons, ih]

theorem number_append (as bs : List UInt8) :
    number (as ++ bs) = number as * 256 ^ bs.length + number bs := by
  unfold number
  rw [map_append, value_append, length_map]

theorem number_wordBytes (n : Nat) : number (wordBytes w n) = w % 256 ^ n := by
  induction n with
  | zero => simp [wordBytes, number, mod_one]
  | succ n ih =>
    have hshift : (ofNat (w >>> (8 * n))).toNat = w / 256 ^ n % 256 := by
      rw [toNat_ofNat', shiftRight_eq_div_pow, Nat.pow_mul]
    rw [wordBytes, number_cons, length_wordBytes, ih, hshift, pow_succ 256 n, mod_mul]
    ring

theorem length_storeWords (first : Nat) (ws : List Nat) :
    (storeWords first (w :: ws)).length = first + 4 * ws.length := by
  induction ws generalizing first w with
  | nil => simp [storeWords, length_wordBytes]
  | cons w' ws ih =>
    rw [storeWords, length_append, length_wordBytes, ih, length_cons]
    omega

theorem word_pow : (2 ^ 32) ^ n = 256 ^ (4 * n) := by
  have hword : 2 ^ 32 = 256 ^ 4 := by norm_num
  rw [pow_mul, hword]

/-- The bytes of whole words are the number of the words. -/
theorem number_storeWords (ws : List Nat) (hws : ∀ w ∈ ws, w < 2 ^ 32) :
    number (storeWords 4 ws) = value (2 ^ 32) ws ∧ (storeWords 4 ws).length = 4 * ws.length := by
  induction ws with
  | nil => exact ⟨rfl, rfl⟩
  | cons w ws ih =>
    obtain ⟨hval, hlen⟩ := ih fun w' hw' => hws w' (mem_cons_of_mem _ hw')
    have hw : w % 256 ^ 4 = w := mod_eq_of_lt (hws w mem_cons_self)
    refine ⟨?_, ?_⟩
    · rw [storeWords, number_append, number_wordBytes, hw, hval, hlen, value_cons, word_pow]
    · rw [storeWords, length_append, length_wordBytes, length_cons]
      omega

/-- The first word has fewer bytes; what it loses is zero when the number has no more bytes
than are stored. -/
theorem number_storeWords_first (first : Nat) (ws : List Nat) (hws : ∀ x ∈ ws, x < 2 ^ 32)
    (hlt : value (2 ^ 32) (w :: ws) < 256 ^ (first + 4 * ws.length)) :
    number (storeWords first (w :: ws)) = value (2 ^ 32) (w :: ws) := by
  obtain ⟨hval, hlen⟩ := number_storeWords ws hws
  rw [value_cons, word_pow] at hlt ⊢
  have hw : w < 256 ^ first := by
    by_contra hge
    have hmul : 256 ^ first * 256 ^ (4 * ws.length) ≤ w * 256 ^ (4 * ws.length) :=
      mul_le_mul_right _ (not_lt.mp hge)
    rw [← pow_add] at hmul
    omega
  rw [storeWords, number_append, number_wordBytes, mod_eq_of_lt hw, hval, hlen]

/-! ## Reading back -/

/-- The number of bytes in the first word, and the words after it. -/
theorem words_split {n : Nat} (hn : 0 < n) :
    (n + 3) / 4 = (n - (if n % 4 = 0 then 4 else n % 4)) / 4 + 1 ∧
      (if n % 4 = 0 then 4 else n % 4) + 4 * ((n - (if n % 4 = 0 then 4 else n % 4)) / 4) = n := by
  split <;> omega

/-- The decoder's bytes: as many as there are characters, with the number of the digits. -/
theorem storeWords_spec (hs : ∀ r ∈ s, Digit r) (hne : s ≠ []) :
    ∃ outi, digitsLoop s (replicate ((s.length + 3) / 4) 0) = .ok outi ∧
      (storeWords (if s.length % 4 = 0 then 4 else s.length % 4) outi.reverse).length = s.length ∧
      number (storeWords (if s.length % 4 = 0 then 4 else s.length % 4) outi.reverse) =
        value 36 (s.map revAlphabet) := by
  have hpos : 0 < s.length := length_pos_iff.mpr hne
  obtain ⟨hwords, hbytes⟩ := words_split hpos
  have hvalue := value_lt (by decide) (digits_lt hs)
  rw [length_map] at hvalue
  have hbyte : value 36 (s.map revAlphabet) < 256 ^ s.length :=
    lt_of_lt_of_le hvalue (Nat.pow_le_pow_left (by decide) _)
  have hroom : value 36 (s.map revAlphabet) < (2 ^ 32) ^ ((s.length + 3) / 4) := by
    rw [word_pow]
    exact lt_of_lt_of_le hbyte (Nat.pow_le_pow_right (by decide) (by omega))
  obtain ⟨outi, hloop, hval, hlen, hsmall⟩ := digitsLoop_spec
    (replicate ((s.length + 3) / 4) 0) hs
    (by intro w hw; rw [eq_of_mem_replicate hw]; decide)
    (by
      rw [ofDigits_replicate_zero, Nat.zero_mul, zero_add, length_replicate]
      exact hroom)
  rw [ofDigits_replicate_zero, Nat.zero_mul, zero_add] at hval
  rw [length_replicate] at hlen
  refine ⟨outi, hloop, ?_⟩
  have hrevval : value (2 ^ 32) outi.reverse = value 36 (s.map revAlphabet) := by
    rw [value, reverse_reverse, hval]
  have hrevlen : outi.reverse.length = (s.length + 3) / 4 := by rw [length_reverse, hlen]
  cases hrev : outi.reverse with
  | nil =>
    rw [hrev, length_nil] at hrevlen
    omega
  | cons w ws =>
    rw [hrev] at hrevval
    rw [hrev, hwords] at hrevlen
    have hws : ws.length = (s.length - (if s.length % 4 = 0 then 4 else s.length % 4)) / 4 :=
      succ.inj hrevlen
    have hwsmall : ∀ x ∈ ws, x < 2 ^ 32 := by
      intro x hx
      refine hsmall x (mem_reverse.mp ?_)
      rw [hrev]
      exact mem_cons_of_mem _ hx
    refine ⟨by rw [length_storeWords, hws, hbytes], ?_⟩
    rw [number_storeWords_first _ ws hwsmall]
    · exact hrevval
    · rw [hrevval, hws, hbytes]
      exact hbyte

/-- The characters that stand for zero are those of leading zero digits. -/
theorem takeWhile_chars (hs : ∀ r ∈ s, Digit r) :
    (s.takeWhile (· = 48)).length = ((s.map revAlphabet).takeWhile (· = 0)).length := by
  induction s with
  | nil => rfl
  | cons r s ih =>
    have hr := (hs r mem_cons_self).char.2.1
    have hrest := ih fun r' hr' => hs r' (mem_cons_of_mem _ hr')
    rw [map_cons]
    by_cases hzero : revAlphabet r = 0
    · rw [takeWhile_cons_of_pos (by simpa using hr.mpr hzero),
        takeWhile_cons_of_pos (by simpa using hzero), length_cons, length_cons,
        hrest]
    · rw [takeWhile_cons_of_neg (by simpa using fun h => hzero (hr.mp h)),
        takeWhile_cons_of_neg (by simpa using hzero)]
      rfl

theorem lead_map {bs : List UInt8} (h : Lead 0 bs) : Lead 0 (bs.map UInt8.toNat) := by
  cases bs with
  | nil => exact fun d hd => by cases hd
  | cons b bs =>
    intro d hd
    cases hd
    exact fun hzero => h b rfl (UInt8.toNat_inj.mp hzero)

theorem number_zeros (body : List UInt8) : number (replicate n 0 ++ body) = number body := by
  have hzeros : (replicate n 0 ++ body).map toNat =
      replicate n 0 ++ body.map toNat := by
    rw [map_append, map_replicate]
    rfl
  rw [number, hzeros, value_replicate_zero, number]

variable {body : List UInt8}

theorem zeros_append (h : Lead 0 body) : zeros (replicate n 0 ++ body) = n := by
  rw [zeros, takeWhile_zeros n h, length_replicate]

/-- Bytes with the number and the length of zeros and a body are these. -/
theorem eq_of_number {n : Nat} {binu : List UInt8} (hnum : number binu = number body)
    (hlen : binu.length = n + body.length) : binu = replicate n 0 ++ body := by
  have hmap : binu.map toNat = (replicate n 0 ++ body).map toNat := by
    refine value_inj (by decide) (by simp [hlen]) (toNat_lt_of_mem _) (toNat_lt_of_mem _) ?_
    exact hnum.trans (number_zeros n body).symm
  exact map_injective_iff.mpr (fun _ _ h => UInt8.toNat_inj.mp h) hmap

/-- What is read: a zero byte for each leading zero digit, and the bytes of the number. -/
theorem decodeString_eq (hs : ∀ r ∈ s, Digit r) (hne : s ≠ []) {z : Nat}
    (hdigits : s.map revAlphabet = replicate z 0 ++ D) (hlead : Lead 0 D) (hbody : Lead 0 body)
    (hnum : number body = value 36 D) : decodeString s = .ok (replicate z 0 ++ body) := by
  have hD : ∀ d ∈ D, d < 36 := fun d hd => digits_lt hs d (hdigits ▸ mem_append_right _ hd)
  -- the body has at most as many bytes as the number has digits
  have hshort : body.length ≤ D.length := by
    have hle := (lead_map hbody).length_le_length (by decide) (by decide)
      (value_lt (by decide) hD) hnum
    rwa [length_map] at hle
  have htotal : s.length = z + D.length := by
    rw [← length_map revAlphabet, hdigits, length_append, length_replicate]
  obtain ⟨outi, hloop, hlen, hstored⟩ := storeWords_spec hs hne
  rw [hdigits, value_replicate_zero, ← hnum] at hstored
  have hbinu := eq_of_number (n := z + D.length - body.length) hstored (by rw [hlen]; omega)
  have hzcnt : (s.takeWhile (· = 48)).length = z := by
    rw [takeWhile_chars hs, hdigits, takeWhile_zeros _ hlead, length_replicate]
  have hgap := gap_zeros (z := z) (n := z + D.length - body.length) (by omega) hbody
  have hdrop := drop_gap (z := z) (n := z + D.length - body.length) (by omega) hbody
  unfold decodeString
  rw [if_neg (fun h => hne (length_eq_zero_iff.mp h))]
  rw [hzcnt, hloop]
  dsimp only
  rw [hbinu, hdrop]
  split
  · rfl
  -- there is no byte but zeros, so there is no digit but zeros
  rename_i hall
  rw [length_append, length_replicate] at hall
  have hempty : body = [] := length_eq_zero_iff.mp (by omega)
  have hnone : D.length ≤ 0 := by
    refine hlead.length_le (b := 36) (by decide) ?_
    rw [← hnum, hempty]
    decide
  have hzeros : z + D.length - body.length = z := by
    omega
  rw [hzeros]

/-- Everything but the empty input is read back. -/
theorem decodeString_encode {al : List UInt8} (hal : Reads al) {inBuf : List UInt8}
    (hne : inBuf ≠ []) :
    ∃ s, encode inBuf al = some s ∧ decodeString s = .ok inBuf := by
  obtain ⟨D, hlead, hD, hvalue, hencode⟩ := encode_eq inBuf al
  obtain ⟨hsplit, hbody⟩ := eq_zeros_append 0 inBuf
  rw [← zeros] at hsplit hbody
  obtain ⟨hread, haccept⟩ := hal.chars hD
  refine ⟨_, hencode, ?_⟩
  rw [decodeString_eq haccept ?_ hread hlead hbody hvalue.symm, ← hsplit]
  -- without a digit there is no byte
  intro hnil
  obtain ⟨hzeros, rfl⟩ := append_eq_nil_iff.mp (map_eq_nil_iff.mp hnil)
  have hnone : (inBuf.drop (zeros inBuf)).length ≤ 0 := by
    have hle := (lead_map hbody).length_le (b := 256) (n := 0) (by decide)
      (by change number _ < _; rw [← hvalue]; decide)
    rwa [length_map] at hle
  rw [(replicate_eq_nil_iff _).mp hzeros] at hnone
  exact hne (length_eq_zero_iff.mp (le_zero.mp hnone))

/-- What is accepted is written again with the characters of the alphabet. -/
theorem encode_decodeString {d : List UInt8} (h : decodeString s = .ok d) :
    encode d al = some ((s.map revAlphabet).map fun x => al.getD x 0) ∧ ∀ r ∈ s, Digit r := by
  have hdef := h
  unfold decodeString at hdef
  split at hdef
  · cases hdef
  rename_i hpos
  split at hdef
  · cases hdef
  rename_i outi hloop
  have hs := digit_of_digitsLoop hloop
  have hne : s ≠ [] := fun hnil => hpos (by rw [hnil, length_nil])
  obtain ⟨z, D, hdigits, hlead⟩ : ∃ z D, s.map revAlphabet = replicate z 0 ++ D ∧ Lead 0 D :=
    ⟨_, _, eq_zeros_append 0 _⟩
  have hD : ∀ d ∈ D, d < 36 := fun d hd => digits_lt hs d (hdigits ▸ mem_append_right _ hd)
  -- the bytes of the words, without their zeros, are the number
  obtain ⟨outi', hloop', -, hstored⟩ := storeWords_spec hs hne
  obtain ⟨hsplit, hbody⟩ := eq_zeros_append 0
    (storeWords (if s.length % 4 = 0 then 4 else s.length % 4) outi'.reverse)
  rw [hsplit, hdigits, value_replicate_zero, number_zeros] at hstored
  rw [decodeString_eq hs hne hdigits hlead hbody hstored] at h
  cases h
  obtain ⟨D', hlead', hD', hvalue', hencode⟩ := encode_eq (replicate z 0 ++ _) al
  rw [zeros_append _ hbody] at hvalue' hencode
  rw [drop_left' length_replicate, hstored] at hvalue'
  rw [hencode, hdigits, hlead'.eq_of_value (by decide) hlead
    (fun d hd => hD' d (mem_append_right _ hd)) hD hvalue']
  exact ⟨rfl, hs⟩

/-- The two alphabets are read back, what is read is written again up to case, every index is
inside its buffer, and the digits and the bytes are of the same number. -/
theorem base36_bijection :
    (∀ d : List UInt8, d ≠ [] →
      (∃ s, encodeToStringLc d = some s ∧ decodeString s = .ok d) ∧
      ∃ s, encodeToStringUc d = some s ∧ decodeString s = .ok d) ∧
    (∀ s d, decodeString s = .ok d →
      encodeToStringLc d = some (s.map asciiToLower) ∧
      encodeToStringUc d = some (s.map asciiToUpper)) ∧
    (∀ d al, ∃ D : List Nat, (∀ x ∈ D, x < 36) ∧ value 36 D = number d ∧
      encode d al = some (D.map fun x => al.getD x 0)) ∧
    ∀ s outi, s ≠ [] → digitsLoop s (replicate ((s.length + 3) / 4) 0) = .ok outi →
      let binu := storeWords (if s.length % 4 = 0 then 4 else s.length % 4) outi.reverse
      binu.length ≤ 2 * (s.length * 179 / 277 + 1) ∧
        number binu = value 36 (s.map revAlphabet) := by
  refine ⟨fun d hd => ?_, fun s d h => ?_, fun d al => ?_, fun s outi hne h => ?_⟩
  · exact ⟨decodeString_encode reads_lc hd, decodeString_encode reads_uc hd⟩
  · obtain ⟨hlc, hs⟩ := encode_decodeString lcAlphabet h
    obtain ⟨huc, -⟩ := encode_decodeString ucAlphabet h
    rw [encodeToStringLc, encodeToStringUc, hlc, huc, map_map, map_map]
    refine ⟨congrArg some (map_congr_left fun r hr => ?_),
      congrArg some (map_congr_left fun r hr => ?_)⟩
    · exact (hs r hr).char.2.2.1
    · exact (hs r hr).char.2.2.2
  · obtain ⟨D, hlead, hD, hvalue, hencode⟩ := encode_eq d al
    refine ⟨replicate (zeros d) 0 ++ D, hD, ?_, hencode⟩
    rw [value_replicate_zero, hvalue, ← number_zeros (zeros d), zeros, ← (eq_zeros_append 0 d).1]
  · obtain ⟨outi', hloop, hlen, hstored⟩ := storeWords_spec (digit_of_digitsLoop h) hne
    rw [h] at hloop
    cases hloop
    exact ⟨hlen.le.trans (by omega), hstored⟩

/-- The encoding of the empty input is empty, and is refused. -/
theorem decodeString_nil : encode [] al = some [] ∧ decodeString [] = .error .zeroLength :=
  ⟨rfl, rfl⟩

end Dep2p.Base36
