import Mathlib.Tactic.Common

/- UTF-8 as Go's `unicode/utf8` reads and writes it.

   A rune is its code point. `decodeRune` returns the first rune of a text and its width;
   anything that is not a well-formed sequence is `runeError` with width one. A sequence that
   is well formed is read the same way whatever follows it (`decodeRune_append`). -/
namespace Dep2p.Lib.Utf8

open List

def runeError : Nat := 0xFFFD

/-- A continuation byte. -/
def isCont (b : UInt8) : Bool := 0x80 ≤ b && b ≤ 0xBF

/-- What the second byte of a sequence of three or four may be, by the first. -/
def acceptsSecond (b0 b1 : UInt8) : Bool :=
  if b0 = 0xE0 then 0xA0 ≤ b1 && b1 ≤ 0xBF
  else if b0 = 0xED then 0x80 ≤ b1 && b1 ≤ 0x9F
  else if b0 = 0xF0 then 0x90 ≤ b1 && b1 ≤ 0xBF
  else if b0 = 0xF4 then 0x80 ≤ b1 && b1 ≤ 0x8F
  else isCont b1

/-- `utf8.DecodeRuneInString` -/
def decodeRune : List UInt8 → Nat × Nat
  | [] => (runeError, 0)
  | b0 :: rest =>
    if b0 < 0x80 then (b0.toNat, 1)
    else if b0 < 0xC2 then (runeError, 1)
    else if b0 < 0xE0 then
      match rest with
      | b1 :: _ =>
        if isCont b1 then ((b0 &&& 0x1F).toNat <<< 6 ||| (b1 &&& 0x3F).toNat, 2)
        else (runeError, 1)
      | _ => (runeError, 1)
    else if b0 < 0xF0 then
      match rest with
      | b1 :: b2 :: _ =>
        if acceptsSecond b0 b1 && isCont b2 then
          ((b0 &&& 0x0F).toNat <<< 12 ||| (b1 &&& 0x3F).toNat <<< 6 ||| (b2 &&& 0x3F).toNat, 3)
        else (runeError, 1)
      | _ => (runeError, 1)
    else if b0 < 0xF5 then
      match rest with
      | b1 :: b2 :: b3 :: _ =>
        if acceptsSecond b0 b1 && isCont b2 && isCont b3 then
          ((b0 &&& 0x07).toNat <<< 18 ||| (b1 &&& 0x3F).toNat <<< 12 |||
            (b2 &&& 0x3F).toNat <<< 6 ||| (b3 &&& 0x3F).toNat, 4)
        else (runeError, 1)
      | _ => (runeError, 1)
    else (runeError, 1)

/-- `utf8.AppendRune`; a surrogate or a number that is too large becomes `runeError`. -/
def encodeRune (r : Nat) : List UInt8 :=
  if r ≤ 0x7F then [UInt8.ofNat r]
  else if r ≤ 0x7FF then [UInt8.ofNat (0xC0 ||| r >>> 6), UInt8.ofNat (0x80 ||| r &&& 0x3F)]
  else
    let r := if (0xD800 ≤ r ∧ r ≤ 0xDFFF) ∨ 0x10FFFF < r then runeError else r
    if r ≤ 0xFFFF then
      [UInt8.ofNat (0xE0 ||| r >>> 12), UInt8.ofNat (0x80 ||| (r >>> 6) &&& 0x3F),
        UInt8.ofNat (0x80 ||| r &&& 0x3F)]
    else
      [UInt8.ofNat (0xF0 ||| r >>> 18), UInt8.ofNat (0x80 ||| (r >>> 12) &&& 0x3F),
        UInt8.ofNat (0x80 ||| (r >>> 6) &&& 0x3F), UInt8.ofNat (0x80 ||| r &&& 0x3F)]

theorem decodeRune_ascii {b : UInt8} (hb : b < 0x80) (rest : List UInt8) :
    decodeRune (b :: rest) = (b.toNat, 1) := by
  simp [decodeRune, if_pos hb]

/-- The width of a rune of a text that is not empty. -/
theorem width_pos (b : UInt8) (rest : List UInt8) : 0 < (decodeRune (b :: rest)).2 := by
  unfold decodeRune
  dsimp only
  repeat' split
  all_goals exact Nat.succ_pos _

/-- `utf8.ValidString` -/
def valid : List UInt8 → Bool
  | [] => true
  | b :: rest =>
    if decodeRune (b :: rest) = (runeError, 1) then false
    else valid ((b :: rest).drop (decodeRune (b :: rest)).2)
termination_by bs => bs.length
decreasing_by
  have := width_pos b rest
  simp only [length_drop, length_cons]
  omega

variable {bs : List UInt8}

theorem valid_of_ascii (h : ∀ b ∈ bs, b < 0x80) : valid bs = true := by
  induction bs with
  | nil => rw [valid]
  | cons b rest ih =>
    have hb : b < 0x80 := h b mem_cons_self
    have hne : (b.toNat, 1) ≠ (runeError, 1) := by
      intro heq
      have hlt : b.toNat < 128 := UInt8.lt_iff_toNat_lt.mp hb
      have := congrArg Prod.fst heq
      simp only [runeError] at this
      omega
    rw [valid, decodeRune_ascii hb, if_neg hne]
    exact ih fun x hx => h x (mem_cons_of_mem b hx)

theorem decodeRune_append (h : (decodeRune bs).1 ≠ runeError)
    (rest : List UInt8) : decodeRune (bs ++ rest) = decodeRune bs := by
  cases bs with
  | nil => exact absurd rfl h
  | cons b0 tl =>
    simp only [cons_append, decodeRune] at h ⊢
    by_cases h1 : b0 < 0x80
    · simp [if_pos h1]
    by_cases h2 : b0 < 0xC2
    · simp only [if_neg h1, if_pos h2] at h
      exact absurd rfl h
    simp only [if_neg h1, if_neg h2] at h ⊢
    by_cases h3 : b0 < 0xE0
    · -- a sequence of two bytes
      simp only [if_pos h3] at h ⊢
      cases tl with
      | nil => exact absurd rfl h
      | cons b1 tl => rfl
    simp only [if_neg h3] at h ⊢
    by_cases h4 : b0 < 0xF0
    · simp only [if_pos h4] at h ⊢
      cases tl with
      | nil => exact absurd rfl h
      | cons b1 tl =>
        cases tl with
        | nil => exact absurd rfl h
        | cons b2 tl => rfl
    simp only [if_neg h4] at h ⊢
    by_cases h5 : b0 < 0xF5
    · simp only [if_pos h5] at h ⊢
      cases tl with
      | nil => exact absurd rfl h
      | cons b1 tl =>
        cases tl with
        | nil => exact absurd rfl h
        | cons b2 tl =>
          cases tl with
          | nil => exact absurd rfl h
          | cons b3 tl => rfl
    · simp only [if_neg h5] at h
      exact absurd rfl h

end Dep2p.Lib.Utf8
