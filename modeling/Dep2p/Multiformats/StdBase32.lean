import Dep2p.Multiformats.Base32

/- The standard library's base32 (`encoding/base32`).

   It differs from the repository's copy in that characters stand for themselves only, and in
   that `DecodeString` works in the buffer that it makes of its argument: new lines are taken
   out in place, the bytes are written over the characters, and the slice that is returned has
   the rest of the buffer behind it.

   What is proved:
     `encode_exact` — whole quanta are written in characters of the alphabet.
     `exists_encode` — as many characters as fill whole quanta are the encoding of bytes. -/
namespace Dep2p.Base32

open List

/-- The table that the loop over the alphabet leaves. -/
def exactTable : List UInt8 → UInt8 → (UInt8 → UInt8) → UInt8 → UInt8
  | [], _, table => table
  | a :: encoder, i, table => exactTable encoder (i + 1) fun c => if c = a then i else table c

/-- `base32.NewEncoding` -/
def newEncoding (encoder : List UInt8) : Encoding :=
  { alphabet := encoder, decodeMap := exactTable encoder 0 fun _ => 0xFF, padChar := some 61 }

namespace Encoding

variable (enc : Encoding)

/-- `DecodeString`: the bytes, and what is left of the buffer behind them. -/
def decodeInPlace (s : List UInt8) : Except CorruptInput (List UInt8 × List UInt8) :=
  match enc.decodeString s with
  | .error err => .error err
  | .ok data =>
    let strb := s.filter fun b => b ≠ 10 ∧ b ≠ 13
    .ok (data, (strb ++ s.drop strb.length).drop data.length)

/-! ## Texts -/

/-- Whole quanta are characters of the alphabet. -/
theorem encode_exact {src : List UInt8} (hsrc : src.length % 5 = 0) :
    ∃ vs : List UInt8, enc.encode src = vs.map enc.char ∧ ∀ v ∈ vs, Group v := by
  fun_induction encode enc src with
  | case1 => exact ⟨[], rfl, forall_mem_nil _⟩
  | case2 | case3 | case4 | case5 => cases hsrc
  | case6 s0 s1 s2 s3 s4 src ih =>
    obtain ⟨vs, htext, hvs⟩ := ih (by simp only [length_cons] at hsrc; omega)
    refine ⟨quantum s0 s1 s2 s3 s4 ++ vs, ?_, ?_⟩
    · rw [htext, map_append]
    · exact forall_mem_append.mpr ⟨groups_quantum s0 s1 s2 s3 s4, hvs⟩

/-! ## Whole quanta -/

theorem Group.and_eq {v : UInt8} (hv : Group v) : v &&& 0x1F = v := by
  apply UInt8.toNat_inj.mp
  change v.toNat &&& (2 ^ 5 - 1) = v.toNat
  rw [Nat.and_two_pow_sub_one_eq_mod, Nat.mod_eq_of_lt hv]

/-- Eight groups are those of the bytes that they hold. -/
theorem quantum_pack {v0 v1 v2 v3 v4 v5 v6 v7 : UInt8}
    (h : ∀ v ∈ [v0, v1, v2, v3, v4, v5, v6, v7], Group v) :
    ∃ s0 s1 s2 s3 s4, pack [v0, v1, v2, v3, v4, v5, v6, v7] = [s0, s1, s2, s3, s4] ∧
      quantum s0 s1 s2 s3 s4 = [v0, v1, v2, v3, v4, v5, v6, v7] := by
  refine ⟨_, _, _, _, _, rfl, ?_⟩
  simp only [forall_mem_cons, not_mem_nil, false_imp_iff, implies_true, and_true] at h
  obtain ⟨h0, h1, h2, h3, h4, h5, h6, h7⟩ := h
  rw [← h0.and_eq, ← h1.and_eq, ← h2.and_eq, ← h3.and_eq, ← h4.and_eq, ← h5.and_eq, ← h6.and_eq,
    ← h7.and_eq]
  simp only [quantum, cons.injEq, and_true]
  refine ⟨?_, ?_, ?_, ?_, ?_, ?_, ?_, ?_⟩ <;>
  · apply eq_of_bits
    intro i hi
    rcases bit_cases hi with rfl | rfl | rfl | rfl | rfl | rfl | rfl | rfl <;> simp

/-- Characters of the alphabet that fill whole quanta are the encoding of some bytes. -/
theorem exists_encode : ∀ {n : Nat} {vs : List UInt8}, vs.length = 8 * n → (∀ v ∈ vs, Group v) →
    ∃ data, data.length = 5 * n ∧ enc.encode data = vs.map enc.char
  | 0, vs, hlen, _ => by
    rw [length_eq_zero_iff.mp hlen]
    exact ⟨[], rfl, rfl⟩
  | n + 1, v0 :: v1 :: v2 :: v3 :: v4 :: v5 :: v6 :: v7 :: vs, hlen, hvs => by
    have hfirst : ∀ v ∈ [v0, v1, v2, v3, v4, v5, v6, v7], Group v :=
      fun v hv => hvs v (mem_append_left vs hv)
    have hrest : ∀ v ∈ vs, Group v :=
      fun v hv => hvs v (mem_append_right [v0, v1, v2, v3, v4, v5, v6, v7] hv)
    simp only [length_cons] at hlen
    obtain ⟨data, hdata, hencode⟩ := exists_encode (n := n) (by omega) hrest
    obtain ⟨s0, s1, s2, s3, s4, -, hquantum⟩ := quantum_pack hfirst
    refine ⟨s0 :: s1 :: s2 :: s3 :: s4 :: data, ?_, ?_⟩
    · simp only [length_cons]
      omega
    · rw [encode, hquantum, hencode]
      rfl

/-- The characters of the alphabet in place, and nothing behind them but the end of the text. -/
theorem decodeInPlace_encode {enc : Encoding} (h : Agrees enc enc) (data : List UInt8) :
    enc.decodeInPlace (enc.encode data) = .ok (data, (enc.encode data).drop data.length) := by
  have hstrip : (enc.encode data).filter (fun b => b ≠ 10 ∧ b ≠ 13) = enc.encode data := by
    rw [filter_eq_self]
    intro c hc
    simpa using h.lines data c hc
  unfold decodeInPlace
  rw [decodeString_encode h data]
  dsimp only
  rw [hstrip, drop_length, append_nil]

end Encoding

end Dep2p.Base32
