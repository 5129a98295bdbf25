import Dep2p.Lib.Source
import Mathlib.Data.Nat.Bitwise
import Mathlib.Data.Nat.Size
import Mathlib.Tactic.Ring

/- Unsigned varints of at most nine bytes, minimally encoded. -/
namespace Dep2p.Varint

open List UInt8

variable {x s n v i k : Nat} {b : UInt8} {buf : List UInt8} {x' s' m : Nat} {ys : List UInt8}

inductive VarintErr where
  | errOverflow | errUnderflow | errNotMinimal
  deriving DecidableEq, Repr

/-- `binary.PutUvarint` -/
def putUvarint (x : Nat) : List UInt8 :=
  if x < 128 then [UInt8.ofNat x] else UInt8.ofNat (x % 128 + 128) :: putUvarint (x / 128)

/-- What a byte does to a reader that has the value `x` of the first `s` bits. -/
inductive ReadByte where
  | value (x : Nat)
  | more (x s : Nat)
  | fail (err : VarintErr)
  deriving DecidableEq, Repr

/-- The body of the loop of `ReadUvarint`. -/
def readByte (x s : Nat) (b : UInt8) : ReadByte :=
  if (s = 56 ∧ b ≥ 0x80) ∨ s ≥ 63 then .fail .errOverflow
  else if b < 0x80 then
    if b = 0 ∧ s > 0 then .fail .errNotMinimal else .value (x ||| b.toNat <<< s)
  else .more (x ||| (b &&& 0x7f).toNat <<< s) (s + 7)

theorem or_shiftLeft (b : Nat) (hx : x < 2 ^ s) : x ||| b <<< s = x + b * 2 ^ s := by
  rw [Nat.or_comm, ← Nat.shiftLeft_add_eq_or_of_lt hx, Nat.shiftLeft_eq, add_comm]

/-- The last byte of a varint, which is not zero if it is not the only one. -/
theorem readByte_last (hx : x < 2 ^ s) (hs : s < 63) (hn : n < 128)
    (hmin : s = 0 ∨ 0 < n) : readByte x s (ofNat n) = .value (x + n * 2 ^ s) := by
  have hnat : (ofNat n).toNat = n := toNat_ofNat_of_lt' (hn.trans (by decide))
  have hlt : ofNat n < 0x80 := by
    rw [lt_iff_toNat_lt, hnat]
    exact hn
  have hzero : ¬ (ofNat n = 0 ∧ s > 0) := by
    rintro ⟨hz, hpos⟩
    have := congrArg toNat hz
    rw [hnat] at this
    change n = 0 at this
    omega
  unfold readByte
  rw [if_neg, if_pos hlt, if_neg hzero, hnat, or_shiftLeft n hx]
  rintro (⟨-, hge⟩ | hge)
  · exact absurd hlt (UInt8.not_lt.mpr hge)
  · omega

/-- A byte that announces another one. -/
theorem readByte_more (n : Nat) (hx : x < 2 ^ s) (hs : s < 56) :
    readByte x s (ofNat (n % 128 + 128)) = .more (x + n % 128 * 2 ^ s) (s + 7) := by
  have hn : n % 128 < 128 := Nat.mod_lt _ (by decide)
  have hnat : (ofNat (n % 128 + 128)).toNat = n % 128 + 128 :=
    toNat_ofNat_of_lt' (Nat.add_lt_add_right hn 128)
  have hge : ¬ ofNat (n % 128 + 128) < 0x80 := by
    rw [lt_iff_toNat_lt, hnat]
    exact not_lt.mpr (Nat.le_add_left 128 _)
  have hbits : (ofNat (n % 128 + 128) &&& 0x7f).toNat = n % 128 := by
    rw [UInt8.toNat_and, hnat]
    change (n % 128 + 128) &&& (2 ^ 7 - 1) = _
    rw [Nat.and_two_pow_sub_one_eq_mod]
    omega
  unfold readByte
  rw [if_neg, if_neg hge, hbits, or_shiftLeft _ hx]
  omega

/-- What reading `s` bits of value `x` and then the varint of `n` amounts to. -/
theorem add_mul_lt (hx : x < 2 ^ s) : x + n % 128 * 2 ^ s < 2 ^ (s + 7) := by
  have hn : n % 128 < 128 := Nat.mod_lt _ (by decide)
  calc x + n % 128 * 2 ^ s < 2 ^ s + n % 128 * 2 ^ s := Nat.add_lt_add_right hx _
    _ = (n % 128 + 1) * 2 ^ s := by ring
    _ ≤ 128 * 2 ^ s := Nat.mul_le_mul_right _ hn
    _ = 2 ^ (s + 7) := by rw [Nat.pow_add, mul_comm]

theorem add_mul_split (x s n : Nat) :
    x + n % 128 * 2 ^ s + n / 128 * 2 ^ (s + 7) = x + n * 2 ^ s := by
  calc x + n % 128 * 2 ^ s + n / 128 * 2 ^ (s + 7)
      = x + (n % 128 + 128 * (n / 128)) * 2 ^ s := by ring
    _ = x + n * 2 ^ s := by rw [Nat.mod_add_div]

/-- A byte that is not the last one leaves room for more. -/
theorem shift_lt (hn : 128 ≤ n) (hlt : n * 2 ^ s < 2 ^ 63) : s < 56 := by
  by_contra hbig
  have h1 : 2 ^ 56 ≤ 2 ^ s := Nat.pow_le_pow_right (by decide) (by omega)
  have h2 : 128 * 2 ^ 56 ≤ n * 2 ^ s := Nat.mul_le_mul hn h1
  omega

/-- What is said by a byte that ends a varint. -/
theorem readByte_value (hx : x < 2 ^ s) (h : readByte x s b = .value v) :
    v = x + b.toNat * 2 ^ s ∧ b.toNat < 128 ∧ s < 63 ∧ (s = 0 ∨ 0 < b.toNat) := by
  unfold readByte at h
  split at h
  · cases h
  rename_i hsmall
  split at h
  · rename_i hlt
    split at h
    · cases h
    rename_i hzero
    cases h
    refine ⟨or_shiftLeft _ hx, lt_iff_toNat_lt.mp hlt, by omega, ?_⟩
    by_contra hnone
    rw [not_or] at hnone
    have hb : b = 0 := UInt8.toNat_inj.mp (Nat.eq_zero_of_not_pos hnone.2)
    exact hzero ⟨hb, pos_of_ne_zero hnone.1⟩
  · cases h

theorem and_127 (hb : 128 ≤ b.toNat) : (b &&& 0x7f).toNat = b.toNat - 128 := by
  have hlt : b.toNat < 256 := b.toNat_lt
  change b.toNat &&& (2 ^ 7 - 1) = _
  rw [Nat.and_two_pow_sub_one_eq_mod]
  omega

/-- What is said by a byte that announces another one. -/
theorem readByte_next (h : readByte x s b = .more x' s') :
    x' = x ||| (b.toNat - 128) <<< s ∧ 128 ≤ b.toNat ∧ s' = s + 7 ∧ s < 63 ∧ s ≠ 56 := by
  unfold readByte at h
  split at h
  · cases h
  rename_i hsmall
  split at h
  · split at h <;> cases h
  · rename_i hge
    have hb : 128 ≤ b.toNat := le_iff_toNat_le.mp (UInt8.not_lt.mp hge)
    cases h
    refine ⟨by rw [and_127 hb], hb, rfl, by omega, ?_⟩
    intro hs
    exact hsmall (.inl ⟨hs, UInt8.not_lt.mp hge⟩)

theorem readByte_next_lt (hx : x < 2 ^ s)
    (h : readByte x s b = .more x' s') : x' = x + (b.toNat - 128) * 2 ^ s ∧ x' < 2 ^ (s + 7) := by
  obtain ⟨hx', -⟩ := readByte_next h
  have hb : b.toNat - 128 < 128 := by
    have := b.toNat_lt
    omega
  have hlt : x + (b.toNat - 128) % 128 * 2 ^ s < 2 ^ (s + 7) := add_mul_lt hx
  rw [Nat.mod_eq_of_lt hb] at hlt
  rw [or_shiftLeft _ hx] at hx'
  exact ⟨hx', by rwa [hx']⟩

/-! ## Reading from a buffer -/

/-- The body of the loop of `FromUvarint`, which tests the number `i` of the bytes before. -/
def fromUvarintByte (x s i : Nat) (b : UInt8) : ReadByte :=
  if (i = 8 ∧ b ≥ 0x80) ∨ i ≥ 9 then .fail .errOverflow
  else if b < 0x80 then
    if b = 0 ∧ s > 0 then .fail .errNotMinimal else .value (x ||| b.toNat <<< s)
  else .more (x ||| (b &&& 0x7f).toNat <<< s) (s + 7)

/-- The loop of `FromUvarint`, with the value `x` of the `i` bytes before, that is of `s`
bits. -/
def fromUvarintLoop (x s i : Nat) : List UInt8 → Except VarintErr (Nat × Nat)
  | [] => .error .errUnderflow
  | b :: buf =>
    match fromUvarintByte x s i b with
    | .value v => .ok (v, i + 1)
    | .fail err => .error err
    | .more x' s' => fromUvarintLoop x' s' (i + 1) buf

/-- The value in front of `buf` and the number of its bytes. -/
def fromUvarint (buf : List UInt8) : Except VarintErr (Nat × Nat) := fromUvarintLoop 0 0 0 buf

/-- After `i` bytes there are `7 * i` bits, and the tests of `FromUvarint` on the one are those
of `ReadUvarint` on the other. -/
theorem fromUvarintByte_eq : fromUvarintByte x (7 * i) i b = readByte x (7 * i) b := by
  have htests : ((i = 8 ∧ b ≥ 0x80) ∨ i ≥ 9) ↔ ((7 * i = 56 ∧ b ≥ 0x80) ∨ 7 * i ≥ 63) := by
    have height : i = 8 ↔ 7 * i = 56 := by omega
    have hnine : i ≥ 9 ↔ 7 * i ≥ 63 := by omega
    rw [height, hnine]
  simp [fromUvarintByte, readByte, htests]

theorem fromUvarintLoop_cons :
    fromUvarintLoop x (7 * i) i (b :: buf) =
      match readByte x (7 * i) b with
      | .value v => .ok (v, i + 1)
      | .fail err => .error err
      | .more x' s' => fromUvarintLoop x' s' (i + 1) buf := by
  rw [fromUvarintLoop, fromUvarintByte_eq]

/-- The varint of `n` is read to its end, whatever follows. The induction is on its bytes;
the reader has the value of the bits below. -/
theorem fromUvarintLoop_put (n x i : Nat) (ys : List UInt8) (hx : x < 2 ^ (7 * i)) (hi : i < 9)
    (hn : n * 2 ^ (7 * i) < 2 ^ 63) (hmin : i = 0 ∨ 0 < n) :
    fromUvarintLoop x (7 * i) i (putUvarint n ++ ys) =
      .ok (x + n * 2 ^ (7 * i), i + (putUvarint n).length) := by
  induction n using Nat.strongRecOn generalizing x i with
  | ind n ih =>
    rw [putUvarint]
    split
    · rename_i hlt
      rw [singleton_append, fromUvarintLoop_cons, readByte_last hx (by omega) hlt (by omega)]
      rfl
    · rename_i hge
      have hs : 7 * i < 56 := shift_lt (not_lt.mp hge) hn
      have hsplit : _ + n / 128 * 2 ^ (7 * (i + 1)) = _ := add_mul_split x (7 * i) n
      rw [cons_append, fromUvarintLoop_cons, readByte_more n hx hs]
      show fromUvarintLoop _ (7 * (i + 1)) (i + 1) _ = _
      rw [ih (n / 128) (by omega) (x + n % 128 * 2 ^ (7 * i)) (i + 1) (add_mul_lt hx)
        (by omega) (by omega) (.inr (by omega)), hsplit, length_cons,
        add_right_comm, ← add_assoc]

theorem fromUvarint_put (hn : n < 2 ^ 63) (ys : List UInt8) :
    fromUvarint (putUvarint n ++ ys) = .ok (n, (putUvarint n).length) := by
  have hloop := fromUvarintLoop_put n 0 0 ys (by decide) (by decide) (by omega) (.inl rfl)
  simpa [fromUvarint] using hloop

/-- The varint of a number with a byte more. -/
theorem putUvarint_cons (hm : m < 128) (hn : 0 < n) :
    putUvarint (m + 128 * n) = ofNat (m + 128) :: putUvarint n := by
  rw [putUvarint, if_neg (by omega)]
  have hmod : (m + 128 * n) % 128 = m := by omega
  have hdiv : (m + 128 * n) / 128 = n := by omega
  rw [hmod, hdiv]

/-- Only varints that `putUvarint` writes are read. -/
theorem fromUvarintLoop_ok (hx : x < 2 ^ (7 * i))
    (h : fromUvarintLoop x (7 * i) i buf = .ok (v, k)) :
    ∃ n ys, buf = putUvarint n ++ ys ∧ v = x + n * 2 ^ (7 * i) ∧ k = i + (putUvarint n).length ∧
      (i = 0 ∨ 0 < n) ∧ v < 2 ^ 63 := by
  induction buf generalizing x i with
  | nil => cases h
  | cons b buf ih =>
    rw [fromUvarintLoop_cons] at h
    split at h
    · rename_i v' hread
      obtain ⟨hv, hb, hs, hmin⟩ := readByte_value hx hread
      cases h
      have hput : putUvarint b.toNat = [b] := by
        rw [putUvarint, if_pos hb, UInt8.ofNat_toNat]
      refine ⟨b.toNat, buf, by rw [hput]; rfl, hv, by rw [hput]; rfl, by omega, ?_⟩
      have hlt : x + b.toNat % 128 * 2 ^ (7 * i) < 2 ^ (7 * i + 7) := add_mul_lt hx
      rw [Nat.mod_eq_of_lt hb, ← hv] at hlt
      exact hlt.trans_le (Nat.pow_le_pow_right (by decide) (by omega))
    · cases h
    · rename_i x' s' hread
      obtain ⟨-, hb, hs', hs, hne⟩ := readByte_next hread
      obtain ⟨hx', hlt⟩ := readByte_next_lt hx hread
      have hb' : b.toNat - 128 < 128 := by
        have := b.toNat_lt
        omega
      rw [hs'] at h
      rw [← Nat.mul_succ] at hlt
      obtain ⟨n, ys, hbuf, hv, hk, hn, hbound⟩ := ih hlt h
      have hpos : 0 < n := by omega
      have hput : putUvarint (b.toNat - 128 + 128 * n) = b :: putUvarint n := by
        rw [putUvarint_cons hb' hpos, Nat.sub_add_cancel hb, UInt8.ofNat_toNat]
      refine ⟨b.toNat - 128 + 128 * n, ys, ?_, ?_, ?_, Or.inr (by omega), hbound⟩
      · rw [hput, hbuf]
        rfl
      · rw [hv, hx', Nat.mul_succ]
        ring
      · rw [hput, length_cons]
        omega

/-- What is accepted is the varint of a number below `2 ^ 63` and something after it. -/
theorem fromUvarint_ok (h : fromUvarint buf = .ok (v, k)) :
    ∃ ys, buf = putUvarint v ++ ys ∧ k = (putUvarint v).length ∧ v < 2 ^ 63 := by
  obtain ⟨n, ys, hbuf, hv, hk, -, hlt⟩ := fromUvarintLoop_ok (i := 0) one_pos h
  have hn : v = n := by simpa using hv
  subst hn
  exact ⟨ys, hbuf, by simpa using hk, hlt⟩

/-! ## Concatenations -/

/-- No varint is the beginning of another one. The induction is on the bytes of both. -/
theorem putUvarint_append_inj {xs : List UInt8}
    (h : putUvarint n ++ xs = putUvarint m ++ ys) : n = m ∧ xs = ys := by
  have hlast {a : Nat} (ha : a < 128) : (ofNat a).toNat = a :=
    toNat_ofNat_of_lt' (ha.trans (by decide))
  have hmore (a : Nat) : (ofNat (a % 128 + 128)).toNat = a % 128 + 128 :=
    toNat_ofNat_of_lt' (Nat.add_lt_add_right (Nat.mod_lt a (by decide)) 128)
  induction n using Nat.strongRecOn generalizing m with
  | ind n ih =>
    rw [putUvarint, putUvarint.eq_def m] at h
    by_cases hn : n < 128 <;> by_cases hm : m < 128
    · rw [if_pos hn, if_pos hm] at h
      obtain ⟨hb, hrest⟩ := cons.inj h
      have := congrArg toNat hb
      rw [hlast hn, hlast hm] at this
      exact ⟨this, hrest⟩
    · rw [if_pos hn, if_neg hm] at h
      have := congrArg toNat (cons.inj h).1
      rw [hlast hn, hmore] at this
      omega
    · rw [if_neg hn, if_pos hm] at h
      have := congrArg toNat (cons.inj h).1
      rw [hlast hm, hmore] at this
      omega
    · rw [if_neg hn, if_neg hm] at h
      obtain ⟨hb, hrest⟩ := cons.inj h
      obtain ⟨hdiv, hrest⟩ := ih (n / 128) (by omega) hrest
      have := congrArg toNat hb
      rw [hmore, hmore] at this
      exact ⟨by omega, hrest⟩

theorem putUvarint_injective : Function.Injective putUvarint := by
  intro n m h
  have happend : putUvarint n ++ [] = putUvarint m ++ [] := by rw [h]
  exact (putUvarint_append_inj happend).1

/-- Fields one after the other, each behind its length. -/
def lengthPrefixed (fields : List (List UInt8)) : List UInt8 :=
  fields.flatMap fun f => putUvarint f.length ++ f

theorem lengthPrefixed_cons (f : List UInt8) (fields : List (List UInt8)) :
    lengthPrefixed (f :: fields) = putUvarint f.length ++ (f ++ lengthPrefixed fields) := by
  simp [lengthPrefixed]

theorem putUvarint_ne_nil (n : Nat) : putUvarint n ≠ [] := by
  rw [putUvarint]
  split <;> exact cons_ne_nil _ _

theorem lengthPrefixed_cons_ne_nil (f : List UInt8) (fields : List (List UInt8)) :
    lengthPrefixed (f :: fields) ≠ [] := by
  rw [lengthPrefixed_cons]
  exact append_ne_nil_of_left_ne_nil (putUvarint_ne_nil _) _

/-- The fields and their number can be read off their concatenation. -/
theorem lengthPrefixed_injective : Function.Injective lengthPrefixed := by
  intro fs gs h
  induction fs generalizing gs with
  | nil =>
    cases gs with
    | nil => rfl
    | cons g gs => exact absurd h.symm (lengthPrefixed_cons_ne_nil g gs)
  | cons f fs ih =>
    cases gs with
    | nil => exact absurd h (lengthPrefixed_cons_ne_nil f fs)
    | cons g gs =>
      rw [lengthPrefixed_cons, lengthPrefixed_cons] at h
      obtain ⟨hlen, hrest⟩ := putUvarint_append_inj h
      obtain ⟨hfield, hrest⟩ := append_inj hrest hlen
      rw [hfield, ih hrest]

/-! ## Reading from a reader of bytes -/

open Lib

inductive UvarintErr where
  | varint (err : VarintErr)
  | read (err : ReadErr)
  deriving DecidableEq, Repr

/-- An `io.ByteReader` with state `R`. -/
abbrev ByteReader (R : Type) := R → Except ReadErr UInt8 × R

/-- A reader hands out what is left, byte by byte. `At r bs` says that `bs` is left at `r`. -/
structure Lawful {R : Type} (rb : ByteReader R) (At : R → List UInt8 → Prop) : Prop where
  byte : ∀ {r b bs}, At r (b :: bs) → ∃ r', rb r = (.ok b, r') ∧ At r' bs
  eof : ∀ {r}, At r [] → ∃ r', rb r = (.error .eof, r') ∧ At r' []

/-- A reader that asks a source for one byte at a time. -/
def simpleReadByte : ByteReader (Source UInt8) := fun src =>
  match src.readFull 1 with
  | (b :: _, none, src) => (.ok b, src)
  | (_, err, src) => (.error (err.getD .eof), src)

theorem simpleReadByte_lawful : Lawful simpleReadByte (fun src bs => src.rest = bs) where
  byte := by
    intro src b bs h
    have hsrc : src.rest = [b] ++ bs := h
    obtain ⟨src', hfull, hrest⟩ := Source.readFull_append hsrc
    refine ⟨src', ?_, hrest⟩
    rw [length_singleton] at hfull
    rw [simpleReadByte, hfull]
  eof := by
    intro src h
    obtain ⟨src', hfull, hrest⟩ := Source.readFull_eof one_pos h
    refine ⟨src', ?_, hrest⟩
    rw [simpleReadByte, hfull]
    rfl

section

variable {R : Type} (rb : ByteReader R)

/-- The loop of `ReadUvarint`. An end of file inside a varint is unexpected. -/
def readUvarintLoop (x s : Nat) (r : R) : Except UvarintErr Nat × R :=
  match rb r with
  | (.ok b, r) =>
    match h : readByte x s b with
    | .value v => (.ok v, r)
    | .fail err => (.error (.varint err), r)
    | .more x' s' =>
      have : 63 - s' < 63 - s := by
        have hs := readByte_next h
        omega
      readUvarintLoop x' s' r
  | (.error err, r) =>
    (.error (.read (if err = .eof ∧ s ≠ 0 then .unexpectedEOF else err)), r)
termination_by 63 - s

def readUvarint (r : R) : Except UvarintErr Nat × R := readUvarintLoop rb 0 0 r

variable {rb} {At : R → List UInt8 → Prop} {r : R}

theorem readUvarintLoop_byte {r' : R} (h : rb r = (.ok b, r')) :
    readUvarintLoop rb x s r =
      match readByte x s b with
      | .value v => (.ok v, r')
      | .fail err => (.error (.varint err), r')
      | .more x' s' => readUvarintLoop rb x' s' r' := by
  rw [readUvarintLoop, h]
  dsimp only
  split
  all_goals
    rename_i hv
    rw [hv]

section

variable (hrb : Lawful rb At)
include hrb

/-- A varint that is read from a buffer is read from a reader, and not a byte more. -/
theorem readUvarintLoop_ok (hat : At r buf) (h : fromUvarintLoop x (7 * i) i buf = .ok (v, k)) :
    ∃ r' xs ys, readUvarintLoop rb x (7 * i) r = (.ok v, r') ∧ At r' ys ∧ buf = xs ++ ys ∧
      k = i + xs.length := by
  induction buf generalizing x i r with
  | nil => cases h
  | cons b buf ih =>
    obtain ⟨r', hb, hat'⟩ := hrb.byte hat
    rw [fromUvarintLoop_cons] at h
    rw [readUvarintLoop_byte hb]
    split at h
    · rename_i v' hread
      cases h
      exact ⟨r', [b], buf, rfl, hat', rfl, rfl⟩
    · cases h
    · rename_i x' s' hread
      obtain ⟨-, -, rfl, -, -⟩ := readByte_next hread
      obtain ⟨r'', xs, ys, hloop, hat'', hbuf, hk⟩ := ih (i := i + 1) hat' h
      refine ⟨r'', b :: xs, ys, hloop, hat'', by rw [hbuf]; rfl, ?_⟩
      rw [length_cons]
      omega

variable {err : VarintErr}

/-- What is refused in a buffer is refused from a reader. -/
theorem readUvarintLoop_error (hat : At r buf)
    (h : fromUvarintLoop x (7 * i) i buf = .error err) :
    ∃ err' r', readUvarintLoop rb x (7 * i) r = (.error err', r') := by
  induction buf generalizing x i r with
  | nil =>
    obtain ⟨r', hb, -⟩ := hrb.eof hat
    rw [readUvarintLoop, hb]
    exact ⟨_, r', rfl⟩
  | cons b buf ih =>
    obtain ⟨r', hb, hat'⟩ := hrb.byte hat
    rw [fromUvarintLoop_cons] at h
    rw [readUvarintLoop_byte hb]
    split at h
    · cases h
    · rename_i err' hread
      exact ⟨_, r', rfl⟩
    · rename_i x' s' hread
      obtain ⟨-, -, rfl, -, -⟩ := readByte_next hread
      obtain ⟨err', r'', hloop⟩ := ih (i := i + 1) hat' h
      exact ⟨err', r'', hloop⟩

theorem readUvarint_put (hn : n < 2 ^ 63) (hat : At r (putUvarint n ++ ys)) :
    ∃ r', readUvarint rb r = (.ok n, r') ∧ At r' ys := by
  obtain ⟨r', xs, ys', hloop, hat', hbuf, hk⟩ := readUvarintLoop_ok (i := 0) hrb hat
    (fromUvarint_put hn ys)
  rw [zero_add] at hk
  obtain ⟨-, rfl⟩ := append_inj hbuf hk
  exact ⟨r', hloop, hat'⟩

theorem readUvarint_error (hat : At r buf) (h : fromUvarint buf = .error err) :
    ∃ err' r', readUvarint rb r = (.error err', r') := readUvarintLoop_error (i := 0) hrb hat h

theorem readUvarint_eof (hat : At r []) :
    ∃ r', readUvarint rb r = (.error (.read .eof), r') ∧ At r' [] := by
  obtain ⟨r', hb, hat'⟩ := hrb.eof hat
  refine ⟨r', ?_, hat'⟩
  rw [readUvarint, readUvarintLoop, hb]
  rfl

end

end

/-! ## Sizes -/

/-- The number of bytes of a varint; `bits.Len64` is `Nat.size`. -/
def uvarintSize (num : Nat) : Nat :=
  let bits := num.size
  let size := bits / 7
  if bits % 7 > 0 ∨ size = 0 then size + 1 else size

/-- `PutUvarint` into a buffer of `UvarintSize` bytes; it panics in one that is too short. -/
def toUvarint (num : Nat) : Option (List UInt8) :=
  if (putUvarint num).length ≤ uvarintSize num then some (putUvarint num) else none

theorem size_div_128 (h : 128 ≤ n) : n.size = (n / 128).size + 7 := by
  have hle (k : Nat) : (n / 128).size ≤ k ↔ n.size ≤ k + 7 := by
    rw [Nat.size_le, Nat.size_le, Nat.div_lt_iff_lt_mul (by decide), Nat.pow_add]
  have hseven : 7 < n.size := Nat.lt_size.mpr h
  have hto := (hle _).mp le_rfl
  have hfrom := (hle (n.size - 7)).mpr (by omega)
  omega

theorem uvarintSize_lt (h : n < 128) : uvarintSize n = 1 := by
  have hbits : n.size ≤ 7 := Nat.size_le.mpr h
  unfold uvarintSize
  dsimp only
  split <;> omega

theorem uvarintSize_div_128 (h : 128 ≤ n) : uvarintSize n = uvarintSize (n / 128) + 1 := by
  have hpos : 0 < (n / 128).size := Nat.size_pos.mpr (Nat.div_pos h (by decide))
  unfold uvarintSize
  dsimp only
  rw [size_div_128 h, Nat.add_div_right _ (by decide)]
  split <;> split <;> omega

theorem length_putUvarint : (putUvarint n).length = uvarintSize n := by
  induction n using Nat.strongRecOn with
  | ind n ih =>
    rw [putUvarint]
    split
    · rename_i hlt
      rw [uvarintSize_lt hlt]
      rfl
    · rename_i hge
      rw [length_cons, ih (n / 128) (by omega), uvarintSize_div_128 (not_lt.mp hge)]

theorem toUvarint_eq : toUvarint n = some (putUvarint n) := by
  rw [toUvarint, if_pos length_putUvarint.le]

/-! ## Encoding and decoding -/

section

variable {R : Type} {rb : ByteReader R} {At : R → List UInt8 → Prop} {r : R}

/-- A reader gets what is in front of the buffer and leaves the rest. -/
theorem readUvarint_of_buffer (hrb : Lawful rb At) (hat : At r buf)
    (h : fromUvarint buf = .ok (n, k)) :
    ∃ r', readUvarint rb r = (.ok n, r') ∧ At r' (buf.drop k) := by
  obtain ⟨ys, rfl, rfl, hn⟩ := fromUvarint_ok h
  rw [drop_left]
  exact readUvarint_put hrb hn hat

/-- What a reader accepts, the buffer has in front. -/
theorem buffer_of_readUvarint (hrb : Lawful rb At) {r' : R}
    (hat : At r buf) (h : readUvarint rb r = (.ok n, r')) :
    ∃ k, fromUvarint buf = .ok (n, k) := by
  cases hbuf : fromUvarint buf with
  | error err =>
    obtain ⟨err', r'', herr⟩ := readUvarint_error hrb hat hbuf
    rw [h] at herr
    cases herr
  | ok res =>
    obtain ⟨v, k⟩ := res
    obtain ⟨r'', hread, -⟩ := readUvarint_of_buffer hrb hat hbuf
    rw [h] at hread
    cases hread
    exact ⟨k, rfl⟩

end

/-- Decoding inverts encoding, only encodings are decoded, and a reader of bytes decodes as
the buffer does. -/
theorem uvarint_inverse :
    (∀ n, n < 2 ^ 63 → ∃ enc, toUvarint n = some enc ∧
      ∀ suff, fromUvarint (enc ++ suff) = .ok (n, uvarintSize n)) ∧
    (∀ buf n k, fromUvarint buf = .ok (n, k) → toUvarint n = some (buf.take k)) ∧
    ∀ (R : Type) (rb : ByteReader R) (At : R → List UInt8 → Prop), Lawful rb At →
      ∀ r buf, At r buf →
        (∀ n, (∃ k, fromUvarint buf = .ok (n, k)) ↔ ∃ r', readUvarint rb r = (.ok n, r')) ∧
        ∀ n k, fromUvarint buf = .ok (n, k) →
          ∃ r', readUvarint rb r = (.ok n, r') ∧ At r' (buf.drop k) := by
  refine ⟨?_, ?_, ?_⟩
  · intro n hn
    refine ⟨putUvarint n, toUvarint_eq, fun suff => ?_⟩
    rw [fromUvarint_put hn suff, length_putUvarint]
  · intro buf n k h
    obtain ⟨ys, rfl, rfl, -⟩ := fromUvarint_ok h
    rw [take_left, toUvarint_eq]
  · intro R rb At hrb r buf hat
    refine ⟨fun n => ⟨?_, ?_⟩, fun n k h => readUvarint_of_buffer hrb hat h⟩
    · rintro ⟨k, h⟩
      obtain ⟨r', hread, -⟩ := readUvarint_of_buffer hrb hat h
      exact ⟨r', hread⟩
    · rintro ⟨r', h⟩
      exact buffer_of_readUvarint hrb hat h

theorem uvarint_inverse_300 :
    fromUvarint [0xac, 0x02, 0x07] = .ok (300, 2) ∧ toUvarint 300 = some [0xac, 0x02] ∧
      ∃ r', readUvarint simpleReadByte ⟨[[0xac], [0x02, 0x07]], false⟩ = (.ok 300, r') ∧
        r'.rest = [0x07] := by
  have hbuf : fromUvarint [0xac, 0x02, 0x07] = .ok (300, 2) := by decide +kernel
  exact ⟨hbuf, uvarint_inverse.2.1 _ _ _ hbuf,
    (uvarint_inverse.2.2 _ _ _ simpleReadByte_lawful ⟨[[0xac], [0x02, 0x07]], false⟩
      [0xac, 0x02, 0x07] rfl).2 300 2 hbuf⟩

end Dep2p.Varint
