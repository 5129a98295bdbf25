import Mathlib.Data.Nat.Digits.Lemmas

/- Numbers in positional notation, the most significant digit first.

   `value b L` is the number with the digits `L` in base `b`; the digits from the other end
   are Mathlib's `Nat.ofDigits`. Leading zeros do not change a value (`value_replicate_zero`),
   and the value and the length determine the digits (`value_inj`). `gap o z L` is how many
   zeros there are to take away until `z` of them are left (`drop_gap`). -/
namespace Dep2p.Lib.Positional

open List

/-- The number with these digits. -/
def value (b : Nat) (L : List Nat) : Nat := Nat.ofDigits b L.reverse

variable {b : Nat} {L M : List Nat}

@[simp] theorem value_nil : value b [] = 0 := rfl

theorem value_append :
    value b (L ++ M) = value b L * b ^ M.length + value b M := by
  unfold value
  rw [reverse_append, Nat.ofDigits_append, length_reverse]
  ring

theorem value_cons (d : Nat) :
    value b (d :: L) = d * b ^ L.length + value b L := by
  have hone : value b [d] = d := by simp [value]
  rw [← singleton_append, value_append, hone]

/-- One step of reading digits from the left. -/
theorem horner_cons (v d : Nat) :
    v * b ^ (d :: L).length + value b (d :: L) = (v * b + d) * b ^ L.length + value b L := by
  rw [value_cons, length_cons]
  ring

theorem le_horner (hb : 0 < b) (v : Nat) : v ≤ v * b ^ L.length + value b L :=
  (Nat.le_mul_of_pos_right v (Nat.pow_pos hb)).trans (Nat.le_add_right _ _)

theorem value_lt (hb : 1 < b) (hL : ∀ d ∈ L, d < b) : value b L < b ^ L.length := by
  have hrev : ∀ d ∈ L.reverse, d < b := fun d hd => hL d (mem_reverse.mp hd)
  have hlt := Nat.ofDigits_lt_base_pow_length hb hrev
  rwa [length_reverse] at hlt

theorem value_inj (hb : 1 < b) (hlen : L.length = M.length) (hL : ∀ d ∈ L, d < b)
    (hM : ∀ d ∈ M, d < b) (h : value b L = value b M) : L = M := by
  have hrev := Nat.ofDigits_inj_of_len_eq hb
    (by rw [length_reverse, length_reverse]; exact hlen)
    (fun d hd => hL d (mem_reverse.mp hd)) (fun d hd => hM d (mem_reverse.mp hd)) h
  exact reverse_injective hrev

theorem value_replicate_zero (b n : Nat) (L : List Nat) :
    value b (replicate n 0 ++ L) = value b L := by
  unfold value
  rw [reverse_append, reverse_replicate, Nat.ofDigits_append_replicate_zero]

/-- A first digit that is not zero bounds the value from below. -/
theorem pow_le_value {d : Nat} (hd : d ≠ 0) (L : List Nat) : b ^ L.length ≤ value b (d :: L) := by
  rw [value_cons]
  calc b ^ L.length = 1 * b ^ L.length := (one_mul _).symm
    _ ≤ d * b ^ L.length := Nat.mul_le_mul_right _ (pos_of_ne_zero hd)
    _ ≤ d * b ^ L.length + value b L := Nat.le_add_right _ _

/-- A list that is empty or starts with something else than `o`. -/
def Lead {α : Type} (o : α) (L : List α) : Prop := ∀ d ∈ L.head?, d ≠ o

/-- A number below a power has no more digits than the exponent. -/
theorem Lead.length_le {n : Nat} (hb : 1 < b) (h : Lead 0 L) (hlt : value b L < b ^ n) :
    L.length ≤ n := by
  cases L with
  | nil => exact Nat.zero_le _
  | cons d L =>
    have hle := pow_le_value (b := b) (h d rfl) L
    have hpow : b ^ L.length < b ^ n := lt_of_le_of_lt hle hlt
    exact (Nat.pow_lt_pow_iff_right hb).mp hpow

/-- In a smaller base a number has at least as many digits. -/
theorem Lead.length_le_length {c : Nat} (hb : 1 < b) (hcb : c ≤ b) (hL : Lead 0 L)
    (hM : value c M < c ^ M.length) (h : value b L = value c M) : L.length ≤ M.length := by
  refine hL.length_le hb ?_
  rw [h]
  exact lt_of_lt_of_le hM (Nat.pow_le_pow_left hcb _)

/-- Without leading zeros the value alone determines the digits. -/
theorem Lead.eq_of_value (hb : 1 < b) (hL : Lead 0 L) (hM : Lead 0 M) (hLb : ∀ d ∈ L, d < b)
    (hMb : ∀ d ∈ M, d < b) (h : value b L = value b M) : L = M := by
  refine value_inj hb (le_antisymm ?_ ?_) hLb hMb h
  · exact hL.length_le_length hb (le_refl b) (value_lt hb hMb) h
  · exact hM.length_le_length hb (le_refl b) (value_lt hb hLb) h.symm

/-! ## Leading zeros -/

section Gap

variable {α : Type} [DecidableEq α] {o : α} {L : List α}

/-- The number of further zeros `o` after the first `z` places. -/
def gap (o : α) (z : Nat) (L : List α) : Nat := ((L.drop z).takeWhile (· = o)).length

/-- Every list is some zeros and then a list without leading zeros. -/
theorem eq_zeros_append (o : α) (L : List α) :
    L = replicate (L.takeWhile (· = o)).length o ++ L.drop (L.takeWhile (· = o)).length ∧
      Lead o (L.drop (L.takeWhile (· = o)).length) := by
  induction L with
  | nil => exact ⟨rfl, fun d hd => by cases hd⟩
  | cons d L ih =>
    by_cases hd : d = o
    · rw [takeWhile_cons_of_pos (by simpa using hd), length_cons, replicate_succ,
        drop_succ_cons, cons_append, ← ih.1, hd]
      exact ⟨rfl, ih.2⟩
    · rw [takeWhile_cons_of_neg (by simpa using hd)]
      refine ⟨rfl, ?_⟩
      intro d' hd'
      cases hd'
      exact hd

theorem takeWhile_zeros (n : Nat) (hL : Lead o L) :
    (replicate n o ++ L).takeWhile (· = o) = replicate n o := by
  rw [takeWhile_append_of_pos]
  · have hnil : L.takeWhile (· = o) = [] := by
      cases L with
      | nil => rfl
      | cons d L => rw [takeWhile_cons_of_neg (by simpa using hL d rfl)]
    rw [hnil, append_nil]
  · intro d hd
    simpa using eq_of_mem_replicate hd

theorem gap_zeros {z n : Nat} (hz : z ≤ n) (hL : Lead o L) :
    gap o z (replicate n o ++ L) = n - z := by
  have hdrop : (replicate n o ++ L).drop z = replicate (n - z) o ++ L := by
    rw [drop_append_of_le_length (by rw [length_replicate]; exact hz),
      drop_replicate]
  rw [gap, hdrop, takeWhile_zeros _ hL, length_replicate]

/-- Without the gap, `z` zeros are left. -/
theorem drop_gap {z n : Nat} (hz : z ≤ n) (hL : Lead o L) :
    (replicate n o ++ L).drop (gap o z (replicate n o ++ L)) =
      replicate z o ++ L := by
  rw [gap_zeros hz hL, drop_append_of_le_length (by rw [length_replicate]; omega),
    drop_replicate]
  congr 2
  omega

end Gap

end Dep2p.Lib.Positional
