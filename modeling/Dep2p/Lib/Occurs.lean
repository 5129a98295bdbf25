import Mathlib.Data.List.Infix

/- Where a list occurs in another one, and the search for the last place. -/
namespace Dep2p.Lib

open List

variable {α : Type}

variable (xs ys : List α) {i n : Nat}

/-- `ys` stands in `xs` from place `i` on. -/
def OccursAt (i : Nat) : Prop := ys <+: xs.drop i

/-- The last place where `ys` stands in `xs`. -/
def LastAt (i : Nat) : Prop :=
  OccursAt xs ys i ∧ ∀ j, OccursAt xs ys j → j ≤ i

theorem OccursAt.bound {xs ys : List α} (h : OccursAt xs ys i) (hne : ys ≠ []) :
    i + ys.length ≤ xs.length := by
  have hle := h.length_le
  have hpos := length_pos_iff.mpr hne
  rw [length_drop] at hle
  omega

/-- What stands at the end stands there last. -/
theorem lastAt_append (hne : ys ≠ []) : LastAt (xs ++ ys) ys xs.length := by
  refine ⟨?_, ?_⟩
  · unfold OccursAt
    rw [drop_left]
  · intro j hj
    have hbound := hj.bound hne
    rw [length_append] at hbound
    omega

/-- The last number below `n` that `p` accepts, as a loop over all of them finds it. -/
def lastSuch (p : Nat → Bool) (n : Nat) : Option Nat :=
  (range n).foldl (fun last i => if p i then some i else last) none

theorem lastSuch_succ (p : Nat → Bool) :
    lastSuch p (n + 1) = if p n then some n else lastSuch p n := by
  unfold lastSuch
  rw [range_succ, foldl_append]
  rfl

variable {p : Nat → Bool}

theorem lastSuch_eq_none :
    lastSuch p n = none ↔ ∀ i, i < n → p i = false := by
  induction n with
  | zero => exact ⟨fun _ i hi => absurd hi (i.not_lt_zero), fun _ => rfl⟩
  | succ n ih =>
    rw [lastSuch_succ]
    cases hp : p n with
    | true =>
      refine ⟨fun h => (by cases h), fun h => ?_⟩
      rw [h n (n.lt_succ_self)] at hp
      cases hp
    | false =>
      rw [if_neg Bool.false_ne_true, ih]
      refine ⟨fun h i hi => ?_, fun h i hi => h i (Nat.lt_succ_of_lt hi)⟩
      rcases Nat.lt_succ_iff_lt_or_eq.mp hi with hlt | rfl
      · exact h i hlt
      · exact hp

theorem lastSuch_eq_some :
    lastSuch p n = some i ↔ i < n ∧ p i = true ∧ ∀ j, j < n → p j = true → j ≤ i := by
  induction n with
  | zero => exact ⟨fun h => (by cases h), fun h => absurd h.1 (i.not_lt_zero)⟩
  | succ n ih =>
    rw [lastSuch_succ]
    cases hp : p n with
    | true =>
      rw [if_pos rfl]
      constructor
      · intro h
        cases h
        exact ⟨i.lt_succ_self, hp, fun j hj _ => Nat.le_of_lt_succ hj⟩
      · rintro ⟨hi, -, hmax⟩
        rw [le_antisymm (Nat.le_of_lt_succ hi) (hmax n (n.lt_succ_self) hp)]
    | false =>
      have hother : ∀ j, j < n + 1 → p j = true → j < n := by
        intro j hj hpj
        refine lt_of_le_of_ne (Nat.le_of_lt_succ hj) ?_
        rintro rfl
        rw [hp] at hpj
        cases hpj
      rw [if_neg Bool.false_ne_true, ih]
      constructor
      · rintro ⟨hi, hpi, hmax⟩
        exact ⟨Nat.lt_succ_of_lt hi, hpi, fun j hj hpj => hmax j (hother j hj hpj) hpj⟩
      · rintro ⟨hi, hpi, hmax⟩
        exact ⟨hother i hi hpi, hpi, fun j hj hpj => hmax j (Nat.lt_succ_of_lt hj) hpj⟩

end Dep2p.Lib
