import Mathlib.Algebra.BigOperators.Pi
import Mathlib.Algebra.BigOperators.Ring.Finset
import Mathlib.Algebra.Order.BigOperators.Group.Finset

/- What numbered holders hold together.

   Holders are numbered in the order they appear, and `total n w` is the sum of
   what the first `n` of them hold. A step of a system usually changes one holder
   or adds one, and the lemmas say what becomes of the total then. -/
namespace Dep2p.Lib.Ledger

open Finset

/-- The sum of `w` over the holders `0, …, n - 1`. -/
def total {M : Type} [AddCommMonoid M] (n : Nat) (w : Nat → M) : M := ∑ i ∈ Finset.range n, w i

section monoid

variable {M : Type} [AddCommMonoid M] {n : Nat} {w w' : Nat → M}

theorem total_succ : total (n + 1) w = total n w + w n :=
  sum_range_succ w n

theorem total_congr (h : ∀ i, i < n → w' i = w i) : total n w' = total n w :=
  sum_congr rfl fun i hi => h i (mem_range.mp hi)

theorem total_eq_zero (h : ∀ i, i < n → w i = 0) : total n w = 0 :=
  sum_eq_zero fun i hi => h i (mem_range.mp hi)

/-- Only the `j`-th holder holds anything. -/
theorem total_single {j : Nat} (hj : j < n) (h : ∀ i, i < n → i ≠ j → w i = 0) : total n w = w j :=
  sum_eq_single_of_mem j (mem_range.mpr hj) fun i hi hne =>
    h i (mem_range.mp hi) hne

/-- Holders of one unit each are counted. -/
theorem total_ite (p : Nat → Prop) [DecidablePred p] :
    total n (fun i => if p i then (1 : Int) else 0) = ((range n).filter p).card :=
  sum_boole p (range n)

end monoid

variable {M : Type}

/-- Holders that appear with nothing in hand. -/
theorem total_extend [AddCommMonoid M] {n m : Nat} {w w' : Nat → M} (hle : n ≤ m)
    (hold : ∀ i, i < n → w' i = w i) (hnew : ∀ i, n ≤ i → i < m → w' i = 0) :
    total m w' = total n w := by
  induction m, hle using Nat.le_induction with
  | base => exact total_congr hold
  | succ k hk ih =>
    rw [total_succ, ih fun i hi hlt => hnew i hi (by omega), hnew k hk (by omega), add_zero]

/-- One holder changes. -/
theorem total_change [AddCommGroup M] {n j : Nat} {w w' : Nat → M} (hj : j < n)
    (h : ∀ i, i < n → i ≠ j → w' i = w i) : total n w' = total n w - w j + w' j := by
  have hmem : j ∈ range n := mem_range.mpr hj
  have hrest : ∑ i ∈ (range n).erase j, w' i = ∑ i ∈ (range n).erase j, w i := by
    refine sum_congr rfl fun i hi => ?_
    obtain ⟨hne, hlt⟩ := mem_erase.mp hi
    exact h i (mem_range.mp hlt) hne
  simp only [total]
  rw [← sum_erase_add _ w' hmem, ← sum_erase_add _ w hmem, hrest, add_sub_cancel_right]

section ordered

variable {M : Type} [AddCommMonoid M] [PartialOrder M] [IsOrderedAddMonoid M] {n j : Nat}
  {w : Nat → M}

theorem total_nonneg (h : ∀ i, i < n → 0 ≤ w i) : 0 ≤ total n w :=
  sum_nonneg fun i hi => h i (mem_range.mp hi)

/-- No holder holds more than all together. -/
theorem le_total (hj : j < n) (h : ∀ i, i < n → 0 ≤ w i) : w j ≤ total n w :=
  single_le_sum (fun i hi => h i (mem_range.mp hi)) (mem_range.mpr hj)

end ordered

end Dep2p.Lib.Ledger
