import Mathlib.Tactic.Common

/- Runs that all end alike.

   When any two steps from a state lead to one state or can be joined by one more
   step each, all runs to a final state have the same length and the same end. One
   run to a final state then decides what every run does (`Diamond.settles`). -/
namespace Dep2p.Lib

variable {α : Type} {step : α → α → Prop} {n : Nat} {x y z : α}

/-- `n` steps lead from `x` to `y`. -/
inductive Steps (step : α → α → Prop) : Nat → α → α → Prop where
  | refl (x : α) : Steps step 0 x x
  | cons {n : Nat} {x y z : α} : step x y → Steps step n y z → Steps step (n + 1) x z

theorem Steps.append {m : Nat} (h : Steps step m x y) (h' : Steps step n y z) :
    Steps step (m + n) x z := by
  induction h with
  | refl x =>
    rw [Nat.zero_add]
    exact h'
  | cons hxy _ ih =>
    rw [Nat.succ_add]
    exact .cons hxy (ih h')

/-- Some number of steps lead from `x` to `y`. -/
def Leads (step : α → α → Prop) (x y : α) : Prop := ∃ n, Steps step n x y

theorem Leads.refl : Leads step x x := ⟨0, .refl x⟩

theorem Leads.single (h : step x y) : Leads step x y := ⟨1, .cons h (.refl y)⟩

theorem Leads.trans (h : Leads step x y) (h' : Leads step y z) : Leads step x z := by
  obtain ⟨m, hm⟩ := h
  obtain ⟨n, hn⟩ := h'
  exact ⟨m + n, hm.append hn⟩

theorem Leads.head (h : step x y) (h' : Leads step y z) : Leads step x z :=
  (single h).trans h'

def Final (step : α → α → Prop) (z : α) : Prop := ∀ y, ¬ step z y

/-- Two steps lead to one state, or can be joined. -/
def Diamond (step : α → α → Prop) : Prop :=
  ∀ x y z, step x y → step x z → y = z ∨ ∃ w, step y w ∧ step z w

/-- Every run from `x` is part of a run of one length that ends in `z`. -/
def Settles (step : α → α → Prop) (x z : α) : Prop :=
  Final step z ∧ ∃ n, ∀ m y, Steps step m x y → ∃ k, m + k = n ∧ Steps step k y z

/-- Another first step is one on the way to the final state too. -/
theorem Diamond.strip (hd : Diamond step) (hrun : Steps step n x z)
    (hz : Final step z) (hxy : step x y) : ∃ k, k + 1 = n ∧ Steps step k y z := by
  induction hrun generalizing y with
  | refl x => exact absurd hxy (hz y)
  | cons hxw hrest ih =>
    rename_i n x w z
    rcases hd x y w hxy hxw with heq | ⟨v, hyv, hwv⟩
    · rw [heq]
      exact ⟨n, rfl, hrest⟩
    · obtain ⟨k, hk, hvz⟩ := ih hz hwv
      exact ⟨k + 1, by rw [hk], .cons hyv hvz⟩

theorem Diamond.settles (hd : Diamond step) (h : Leads step x z) (hz : Final step z) :
    Settles step x z := by
  obtain ⟨n, hrun⟩ := h
  refine ⟨hz, n, ?_⟩
  intro m y hm
  induction hm generalizing n with
  | refl x => exact ⟨n, n.zero_add, hrun⟩
  | cons hxy _ ih =>
    obtain ⟨k, hk, hyz⟩ := hd.strip hrun hz hxy
    obtain ⟨j, hj, hrest⟩ := ih k hyz
    refine ⟨j, ?_, hrest⟩
    omega

/-- All runs end in one state only. -/
theorem Settles.unique {z' : α} (h : Settles step x z) (hl : Leads step x z')
    (hz' : Final step z') : z = z' := by
  obtain ⟨m, hm⟩ := hl
  obtain ⟨-, n, hall⟩ := h
  obtain ⟨k, -, hk⟩ := hall m z' hm
  cases hk with
  | refl => rfl
  | cons hstep _ => exact absurd hstep (hz' _)

end Dep2p.Lib
