import Mathlib.Data.List.Basic

/- Computations that fail with an error or panic.

   A slice expression out of range panics; `sliceFrom` and `sliceTo` are the two forms. -/
namespace Dep2p.Lib

inductive Fault (ε : Type) where
  | err (e : ε)
  | panicked
  deriving DecidableEq, Repr

variable {ε ε' α β : Type}

variable (f : ε → ε') (xs : List β) (a : α)

@[simp] theorem ok_bind (f : α → Except ε β) : (.ok a >>= f) = f a := rfl

@[simp] theorem error_bind (e : ε) (f : α → Except ε β) :
    ((.error e : Except ε α) >>= f) = .error e := rfl

theorem bind_eq_ok {x : Except ε α} {f : α → Except ε β} {b : β} :
    x >>= f = .ok b ↔ ∃ a, x = .ok a ∧ f a = .ok b := by
  cases x with
  | error e | ok a => simp

theorem mapError_eq_ok {f : ε → ε'} {x : Except ε α} {a : α} :
    x.mapError f = .ok a ↔ x = .ok a := by
  cases x with
  | error e | ok a => simp [Except.mapError]

variable {x : Except (Fault ε) α}

namespace Fault

/-- The same panic, or the error inside another one. -/
def map : Fault ε → Fault ε'
  | err e => err (f e)
  | panicked => panicked

/-- Pass a fault on, with its error inside another one. -/
def wrap : Except (Fault ε) α → Except (Fault ε') α
  | .ok a => .ok a
  | .error e => .error (e.map f)

@[simp] theorem wrap_ok : wrap f (.ok a) = .ok a := rfl

theorem wrap_eq_ok {f : ε → ε'} {a : α} :
    wrap f x = .ok a ↔ x = .ok a := by
  cases x with
  | error e => simp [wrap]
  | ok b => simp

end Fault

/-- No panic. -/
def Safe (x : Except (Fault ε) α) : Prop := x ≠ .error .panicked

namespace Safe

theorem ok : Safe (.ok a : Except (Fault ε) α) := fun h => by cases h

theorem err (e : ε) : Safe (.error (.err e) : Except (Fault ε) α) := fun h => by cases h

theorem bind {f : α → Except (Fault ε) β} (hx : Safe x)
    (hf : ∀ a, x = .ok a → Safe (f a)) : Safe (x >>= f) := by
  cases x with
  | error e =>
    intro h
    cases h
    exact hx rfl
  | ok a => exact hf a rfl

end Safe

/-- `xs[lo:]` -/
def sliceFrom (lo : Nat) : Except (Fault ε) (List β) :=
  if lo ≤ xs.length then .ok (xs.drop lo) else .error .panicked

/-- `xs[:hi]` -/
def sliceTo (hi : Nat) : Except (Fault ε) (List β) :=
  if hi ≤ xs.length then .ok (xs.take hi) else .error .panicked

variable {xs : List β}

theorem sliceFrom_safe {lo : Nat} (h : lo ≤ xs.length) :
    Safe (sliceFrom xs lo : Except (Fault ε) _) := by
  rw [sliceFrom, if_pos h]
  exact .ok _

theorem sliceTo_safe {hi : Nat} (h : hi ≤ xs.length) :
    Safe (sliceTo xs hi : Except (Fault ε) _) := by
  rw [sliceTo, if_pos h]
  exact .ok _

@[simp] theorem sliceFrom_append (ys : List β) : sliceFrom (ε := ε) (xs ++ ys) xs.length = .ok ys := by
  simp [sliceFrom]

@[simp] theorem sliceTo_append (ys : List β) : sliceTo (ε := ε) (xs ++ ys) xs.length = .ok xs := by
  simp [sliceTo]

theorem sliceFrom_of_eq {data ys : List β} {lo : Nat} (h : data = xs ++ ys) (hlo : lo = xs.length) :
    sliceFrom (ε := ε) data lo = .ok ys := by
  rw [h, hlo, sliceFrom_append]

theorem sliceTo_of_eq {data ys : List β} {hi : Nat} (h : data = xs ++ ys) (hhi : hi = xs.length) :
    sliceTo (ε := ε) data hi = .ok xs := by
  rw [h, hhi, sliceTo_append]

end Dep2p.Lib
